import Obsy.Part.Segments

/-!
# Decoded row groups

A reader decodes the rows of a row group that a scan selects and may keep them for the next
scan, under the row group and the selection.

* `selectRows`: the rows of a selection.
* `GroupCache`: decoded rows, and the outcomes of narrow passes.
* `GroupCache.Sound`: what the cache holds is what decoding would give.
-/

namespace Obsy

namespace Part

open Logql (ExactFieldPredicate)

/-! ### Time ranges -/

/-- The window of a scan. -/
structure QueryTimeRange where
  startNs : Nanos
  endNs : Nanos
  includeEnd : Bool
deriving DecidableEq

namespace QueryTimeRange

/-- Every row there is. -/
def unbounded : QueryTimeRange := ⟨Nanos.min, Nanos.max, true⟩

def contains (range : QueryTimeRange) (ts : Nanos) : Bool :=
  range.startNs ≤ ts && (ts < range.endNs || range.includeEnd && ts == range.endNs)

/-- Whether a span can hold a timestamp of the range. -/
def overlaps (range : QueryTimeRange) (lo hi : Nanos) : Bool :=
  range.startNs ≤ hi && (lo < range.endNs || range.includeEnd && lo == range.endNs)

theorem contains_unbounded (ts : Nanos) : unbounded.contains ts = true := by
  have hmin := Nanos.min_le ts
  have hmax := (Nanos.le_max ts).lt_or_eq
  simp only [contains, unbounded, Bool.and_eq_true, Bool.or_eq_true, beq_iff_eq, true_and]
  exact ⟨decide_eq_true hmin, hmax.imp decide_eq_true id⟩

/-- A span is only left out where none of its timestamps is in the range. -/
theorem overlaps_of_contains {range : QueryTimeRange} {lo hi ts : Nanos} (hlo : lo ≤ ts)
    (hhi : ts ≤ hi) (h : range.contains ts = true) : range.overlaps lo hi = true := by
  simp only [contains, overlaps, Bool.and_eq_true, Bool.or_eq_true, decide_eq_true_eq,
    beq_iff_eq] at h ⊢
  refine ⟨h.1.trans hhi, ?_⟩
  rcases h.2 with h | ⟨hinc, h⟩
  · exact .inl (hlo.trans_lt h)
  · rcases hlo.lt_or_eq with hlt | heq
    · exact .inl (hlt.trans_eq h)
    · exact .inr ⟨hinc, heq.trans h⟩

end QueryTimeRange

/-! ### Selections -/

/-- The rows of a row group that are to be read: one bit for each. -/
abbrev Selection := List Bool

def allRows (rows : ℕ) : Selection := List.replicate rows true

/-- The selected ones of some rows. -/
def selectRows {α : Type*} (selection : Selection) (rows : List α) : List α :=
  (rows.zip selection).filterMap fun r => if r.2 then some r.1 else none

@[simp] theorem selectRows_nil {α : Type*} (selection : Selection) :
    selectRows selection ([] : List α) = [] := rfl

@[simp] theorem selectRows_cons {α : Type*} (bit : Bool) (selection : Selection) (row : α)
    (rows : List α) : selectRows (bit :: selection) (row :: rows)
      = if bit then row :: selectRows selection rows else selectRows selection rows := by
  cases bit <;> simp [selectRows]

theorem selectRows_allRows {α : Type*} (rows : List α) :
    selectRows (allRows rows.length) rows = rows := by
  induction rows with
  | nil => rfl
  | cons row rows ih =>
    rw [List.length_cons, allRows, List.replicate_succ, selectRows_cons, if_pos rfl]
    exact congrArg _ ih

theorem map_selectRows {α β : Type*} (f : α → β) (selection : Selection) (rows : List α) :
    (selectRows selection rows).map f = selectRows selection (rows.map f) := by
  induction rows generalizing selection with
  | nil => rfl
  | cons row rows ih =>
    cases selection with
    | nil => rfl
    | cons bit selection =>
      rw [List.map_cons, selectRows_cons, selectRows_cons]
      cases bit
      · exact ih selection
      · exact congrArg _ (ih selection)

theorem selectRows_sublist {α : Type*} (selection : Selection) (rows : List α) :
    (selectRows selection rows).Sublist rows := by
  induction rows generalizing selection with
  | nil => exact .refl _
  | cons row rows ih =>
    cases selection with
    | nil => exact List.nil_sublist _
    | cons bit selection =>
      rw [selectRows_cons]
      cases bit
      · exact (ih selection).cons row
      · exact (ih selection).cons_cons row

/-- A selection that leaves out no row of a kind keeps all of that kind. -/
theorem filter_selectRows {α : Type*} {wanted : α → Bool} {selection : Selection} {rows : List α}
    (h : ∀ (i : ℕ) (row : α), rows[i]? = some row → wanted row = true →
      selection[i]? = some true) :
    (selectRows selection rows).filter wanted = rows.filter wanted := by
  induction rows generalizing selection with
  | nil => rfl
  | cons row rows ih =>
    cases selection with
    | nil =>
      have hnone : ∀ r ∈ row :: rows, wanted r = false := by
        intro r hr
        obtain ⟨i, hi⟩ := List.mem_iff_getElem?.1 hr
        by_contra hw
        have := h i r hi (by simpa using hw)
        cases this
      have hnil : (row :: rows).filter wanted = [] :=
        List.filter_eq_nil_iff.2 fun r hr => by simp [hnone r hr]
      rw [hnil]
      rfl
    | cons bit selection =>
      have hrest : (selectRows selection rows).filter wanted = rows.filter wanted :=
        ih fun i r hi hw => by simpa using h (i + 1) r (by simpa using hi) hw
      cases bit with
      | true => rw [selectRows_cons, if_pos rfl, List.filter_cons, List.filter_cons, hrest]
      | false =>
        have hw : wanted row = false := by
          by_contra hw
          have := h 0 row rfl (by simpa using hw)
          cases this
        rw [selectRows_cons, if_neg Bool.false_ne_true, hrest, List.filter_cons, hw,
          if_neg Bool.false_ne_true]

def bothSelections (left right : Selection) : Selection := left.zipWith (· && ·) right

/-- The bits of a selection at the rows another one selects. -/
def selectionWithin (subset base : Selection) : Selection := selectRows base subset

/-- Rows selected twice are those of the narrower selection. -/
theorem selectRows_within {α : Type*} {subset base : Selection} {rows : List α}
    (hlen : subset.length = base.length) (hrows : base.length = rows.length)
    (h : bothSelections subset base = subset) :
    selectRows (selectionWithin subset base) (selectRows base rows) = selectRows subset rows := by
  induction rows generalizing subset base with
  | nil => simp [selectionWithin]
  | cons row rows ih =>
    cases base with
    | nil => cases hrows
    | cons bit base =>
      cases subset with
      | nil => cases hlen
      | cons narrow subset =>
        have hcons : (narrow && bit) = narrow ∧ bothSelections subset base = subset := by
          simpa [bothSelections] using h
        have hrest := ih (by simpa using hlen) (by simpa using hrows) hcons.2
        rw [selectionWithin] at hrest ⊢
        rw [selectRows_cons, selectRows_cons, selectRows_cons]
        cases bit with
        | true =>
          rw [if_pos rfl, if_pos rfl, selectRows_cons, hrest]
        | false =>
          have hnarrow : narrow = false := by simpa using hcons.1.symm
          rw [if_neg Bool.false_ne_true, if_neg Bool.false_ne_true, hnarrow,
            if_neg Bool.false_ne_true, hrest]

/-! ### Narrow passes -/

/-- A predicate the columns of a part answer row by row. -/
structure DefinitiveColumn where
  value : String
  smKey : Option ℕ
  /-- The column of the field of the line. -/
  pfKey : Option ℕ
  /-- Whether the line may supply what the metadata does not. -/
  extracted : Bool
deriving DecidableEq

def cellAt (columns : List (Option String)) (key : Option ℕ) : Option String :=
  key.bind fun key => (columns[key]?).join

/-- Whether a row satisfies a predicate; metadata wins over the line. -/
def DefinitiveColumn.satisfied (column : DefinitiveColumn) (cells : Cells) : Bool :=
  ((cellAt cells.metadata column.smKey).or
    (if column.extracted then cellAt cells.parsed column.pfKey else none)) == some column.value

/-- What a narrow pass depends on. -/
structure NarrowQuery where
  rowGroup : ℕ
  time : QueryTimeRange
  base : Selection
  columns : List DefinitiveColumn
deriving DecidableEq

/-- The rows of a group that a narrow pass keeps. -/
def narrowSelection (query : NarrowQuery) (group : List Cells) : Selection :=
  (group.zip query.base).map fun r =>
    r.2 && query.time.contains r.1.timestampNs && query.columns.all (·.satisfied r.1)

/-- The outcome of a narrow pass, `none` for a group without any row left. -/
def narrowOutcome (query : NarrowQuery) (group : List Cells) : Option Selection :=
  let selection := narrowSelection query group
  if selection.any id then some selection else none

/-! ### The cache -/

/-- A row as the full projection decodes it, without the fields of the line. -/
def Cells.wide (cells : Cells) : Cells := { cells with parsed := [] }

/-- Decoded rows by row group and selection, and narrow passes with their outcomes. -/
structure GroupCache where
  enabled : Bool
  groups : List ((ℕ × Selection) × List Cells)
  narrows : List (NarrowQuery × Option Selection)

namespace GroupCache

def get (cache : GroupCache) (rowGroup : ℕ) (selection : Selection) : Option (List Cells) :=
  cache.groups.lookup (rowGroup, selection)

def getNarrow (cache : GroupCache) (query : NarrowQuery) : Option (Option Selection) :=
  cache.narrows.lookup query

/-- What is left after the least recently used entries, or the one just inserted, were given
back. -/
abbrev Eviction := {evict : GroupCache → GroupCache //
  ∀ cache, (evict cache).enabled = cache.enabled ∧ (evict cache).groups ⊆ cache.groups ∧
    (evict cache).narrows ⊆ cache.narrows}

def insert (evict : Eviction) (cache : GroupCache) (rowGroup : ℕ) (selection : Selection)
    (rows : List Cells) : GroupCache :=
  if !cache.enabled || (cache.get rowGroup selection).isSome then cache
  else evict.1 { cache with groups := ((rowGroup, selection), rows) :: cache.groups }

def insertNarrow (evict : Eviction) (cache : GroupCache) (query : NarrowQuery)
    (outcome : Option Selection) : GroupCache :=
  if !cache.enabled || (cache.getNarrow query).isSome then cache
  else evict.1 { cache with narrows := (query, outcome) :: cache.narrows }

/-- The cache answers as decoding the part would. -/
structure Sound (cache : GroupCache) (part : LogPart) : Prop where
  groups : ∀ rowGroup selection rows, ((rowGroup, selection), rows) ∈ cache.groups →
    ∀ group, part.data[rowGroup]? = some group → rows = selectRows selection (group.map Cells.wide)
  narrows : ∀ query outcome, (query, outcome) ∈ cache.narrows →
    ∀ group, part.data[query.rowGroup]? = some group → outcome = narrowOutcome query group

theorem mem_of_lookup {α β : Type*} [BEq α] [LawfulBEq α] {entries : List (α × β)} {key : α}
    {value : β} (h : entries.lookup key = some value) : (key, value) ∈ entries := by
  obtain ⟨before, after, rfl, -⟩ := List.lookup_eq_some_iff.1 h
  simp

variable {cache : GroupCache} {part : LogPart} {evict : Eviction}

/-- A cache with nothing in it. -/
theorem sound_empty (enabled : Bool) : Sound ⟨enabled, [], []⟩ part :=
  ⟨fun _ _ _ h => by (cases h), fun _ _ h => by (cases h)⟩

theorem Sound.evicted (h : cache.Sound part) : (evict.1 cache).Sound part :=
  ⟨fun rg sel rows hm => h.groups rg sel rows ((evict.2 cache).2.1 hm),
    fun query outcome hm => h.narrows query outcome ((evict.2 cache).2.2 hm)⟩

theorem Sound.get (h : cache.Sound part) {rowGroup : ℕ} {selection : Selection}
    {rows group : List Cells} (hget : cache.get rowGroup selection = some rows)
    (hgroup : part.data[rowGroup]? = some group) :
    rows = selectRows selection (group.map Cells.wide) :=
  h.groups _ _ _ (mem_of_lookup hget) group hgroup

theorem Sound.getNarrow (h : cache.Sound part) {query : NarrowQuery} {outcome : Option Selection}
    {group : List Cells} (hget : cache.getNarrow query = some outcome)
    (hgroup : part.data[query.rowGroup]? = some group) : outcome = narrowOutcome query group :=
  h.narrows _ _ (mem_of_lookup hget) group hgroup

/-- A completed decode is sound. -/
theorem Sound.insert (h : cache.Sound part) {rowGroup : ℕ} {selection : Selection}
    {rows group : List Cells} (hgroup : part.data[rowGroup]? = some group)
    (hrows : rows = selectRows selection (group.map Cells.wide)) :
    (cache.insert evict rowGroup selection rows).Sound part := by
  rw [GroupCache.insert]
  split
  · exact h
  · refine Sound.evicted ⟨fun rg sel rs hm g hg => ?_, h.narrows⟩
    rcases List.mem_cons.1 hm with heq | hm
    · obtain ⟨⟨rfl, rfl⟩, rfl⟩ : (rg = rowGroup ∧ sel = selection) ∧ rs = rows := by
        simpa using heq
      rw [hgroup] at hg
      rw [hrows, Option.some.inj hg]
    · exact h.groups rg sel rs hm g hg

theorem Sound.insertNarrow (h : cache.Sound part) {query : NarrowQuery}
    {outcome : Option Selection} {group : List Cells}
    (hgroup : part.data[query.rowGroup]? = some group) (houtcome : outcome = narrowOutcome query group) :
    (cache.insertNarrow evict query outcome).Sound part := by
  rw [GroupCache.insertNarrow]
  split
  · exact h
  · refine Sound.evicted ⟨h.groups, fun q o hm g hg => ?_⟩
    rcases List.mem_cons.1 hm with heq | hm
    · obtain ⟨rfl, rfl⟩ : q = query ∧ o = outcome := by simpa using heq
      rw [hgroup] at hg
      rw [houtcome, Option.some.inj hg]
    · exact h.narrows q o hm g hg

end GroupCache

end Part

end Obsy
