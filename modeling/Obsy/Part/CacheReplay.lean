import Obsy.Part.CachedScan
import Obsy.Runs.Cut

/-!
# What the cache of decoded rows serves

A scan offers the rows that it selects in the file, and where a limit or its cancellation ends it, the
first of them, whatever it is served out of the cache.

* `Batched.Sound`: the cache holds what decoding would give.
* `Batched.narrow_spec`, `Batched.serve_spec`: the rows of a row group, with any sound cache.
* `Batched.scanInto_eq`: a scan against one that decodes every row.
-/

namespace Obsy

namespace Part

namespace Batched

open Logql (ExactFieldPredicate)
open Runs (Step steps CutShort Ending passing atOnce)

/-! ### Layouts -/

theorem leavesOf_first (metadataKeys parsedKeys : ColumnKeys) (columns : ColumnSet) :
    ∃ rest, ScanProjection.leavesOf metadataKeys parsedKeys columns = 0 :: 1 :: rest := by
  have hmem : ∀ leaf, leaf = 0 ∨ leaf = 1 →
      leaf ∈ ScanProjection.leavesOf metadataKeys parsedKeys columns := by
    intro leaf hleaf
    rw [ScanProjection.mem_leavesOf]
    simp only [List.mem_append]
    exact .inl (.inl (.inl (.inl (by simpa using hleaf))))
  have hsorted : (ScanProjection.leavesOf metadataKeys parsedKeys columns).Pairwise (· < ·) := by
    have hle : (ScanProjection.leavesOf metadataKeys parsedKeys columns).Pairwise (· ≤ ·) :=
      (List.pairwise_mergeSort' (fun a b : ℕ => a ≤ b) _).sublist (List.dedup_sublist _)
    exact (hle.and (List.nodup_dedup _)).imp fun h => lt_of_le_of_ne h.1 h.2
  have hzero := hmem 0 (.inl rfl)
  have hone := hmem 1 (.inr rfl)
  rcases hlist : ScanProjection.leavesOf metadataKeys parsedKeys columns with _ | ⟨a, l⟩
  · rw [hlist] at hzero
    cases hzero
  · rw [hlist] at hsorted hzero hone
    obtain ⟨hbelow, hrest⟩ := List.pairwise_cons.1 hsorted
    have ha : a = 0 := by
      rcases List.mem_cons.1 hzero with h | h
      · exact h.symm
      · exact absurd (hbelow 0 h) (Nat.not_lt_zero _)
    subst ha
    have hin : 1 ∈ l := (List.mem_cons.1 hone).resolve_left Nat.one_ne_zero
    rcases l with _ | ⟨b, l⟩
    · cases hin
    · have hb : b = 1 := by
        have hpos := hbelow b List.mem_cons_self
        rcases List.mem_cons.1 hin with h | h
        · exact h.symm
        · have := (List.pairwise_cons.1 hrest).1 1 h
          omega
      exact ⟨l, by rw [hb]⟩

theorem cacheProjection_first (opened : OpenPart) :
    ∃ rest, opened.cacheProjection.leaves = 0 :: 1 :: rest := leavesOf_first _ _ _

theorem projectionOf_first (columns : ColumnSet) (opened : OpenPart) :
    ∃ rest, (projectionOf columns opened).leaves = 0 :: 1 :: rest := leavesOf_first _ _ _

theorem tenantAt_projectRow {leaves : List ℕ} (h : ∃ rest, leaves = 0 :: 1 :: rest) (cells : Cells) :
    tenantAt (projectRow leaves cells) = cells.tenant := by
  obtain ⟨rest, rfl⟩ := h
  rfl

theorem timestampAt_projectRow {leaves : List ℕ} (h : ∃ rest, leaves = 0 :: 1 :: rest)
    (cells : Cells) : timestampAt (projectRow leaves cells) = cells.timestampNs := by
  obtain ⟨rest, rfl⟩ := h
  rfl

/-- The same column is read at both places. -/
theorem textAt_rankIn {self layout : ScanProjection} {position place : ℕ}
    (h : rankIn self layout position = some place) (cells : Cells) :
    textAt (projectRow layout.leaves cells) place = textAt (projectRow self.leaves cells) position := by
  obtain ⟨leaf, hleaf, hplace⟩ := Option.bind_eq_some_iff.1 h
  have hget : layout.leaves[place]? = some leaf := by
    rw [List.idxOf?, List.findIdx?_eq_some_iff_getElem] at hplace
    obtain ⟨hlt, heq, -⟩ := hplace
    rw [List.getElem?_eq_getElem hlt]
    exact congrArg some (beq_iff_eq.1 heq)
  rw [textAt, textAt, projectRow, projectRow, List.getElem?_map, List.getElem?_map, hget, hleaf]

theorem map_textAt_rankIn {self layout : ScanProjection} {places places' : List (ℕ × ℕ)}
    (h : places.mapM (fun k => (rankIn self layout k.2).map fun place => (k.1, place)) = some places')
    (cells : Cells) : (places'.map fun k => (k.1, textAt (projectRow layout.leaves cells) k.2)) =
      places.map fun k => (k.1, textAt (projectRow self.leaves cells) k.2) := by
  induction places generalizing places' with
  | nil =>
    obtain rfl := Option.some.inj h
    rfl
  | cons k places ih =>
    rw [List.mapM_cons] at h
    obtain ⟨k', hk, h⟩ := Option.bind_eq_some_iff.1 h
    obtain ⟨rest, hrest, h⟩ := Option.bind_eq_some_iff.1 h
    obtain rfl := Option.some.inj h
    obtain ⟨place, hplace, rfl⟩ := Option.map_eq_some_iff.1 hk
    rw [List.map_cons, List.map_cons, ih hrest, textAt_rankIn hplace]

theorem map_textAt_optionalRankIn {self layout : ScanProjection} {position place : Option ℕ}
    (h : optionalRankIn self layout position = some place) (cells : Cells) :
    (place.map fun i => textAt (projectRow layout.leaves cells) i) =
      position.map fun i => textAt (projectRow self.leaves cells) i := by
  cases position with
  | none =>
    obtain rfl := Option.some.inj h
    rfl
  | some position =>
    obtain ⟨r, hr, rfl⟩ := Option.map_eq_some_iff.1 h
    rw [Option.map_some, Option.map_some, textAt_rankIn hr]

section

variable {P : Platform} {σ : Type*} {sink : RowSink σ} {request : ScanRequest} {opened : OpenPart}

/-- What a scan offers of a row depends on nothing but what it reads at its places. -/
theorem offerFields_view {self layout view : ScanProjection} (hview : viewIn self layout = some view)
    (hself : ∃ rest, self.leaves = 0 :: 1 :: rest) (hlayout : ∃ rest, layout.leaves = 0 :: 1 :: rest)
    (s : σ) (cells : Cells) :
    offerFields P sink request opened view s (projectRow layout.leaves cells) =
      offerFields P sink request opened self s (projectRow self.leaves cells) := by
  rw [viewIn] at hview
  obtain ⟨msg, hmsg, hview⟩ := Option.bind_eq_some_iff.1 hview
  obtain ⟨metadata, hmetadata, hview⟩ := Option.bind_eq_some_iff.1 hview
  obtain ⟨parsed, hparsed, hview⟩ := Option.bind_eq_some_iff.1 hview
  obtain ⟨residual, hresidual, hview⟩ := Option.bind_eq_some_iff.1 hview
  obtain rfl := Option.some.inj hview
  have hline : lineAt ⟨layout.leaves, msg, metadata, parsed, residual⟩
      (projectRow layout.leaves cells) = lineAt self (projectRow self.leaves cells) := by
    have h := congrArg (Option.map fun text => text.getD "") (map_textAt_optionalRankIn hmsg cells)
    rwa [Option.map_map, Option.map_map] at h
  have hpairs : ScanProjection.metadataOf P.text opened.metadataKeys
      ⟨layout.leaves, msg, metadata, parsed, residual⟩ (projectRow layout.leaves cells) =
      self.metadataOf P.text opened.metadataKeys (projectRow self.leaves cells) := by
    have hres : (residual.bind (textAt (projectRow layout.leaves cells))) =
        self.residual.bind (textAt (projectRow self.leaves cells)) := by
      have h := map_textAt_optionalRankIn hresidual cells
      cases residual with
      | none =>
        cases hplace : self.residual with
        | none => rfl
        | some position =>
          rw [hplace] at h
          cases h
      | some place =>
        cases hplace : self.residual with
        | none =>
          rw [hplace] at h
          cases h
        | some position =>
          rw [hplace] at h
          exact Option.some.inj h
    have hcolumns := congrArg (List.map fun k : ℕ × Option String =>
      (opened.metadataKeys.keys.getD k.1 "", k.2)) (map_textAt_rankIn hmetadata cells)
    rw [List.map_map, List.map_map] at hcolumns
    rw [ScanProjection.metadataOf, ScanProjection.metadataOf, ScanProjection.residualPairs,
      ScanProjection.residualPairs]
    dsimp only
    rw [hres]
    congr 1
    funext pairs
    exact congrArg (fun columns => rebuild columns pairs) hcolumns
  have hextracted : extractedAt opened ⟨layout.leaves, msg, metadata, parsed, residual⟩
      (projectRow layout.leaves cells) = extractedAt opened self (projectRow self.leaves cells) := by
    have hfields := congrArg (List.filterMap fun k : ℕ × Option String =>
      k.2.map fun value => (opened.parsedKeys.keys.getD k.1 "", value)) (map_textAt_rankIn hparsed cells)
    rw [List.filterMap_map, List.filterMap_map] at hfields
    rw [extractedAt, extractedAt]
    exact congrArg (fun extracted : Pairs => if extracted.isEmpty then none else some extracted) hfields
  rw [offerFields, offerFields, hline, hpairs, hextracted, timestampAt_projectRow hself,
    timestampAt_projectRow hlayout]

end

/-! ### The cache -/

/-- What a pass leaves of some rows: nothing, or something that stands for them. -/
def Narrowed {β : Type*} (bits : Selection) (rowsOf : β → Selection) (outcome : Option β) : Prop :=
  if bits.any id then ∃ kept, outcome = some kept ∧ rowsOf kept = bits else outcome = none

theorem Narrowed.map {β γ : Type*} {bits : Selection} {rowsOf : β → Selection}
    {rowsOf' : γ → Selection} {outcome : Option β} (h : Narrowed bits rowsOf outcome) {f : β → γ}
    (hf : ∀ kept, rowsOf kept = bits → rowsOf' (f kept) = bits) :
    Narrowed bits rowsOf' (outcome.map f) := by
  rw [Narrowed] at h ⊢
  split at h
  case isTrue hany =>
    obtain ⟨kept, rfl, hkept⟩ := h
    rw [if_pos hany]
    exact ⟨f kept, rfl, hf kept hkept⟩
  case isFalse hnone =>
    subst h
    rw [if_neg hnone]
    rfl

/-- Whether a narrow pass keeps a row. -/
def keepsCells (range : QueryTimeRange) (defs : List DefinitiveColumn) (cells : Cells) : Bool :=
  range.contains cells.timestampNs && defs.all (·.satisfied cells)

section

variable (opened : OpenPart)

def cachedRows (rowGroup : ℕ) : Batch :=
  (opened.group rowGroup).map (projectRow opened.cacheProjection.leaves)

def keyRows (rowGroup : ℕ) (key : SelectionKey) : Selection :=
  padded (opened.group rowGroup).length (SelectionKey.bits key)

/-- The cache holds what decoding would give. -/
structure Sound (cache : GroupCache) : Prop where
  groups : ∀ entry ∈ cache.groups,
    (SelectionKey.bits entry.1.2).length ≤ (opened.group entry.1.1).length ∧
      entry.2.flatten = selectRows (SelectionKey.bits entry.1.2) (cachedRows opened entry.1.1)
  narrows : ∀ entry ∈ cache.narrows,
    Narrowed (narrowBits (keepsCells entry.1.time entry.1.defs) (keyRows opened entry.1.rgu entry.1.base)
      (opened.group entry.1.rgu)) (keyRows opened entry.1.rgu) entry.2

end

variable {opened : OpenPart} {cache : GroupCache}

theorem OpenPart.length_group_lt (opened : OpenPart) (rowGroup : ℕ) :
    (opened.group rowGroup).length < 2 ^ 32 := by
  rw [OpenPart.group, List.getD_eq_getElem?_getD]
  cases hgroup : opened.part.data[rowGroup]? with
  | none => exact Nat.two_pow_pos 32
  | some group => exact opened.small group (List.mem_of_getElem? hgroup)

theorem OpenPart.schema_group {rowGroup : ℕ} {cells : Cells} (h : cells ∈ opened.group rowGroup) :
    cells.metadata.length = opened.part.metadataKeys.length := by
  rw [OpenPart.group, List.getD_eq_getElem?_getD] at h
  cases hgroup : opened.part.data[rowGroup]? with
  | none =>
    rw [hgroup] at h
    cases h
  | some group =>
    rw [hgroup] at h
    exact opened.schema group (List.mem_of_getElem? hgroup) cells h

theorem sound_empty (enabled : Bool) : Sound opened ⟨enabled, [], []⟩ :=
  ⟨fun _ h => (by cases h), fun _ h => (by cases h)⟩

theorem Sound.within {cache' : GroupCache} (h : Sound opened cache) (hwithin : cache'.Within cache) :
    Sound opened cache' :=
  ⟨fun entry he => h.groups entry (hwithin.groups he),
    fun entry he => h.narrows entry (hwithin.narrows he)⟩

theorem Sound.get (h : Sound opened cache) {rowGroup : ℕ} {key : SelectionKey} {batches : List Batch}
    (hget : cache.get rowGroup key = some batches) :
    (SelectionKey.bits key).length ≤ (opened.group rowGroup).length ∧
      batches.flatten = selectRows (SelectionKey.bits key) (cachedRows opened rowGroup) :=
  h.groups ((rowGroup, key), batches) (Part.GroupCache.mem_of_lookup hget)

theorem Sound.insert (h : Sound opened cache) (evict : GroupCache.Eviction) {rowGroup : ℕ}
    {key : SelectionKey} {batches : List Batch}
    (hkey : (SelectionKey.bits key).length ≤ (opened.group rowGroup).length)
    (hrows : batches.flatten = selectRows (SelectionKey.bits key) (cachedRows opened rowGroup)) :
    Sound opened (cache.insert evict rowGroup key batches) := by
  rw [GroupCache.insert]
  split
  · exact h
  · have hgrown : Sound opened
        { cache with groups := ((rowGroup, key), batches) :: cache.groups } := by
      refine ⟨fun entry he => ?_, h.narrows⟩
      rcases List.mem_cons.1 he with rfl | he
      · exact ⟨hkey, hrows⟩
      · exact h.groups entry he
    exact hgrown.within (evict.2 _)

theorem Sound.insertNarrow (h : Sound opened cache) (evict : GroupCache.Eviction) {query : NarrowQuery}
    {outcome : Option SelectionKey}
    (houtcome : Narrowed (narrowBits (keepsCells query.time query.defs)
      (keyRows opened query.rgu query.base) (opened.group query.rgu)) (keyRows opened query.rgu) outcome) :
    Sound opened (cache.insertNarrow evict query outcome) := by
  rw [GroupCache.insertNarrow]
  split
  · exact h
  · have hgrown : Sound opened { cache with narrows := (query, outcome) :: cache.narrows } := by
      refine ⟨h.groups, fun entry he => ?_⟩
      rcases List.mem_cons.1 he with rfl | he
      · exact houtcome
      · exact h.narrows entry he
    exact hgrown.within (evict.2 _)

/-! ### Narrow passes -/

/-- A predicate has a column, and its metadata column is one of the part. -/
def InSchema (opened : OpenPart) (column : DefinitiveColumn) : Prop :=
  (column.pfKey = none → column.smKey.isSome) ∧
    ∀ key, column.smKey = some key → key < opened.part.metadataKeys.length

theorem inSchema_definitiveColumns {predicates : List ExactFieldPredicate}
    {defs : List DefinitiveColumn}
    (h : definitiveColumns opened.part.metadataKeys opened.part.parsedKeys predicates = some defs) :
    ∀ column ∈ defs, InSchema opened column := by
  have hkey : ∀ {name : String} {key : ℕ}, keyIndex opened.part.metadataKeys name = some key →
      key < opened.part.metadataKeys.length := by
    intro name key hkey
    exact (List.findIdx?_eq_some_iff_getElem.1 hkey).1
  induction predicates generalizing defs with
  | nil =>
    obtain rfl := Option.some.inj h
    intro column hcolumn
    cases hcolumn
  | cons p predicates ih =>
    have hcons : ∀ {first : DefinitiveColumn} {rest : Option (List DefinitiveColumn)},
        (∀ {defs}, rest = some defs → ∀ column ∈ defs, InSchema opened column) →
        InSchema opened first → rest.map (first :: ·) = some defs →
        ∀ column ∈ defs, InSchema opened column := by
      intro first rest hrest hfirst hdefs column hcolumn
      obtain ⟨later, hlater, rfl⟩ := Option.map_eq_some_iff.1 hdefs
      rcases List.mem_cons.1 hcolumn with rfl | hcolumn
      · exact hfirst
      · exact hrest hlater column hcolumn
    simp only [definitiveColumns] at h
    split at h
    · exact ih h
    split at h
    · split at h
      · next key hsm =>
        refine hcons ih ⟨fun _ => rfl, fun key' heq => ?_⟩ h
        obtain rfl := Option.some.inj heq
        exact hkey hsm
      · split at h
        · cases h
        · exact ih h
    split at h
    · exact ih h
    split at h
    · exact ih h
    split at h
    · cases h
    · next hsome =>
      refine hcons ih ⟨fun hpf => ?_, fun key' heq => hkey heq⟩ h
      have hnone : (keyIndex opened.part.parsedKeys p.name).isNone = true := by
        rw [Option.isNone_iff_eq_none]
        exact hpf
      rw [hnone, Bool.and_true, Bool.not_eq_true] at hsome
      rwa [← Option.not_isSome, Bool.not_eq_false'] at hsome

/-- A metadata column has a place in a cached row, and its value there. -/
theorem find?_cacheProjection {key : ℕ} (hkey : key < opened.part.metadataKeys.length) :
    ∃ place, opened.cacheProjection.metadata.find? (fun k => k.1 == key) = some (key, place) ∧
      ∀ cells : Cells, cells.metadata.length = opened.part.metadataKeys.length →
        textAt (projectRow opened.cacheProjection.leaves cells) place =
          cellAt cells.metadata (some key) := by
  have hin : (key, 3 + key) ∈ ScanProjection.metadataLeaves opened.metadataKeys ColumnSet.all :=
    List.mem_map.2 ⟨key, List.mem_range.2 hkey, rfl⟩
  have hleaf := @ScanProjection.metadata_mem_leavesOf opened.metadataKeys opened.parsedKeys
    ColumnSet.all _ hin
  refine ⟨opened.cacheProjection.leaves.idxOf (3 + key), ?_, fun cells hcells => ?_⟩
  · have hfind : (List.range opened.part.metadataKeys.length).find? (fun k => k == key) = some key := by
      refine List.find?_range_eq_some.2 ⟨beq_self_eq_true key, List.mem_range.2 hkey, fun j hj => ?_⟩
      rw [beq_eq_false_iff_ne.2 hj.ne]
      rfl
    have hmetadata : opened.cacheProjection.metadata =
        (List.range opened.part.metadataKeys.length).map fun key =>
          (key, opened.cacheProjection.leaves.idxOf (3 + key)) := by
      rw [OpenPart.cacheProjection, ScanProjection.build, ScanProjection.metadataLeaves]
      exact List.map_map
    rw [hmetadata, List.find?_map]
    exact congrArg (Option.map _) hfind
  · have hlt : key < cells.metadata.length := hcells ▸ hkey
    have hvalue := List.getElem?_eq_getElem hlt
    rw [cellAt, Option.bind_some, hvalue]
    exact textAt_projectRow hleaf (Cells.leaves_metadata hvalue)

/-- The columns of a cached row answer the predicates as those of the file do. -/
theorem smPositions_spec {defs : List DefinitiveColumn} (hdefs : ∀ column ∈ defs, InSchema opened column)
    (hpf : (defs.all fun column => column.pfKey.isNone) = true) :
    ∃ positions, smPositions opened defs = .ok positions ∧
      ∀ cells : Cells, cells.metadata.length = opened.part.metadataKeys.length →
        (positions.all fun k =>
          textAt (projectRow opened.cacheProjection.leaves cells) k.1 == some k.2) =
            defs.all (·.satisfied cells) := by
  induction defs with
  | nil => exact ⟨[], rfl, fun _ _ => rfl⟩
  | cons column defs ih =>
    rw [List.all_cons, Bool.and_eq_true] at hpf
    have hnone : column.pfKey = none := Option.isNone_iff_eq_none.1 hpf.1
    obtain ⟨hsome, hbound⟩ := hdefs column List.mem_cons_self
    obtain ⟨key, hkey⟩ := Option.isSome_iff_exists.1 (hsome hnone)
    obtain ⟨place, hfind, htext⟩ := find?_cacheProjection (hbound key hkey)
    obtain ⟨positions, hpositions, hall⟩ := ih (fun c hc => hdefs c (List.mem_cons_of_mem _ hc)) hpf.2
    refine ⟨(place, column.value) :: positions, ?_, fun cells hcells => ?_⟩
    · rw [smPositions, List.mapM_cons, hkey, Option.bind_some, hfind, ← smPositions, hpositions]
      rfl
    · have hcell : (textAt (projectRow opened.cacheProjection.leaves cells) place ==
          some column.value) = column.satisfied cells := by
        rw [htext cells hcells, DefinitiveColumn.satisfied, hkey, hnone]
        cases column.extracted <;> simp [cellAt]
      rw [List.all_cons, List.all_cons, hall cells hcells, ← hcell]

theorem rowsKept_map {α β : Type*} {keep : α → Bool} {keep' : β → Bool} {f : α → β}
    {indices : List ℕ} {rows : List α} (h : ∀ row ∈ rows, keep' (f row) = keep row) :
    rowsKept keep' indices (rows.map f) = rowsKept keep indices rows := by
  rw [rowsKept, rowsKept, List.zip_map_right, List.filter_map, List.map_map]
  congr 1
  refine List.filter_congr fun r hr => ?_
  exact h r.2 (List.of_mem_zip hr).2

variable {σ : Type*} {request : ScanRequest} {env : Surroundings σ} {defs : List DefinitiveColumn}
  {rowGroup : ℕ} {base : Option RowSelection}

/-- The rows that a narrow pass is to keep of a row group. -/
def narrowRows (request : ScanRequest) (opened : OpenPart) (defs : List DefinitiveColumn) (rowGroup : ℕ)
    (base : Option RowSelection) : Selection :=
  narrowBits (keepsCells request.range defs)
    (padded (opened.group rowGroup).length (selectionBits base (opened.group rowGroup).length))
    (opened.group rowGroup)

theorem narrowed_keptSelection (hbase : ∀ runs, base = some runs →
    runs.bits.length ≤ (opened.group rowGroup).length) :
    Narrowed (narrowRows request opened defs rowGroup base) RowSelection.bits
      (keptSelection (rowsKept (keepsCells request.range defs)
        (selectedIndices base (opened.group rowGroup).length)
        (selectRows (selectionBits base (opened.group rowGroup).length) (opened.group rowGroup)))
        (opened.group rowGroup).length) :=
  keptSelection_rowsKept hbase

/-- Over the file and over the cached row group a narrow pass keeps the same rows. -/
theorem narrowPass_spec (hdefs : ∀ column ∈ defs, InSchema opened column)
    {whole : Option (List Batch)} (hwhole : ∀ entry, whole = some entry →
      entry.flatten = cachedRows opened rowGroup) :
    ∃ stats, narrowPass request opened env defs rowGroup base whole =
      .ok (keptSelection (rowsKept (keepsCells request.range defs)
        (selectedIndices base (opened.group rowGroup).length)
        (selectRows (selectionBits base (opened.group rowGroup).length) (opened.group rowGroup)))
        (opened.group rowGroup).length, stats) := by
  cases whole with
  | none => exact ⟨_, rfl⟩
  | some entry =>
    rw [narrowPass]
    split
    case isFalse => exact ⟨_, rfl⟩
    case isTrue hpf =>
      obtain ⟨positions, hpositions, hall⟩ := smPositions_spec hdefs hpf
      have hentry := hwhole entry rfl
      have htotal : entry.flatten.length = (opened.group rowGroup).length := by
        rw [hentry, cachedRows, List.length_map]
      have hkept : rowsKept (fun row => request.range.contains (timestampAt row) &&
          positions.all fun k => textAt row k.1 == some k.2)
          (selectedIndices base (opened.group rowGroup).length)
          ((selectRows (selectionBits base (opened.group rowGroup).length)
            (opened.group rowGroup)).map (projectRow opened.cacheProjection.leaves)) =
          rowsKept (keepsCells request.range defs)
            (selectedIndices base (opened.group rowGroup).length)
            (selectRows (selectionBits base (opened.group rowGroup).length)
              (opened.group rowGroup)) := by
        refine rowsKept_map fun cells hcells => ?_
        have hin := (selectRows_sublist _ _).mem hcells
        rw [hall cells (OpenPart.schema_group hin), keepsCells,
          timestampAt_projectRow (cacheProjection_first opened)]
      rw [selectRowsInCachedGroup, hpositions]
      dsimp only [bind, Except.bind]
      rw [flatten_sliceCachedGroup, htotal, hentry, cachedRows, ← map_selectRows, hkept]
      exact ⟨_, rfl⟩

/-- **A narrow pass** keeps the rows of the file that it is to keep, wherever it takes them from. -/
theorem narrow_spec (hcache : Sound opened cache) (hdefs : ∀ column ∈ defs, InSchema opened column)
    (hbase : ∀ runs, base = some runs → runs.bits.length ≤ (opened.group rowGroup).length)
    {whole : Option (List Batch)} (hwhole : ∀ entry, whole = some entry →
      entry.flatten = cachedRows opened rowGroup) :
    ∃ outcome stats cache', narrow request opened env defs rowGroup base whole cache
        = .ok (outcome, stats, cache') ∧
      Narrowed (narrowRows request opened defs rowGroup base) RowSelection.bits outcome ∧
      Sound opened cache' := by
  have hsmall := opened.length_group_lt rowGroup
  have hkeyed : keyRows opened rowGroup (selectionKey base (opened.group rowGroup).length) =
      padded (opened.group rowGroup).length (selectionBits base (opened.group rowGroup).length) :=
    padded_selectionKey hsmall hbase
  have hnarrowed := @narrowed_keptSelection opened request defs rowGroup base hbase
  rw [narrow]
  split
  case h_1 outcome hremembered =>
    refine ⟨_, _, _, rfl, ?_, hcache⟩
    split at hremembered
    case isFalse => cases hremembered
    case isTrue =>
      have hentry := hcache.narrows _ (Part.GroupCache.mem_of_lookup hremembered)
      dsimp only at hentry
      rw [hkeyed] at hentry
      refine hentry.map fun key hkey => ?_
      rw [bits_selectionOf]
      exact hkey
  case h_2 =>
    obtain ⟨stats, hpass⟩ := @narrowPass_spec opened σ request env defs rowGroup base hdefs whole hwhole
    rw [hpass]
    refine ⟨_, _, _, rfl, hnarrowed, hcache.insertNarrow _ ?_⟩
    dsimp only
    rw [hkeyed]
    refine hnarrowed.map fun selection hselection => ?_
    have hlen : selection.bits.length = (opened.group rowGroup).length := by
      rw [hselection, narrowRows, length_narrowBits (length_padded ?_)]
      cases base with
      | none => exact List.length_replicate.le
      | some runs => exact hbase runs rfl
    rw [keyRows, padded_selectionKey hsmall fun runs hruns => by
      obtain rfl := Option.some.inj hruns
      exact hlen.le]
    exact (padded_of_length hlen).trans hselection

/-! ### Rows of a row group -/

variable {P : Platform} {sink : RowSink σ} {columns : ColumnSet} {limits : ScanLimits}

/-- What becomes of a row that a scan without limits has read. -/
def offerRow (P : Platform) (sink : RowSink σ) (request : ScanRequest) (opened : OpenPart)
    (projection : ScanProjection) (rowGroup : ℕ) (s : σ) (row : List Leaf) : Except String σ :=
  if tenantAt row ≠ request.tenant then .error (tenantMessage request opened rowGroup)
  else if beyondFrontier (sink.frontierNs s) request.forward (timestampAt row) then .ok s
  else offerFields P sink request opened projection s row

/-- What becomes of a row of the file. -/
def offerCells (P : Platform) (sink : RowSink σ) (request : ScanRequest) (columns : ColumnSet)
    (opened : OpenPart) (rowGroup : ℕ) (s : σ) (cells : Cells) : Except String σ :=
  offerRow P sink request opened (projectionOf columns opened) rowGroup s
    (projectRow (projectionOf columns opened).leaves cells)

/-- Some rows are offered by their columns in the batches as they are by those of the scan. -/
structure Offers (P : Platform) (sink : RowSink σ) (request : ScanRequest) (columns : ColumnSet)
    (opened : OpenPart) (rowGroup : ℕ) (rows : List Cells) (served : Served) : Prop where
  rows : ∃ leaves, (served.batches.map Prod.fst).flatten = rows.map (projectRow leaves) ∧
    ∀ s cells, offerRow P sink request opened served.projection rowGroup s (projectRow leaves cells) =
      offerCells P sink request columns opened rowGroup s cells

/-- Rows of the cache are offered through a view as the rows of the file are. -/
theorem offerRow_view {view : ScanProjection}
    (hview : viewIn (projectionOf columns opened) opened.cacheProjection = some view) (s : σ)
    (cells : Cells) :
    offerRow P sink request opened view rowGroup s
        (projectRow opened.cacheProjection.leaves cells) =
      offerCells P sink request columns opened rowGroup s cells := by
  rw [offerCells, offerRow, offerRow, tenantAt_projectRow (cacheProjection_first opened),
    tenantAt_projectRow (projectionOf_first columns opened),
    timestampAt_projectRow (cacheProjection_first opened),
    timestampAt_projectRow (projectionOf_first columns opened),
    offerFields_view hview (projectionOf_first columns opened) (cacheProjection_first opened)]

def selectedOf (opened : OpenPart) (rowGroup : ℕ) (selection : Option RowSelection) : List Cells :=
  selectRows (selectionBits selection (opened.group rowGroup).length) (opened.group rowGroup)

theorem map_selectedOf (opened : OpenPart) (rowGroup : ℕ) (selection : Option RowSelection)
    (leaves : List ℕ) : (selectedOf opened rowGroup selection).map (projectRow leaves) =
      selectRows (selectionBits selection (opened.group rowGroup).length)
        ((opened.group rowGroup).map (projectRow leaves)) :=
  map_selectRows _ _ _

/-- A decode has the rows of the selection, and keeps them as such. -/
theorem decode_spec (hcache : Sound opened cache) {view : Option ScanProjection}
    {selection : Option RowSelection} (hselection : ∀ runs, selection = some runs →
      runs.bits.length ≤ (opened.group rowGroup).length) (state : σ × Progress) :
    let r := decode request columns opened limits env rowGroup view selection state cache
    Offers P sink request columns opened rowGroup (selectedOf opened rowGroup selection) r.1 ∧
      Sound opened r.2 := by
  intro r
  have hflat := env.flatten_decoded limits.rows state.1 state.2
    ((selectedOf opened rowGroup selection).map (projectRow (projectionOf columns opened).leaves))
  refine ⟨⟨_, hflat, fun _ _ => rfl⟩, ?_⟩
  change Sound opened (if _ then _ else _)
  split
  case isFalse => exact hcache
  case isTrue hfill =>
    simp only [Bool.and_eq_true, beq_iff_eq] at hfill
    have hsmall := opened.length_group_lt rowGroup
    refine hcache.insert _ (length_bits_selectionKey_le hsmall hselection) ?_
    have hkeyed := @padded_selectionKey selection (opened.group rowGroup).length hsmall hselection
    rw [← selectRows_padded (opened.group rowGroup).length (SelectionKey.bits _), hkeyed,
      selectRows_padded]
    refine hflat.trans ?_
    rw [map_selectedOf, hfill.1.2]
    rfl

/-- A subset of an entry has the rows of the narrowed selection. -/
theorem subsetOf_some (hcache : Sound opened cache) {selection : Option RowSelection}
    {cut : List Batch × List Batch}
    (h : subsetOf cache defs rowGroup (opened.group rowGroup).length base selection = some cut) :
    cut.2.flatten = selectRows (selectionBits selection (opened.group rowGroup).length)
      (cachedRows opened rowGroup) := by
  rw [subsetOf] at h
  split at h
  case isTrue => cases h
  case isFalse =>
    obtain ⟨entry, hentry, h⟩ := Option.bind_eq_some_iff.1 h
    obtain ⟨narrowed, hnarrowed, h⟩ := Option.bind_eq_some_iff.1 h
    obtain ⟨slices, hslices, h⟩ := Option.bind_eq_some_iff.1 h
    obtain rfl := Option.some.inj h
    subst hnarrowed
    obtain ⟨hlen, hrows⟩ := hcache.get hentry
    refine flatten_sliceCachedSubset hslices hrows ?_
    rw [cachedRows, List.length_map]
    exact hlen

/-- **What serves a selection** has its rows, and leaves the cache sound. -/
theorem serve_spec (hcache : Sound opened cache) {view : Option ScanProjection}
    (hview : ∀ layout, view = some layout →
      viewIn (projectionOf columns opened) opened.cacheProjection = some layout)
    {whole : Option (List Batch)} (hwhole : ∀ entry, whole = some entry →
      entry.flatten = cachedRows opened rowGroup)
    {selection : Option RowSelection} (hselection : ∀ runs, selection = some runs →
      runs.bits.length ≤ (opened.group rowGroup).length) (state : σ × Progress) :
    let r := serve request columns opened limits env defs rowGroup view whole base selection state cache
    Offers P sink request columns opened rowGroup (selectedOf opened rowGroup selection) r.1 ∧
      Sound opened r.2 := by
  have hdecode := fun view => @decode_spec opened cache σ request env rowGroup P sink columns limits
    hcache view selection hselection state
  have hsmall := opened.length_group_lt rowGroup
  -- batches of the cache that have the rows of the selection
  have hserved : ∀ {layout : ScanProjection} {prepaid : Option ℕ} {batches : List (Batch × ℕ)},
      view = some layout →
      (batches.map Prod.fst).flatten = selectRows
        (selectionBits selection (opened.group rowGroup).length) (cachedRows opened rowGroup) →
      Offers P sink request columns opened rowGroup (selectedOf opened rowGroup selection)
        ⟨layout, prepaid, batches⟩ := by
    intro layout prepaid batches hlayout hbatches
    refine ⟨_, hbatches.trans ?_, offerRow_view (hview layout hlayout)⟩
    rw [map_selectedOf]
    rfl
  have hkeyed : ∀ {selection : Option RowSelection}, (∀ runs, selection = some runs →
      runs.bits.length ≤ (opened.group rowGroup).length) → ∀ rows : Batch,
      selectRows (SelectionKey.bits (selectionKey selection (opened.group rowGroup).length)) rows =
        selectRows (selectionBits selection (opened.group rowGroup).length) rows := by
    intro selection hselection rows
    rw [← selectRows_padded (opened.group rowGroup).length (SelectionKey.bits _),
      padded_selectionKey hsmall hselection, selectRows_padded]
  have hslices : ∀ slices : List Batch,
      ((slices.map fun slice => (slice, 0)).map Prod.fst).flatten = slices.flatten := by
    intro slices
    rw [List.map_map]
    exact congrArg List.flatten (List.map_id _)
  cases view with
  | none => exact hdecode none
  | some layout =>
    simp only [serve]
    cases whole with
    | some entry =>
      refine ⟨hserved rfl ?_, hcache⟩
      have hentry := hwhole entry rfl
      have htotal : entry.flatten.length = (opened.group rowGroup).length := by
        rw [hentry, cachedRows, List.length_map]
      rw [hslices, flatten_sliceCachedGroup, htotal, hentry]
    | none =>
      dsimp only
      cases hreplay : cache.get rowGroup (selectionKey selection (opened.group rowGroup).length) with
      | some replay =>
        refine ⟨hserved rfl ?_, hcache⟩
        rw [List.map_map, ← hkeyed hselection]
        exact (congrArg List.flatten (List.map_id replay)).trans (hcache.get hreplay).2
      | none =>
        dsimp only
        cases hsubset : subsetOf cache defs rowGroup (opened.group rowGroup).length base selection with
        | none => exact hdecode (some layout)
        | some cut =>
          refine ⟨hserved rfl ?_, hcache⟩
          rw [hslices]
          exact subsetOf_some hcache hsubset

/-! ### Limits -/

/-- What may end a scan: a limit on its rows, its cancellation, or a limit on its bytes. -/
def ending {ε : Type*} (message : ε → String) (limits : ScanLimits) (env : Surroundings σ) :
    Ending ε String where
  stops := limits.rows ≠ none ∨ ∃ check, env.cancelled check = true
  fails e := limits.bytes ≠ none ∧ message e = limits.bytesMessage
  message := message

section

variable {projection : ScanProjection} {countRows : Bool}

/-- A row is offered, unless the scan ends before it. -/
theorem scanRow_cut (state : σ × Progress) (row : List Leaf) :
    CutShort (ending id limits env) Prod.fst
      (scanRow P sink request opened limits env projection countRows rowGroup state row)
      (offerRow P sink request opened projection rowGroup state.1 row) (atOnce state.1 row) := by
  obtain ⟨s, p⟩ := state
  simp only [scanRow]
  by_cases hcancelled : env.cancelled p.checks = true
  · rw [if_pos hcancelled]
    exact .of_stop (.inr ⟨_, hcancelled⟩) (List.mem_singleton_self s)
  rw [if_neg hcancelled, offerRow]
  by_cases htenant : tenantAt row ≠ request.tenant
  · rw [if_pos htenant, if_pos htenant]
    exact .of_error (.inr rfl)
  rw [if_neg htenant, if_neg htenant]
  by_cases hbeyond : beyondFrontier (sink.frontierNs s) request.forward (timestampAt row) = true
  · rw [if_pos hbeyond, if_pos hbeyond]
    exact .of_next rfl
  rw [if_neg hbeyond, if_neg hbeyond]
  by_cases hreached : limits.rowsReached p.toScanStats = true
  · rw [if_pos hreached]
    refine .of_stop (.inl fun hnone => ?_) (List.mem_singleton_self s)
    rw [ScanLimits.rowsReached, hnone] at hreached
    cases hreached
  rw [if_neg hreached]
  cases offerFields P sink request opened projection s row with
  | error e => exact .of_error (.inr rfl)
  | ok s' => exact .of_next rfl

theorem ne_none_of_bytesExceeded {stats : ScanStats} (h : limits.bytesExceeded stats = true) :
    limits.bytes ≠ none := by
  intro hnone
  rw [ScanLimits.bytesExceeded, hnone] at h
  cases h

/-- The rows of a batch are offered, up to where the scan ends. -/
theorem scanBatch_cut (state : σ × Progress) (batch : Batch × ℕ) :
    CutShort (ending id limits env) Prod.fst
      (scanBatch P sink request opened limits env projection countRows rowGroup state batch)
      ((inDirection request.forward batch.1).foldlM
        (offerRow P sink request opened projection rowGroup) state.1)
      (passing (offerRow P sink request opened projection rowGroup) atOnce
        (inDirection request.forward batch.1) state.1) := by
  obtain ⟨s, p⟩ := state
  simp only [scanBatch]
  by_cases hcancelled : env.cancelled p.checks = true
  · rw [if_pos hcancelled]
    exact .of_stop (.inr ⟨_, hcancelled⟩) (Runs.self_mem_passing _ s)
  rw [if_neg hcancelled]
  split
  case isTrue hexceeded => exact .of_error (.inl ⟨ne_none_of_bytesExceeded hexceeded, rfl⟩)
  case isFalse =>
    exact CutShort.steps (I := fun _ => True) (fun state row _ => scanRow_cut state row)
      (fun _ _ _ _ _ => trivial) _ trivial

end

/-- **The rows of a selection** are offered as those of the file, up to where the scan ends. -/
theorem scanServed_cut {countRows : Bool} {rows : List Cells} {served : Served}
    (h : Offers P sink request columns opened rowGroup rows served) (state : σ × Progress) :
    CutShort (ending id limits env) Prod.fst
      (scanServed P sink request opened limits env countRows rowGroup state served)
      ((inDirection request.forward rows).foldlM
        (offerCells P sink request columns opened rowGroup) state.1)
      (passing (offerCells P sink request columns opened rowGroup) atOnce
        (inDirection request.forward rows) state.1) := by
  obtain ⟨leaves, hrows, hoffer⟩ := h.rows
  -- the rows of the batches, batch by batch in the direction of the query
  have hflat : (inDirection request.forward served.batches).flatMap
      (fun batch => inDirection request.forward batch.1) =
        (inDirection request.forward rows).map (projectRow leaves) := by
    rw [flatMap_inDirection, map_inDirection, ← hrows, List.flatMap_def]
  have hcells : (fun s cells => offerRow P sink request opened served.projection rowGroup s
      (projectRow leaves cells)) = offerCells P sink request columns opened rowGroup := by
    funext s cells
    exact hoffer s cells
  have hfold := congrArg (fun rows => List.foldlM
    (offerRow P sink request opened served.projection rowGroup) state.1 rows) hflat
  have hpassing := congrArg (fun rows => passing
    (offerRow P sink request opened served.projection rowGroup) atOnce rows state.1) hflat
  rw [Runs.foldlM_flatMap, List.foldlM_map, hcells] at hfold
  rw [Runs.passing_map, hcells] at hpassing
  have hbatches : ∀ (within : ScanLimits) (begun : Progress),
      CutShort (ending id within env) Prod.fst
        (steps (scanBatch P sink request opened within env served.projection countRows rowGroup)
          (inDirection request.forward served.batches) (state.1, begun))
        ((inDirection request.forward rows).foldlM
          (offerCells P sink request columns opened rowGroup) state.1)
        (passing (offerCells P sink request columns opened rowGroup) atOnce
          (inDirection request.forward rows) state.1) := by
    intro within begun
    let offer := offerRow P sink request opened served.projection rowGroup
    have hrun : CutShort (ending id within env) Prod.fst
        (steps (scanBatch P sink request opened within env served.projection countRows rowGroup)
          (inDirection request.forward served.batches) (state.1, begun))
        ((inDirection request.forward served.batches).foldlM
          (fun s batch => (inDirection request.forward batch.1).foldlM offer s) state.1)
        (passing (fun s batch => (inDirection request.forward batch.1).foldlM offer s)
          (fun s batch => passing offer atOnce (inDirection request.forward batch.1) s)
          (inDirection request.forward served.batches) state.1) :=
      CutShort.steps (I := fun _ => True) (fun state batch _ => scanBatch_cut state batch)
        (fun _ _ _ _ _ => trivial) _ trivial
    rw [← hfold, ← hpassing]
    exact hrun.mono fun s hs => Runs.mem_passing_flatMap hs
  rw [scanServed]
  cases served.prepaid with
  | none => exact hbatches limits state.2
  | some bytes =>
    dsimp only
    split
    case isTrue hexceeded => exact .of_error (.inl ⟨ne_none_of_bytesExceeded hexceeded, rfl⟩)
    case isFalse =>
      exact (hbatches { limits with bytes := none } (state.2.charge bytes)).imp id
        (fun _ hfails => absurd rfl hfails.1) rfl

/-! ### Row groups -/

/-- The rows that the exact fields and the range may select. -/
def baseBits (P : Platform) (request : ScanRequest) (opened : OpenPart) (rowGroup : ℕ) : Selection :=
  (baseSelection P ((opened.group rowGroup).map Cells.timestampNs)
    (if request.exactFields.isEmpty then none else opened.part.index[rowGroup]?)
    request.exactFields request.range).getD (allRows (opened.group rowGroup).length)

def selectedBits (P : Platform) (request : ScanRequest) (opened : OpenPart)
    (defs : List DefinitiveColumn) (rowGroup : ℕ) : Selection :=
  if defs.isEmpty then baseBits P request opened rowGroup
  else narrowBits (keepsCells request.range defs) (baseBits P request opened rowGroup)
    (opened.group rowGroup)

/-- The rows of a row group in the order in which a scan offers them. -/
def rowsOfGroup (P : Platform) (sink : RowSink σ) (request : ScanRequest) (opened : OpenPart)
    (defs : List DefinitiveColumn) (s : σ) (rowGroup : ℕ) : List Cells :=
  if spanBeyondFrontier (sink.frontierNs s) request.forward
      (opened.part.info.rowGroupMinTs.getD rowGroup Nanos.zero)
      (opened.part.info.rowGroupMaxTs.getD rowGroup Nanos.zero) then []
  else inDirection request.forward
    (selectRows (selectedBits P request opened defs rowGroup) (opened.group rowGroup))

/-- Offers the rows of a row group as they are in the file. -/
def offerGroup (P : Platform) (sink : RowSink σ) (request : ScanRequest) (columns : ColumnSet)
    (opened : OpenPart) (defs : List DefinitiveColumn) (s : σ) (rowGroup : ℕ) : Except String σ :=
  (rowsOfGroup P sink request opened defs s rowGroup).foldlM
    (offerCells P sink request columns opened rowGroup) s

/-- What the sink is like before and after each of the rows. -/
def passedInGroup (P : Platform) (sink : RowSink σ) (request : ScanRequest) (columns : ColumnSet)
    (opened : OpenPart) (defs : List DefinitiveColumn) (s : σ) (rowGroup : ℕ) : List σ :=
  passing (offerCells P sink request columns opened rowGroup) atOnce
    (rowsOfGroup P sink request opened defs s rowGroup) s

theorem selectsAny_eq (runs : RowSelection) : runs.selectsAny = runs.bits.any id := by
  rw [RowSelection.selectsAny, RowSelection.bits, List.any_flatMap]
  congr 1
  funext run
  cases hskip : run.skip <;> cases hcount : run.rowCount <;>
    simp [List.any_replicate]

theorem selectRows_of_not_any {α : Type*} {bits : Selection} (h : bits.any id ≠ true) (rows : List α) :
    selectRows bits rows = [] := by
  refine List.eq_nil_iff_forall_not_mem.2 fun row hrow => h ?_
  obtain ⟨i, -, hbit⟩ := mem_selectRows.1 hrow
  exact List.any_eq_true.2 ⟨true, List.mem_of_getElem? hbit, rfl⟩

theorem length_baseBits (P : Platform) (request : ScanRequest) (opened : OpenPart) (rowGroup : ℕ) :
    (baseBits P request opened rowGroup).length = (opened.group rowGroup).length := by
  rw [baseBits]
  cases hbase : baseSelection P ((opened.group rowGroup).map Cells.timestampNs)
      (if request.exactFields.isEmpty then none else opened.part.index[rowGroup]?)
      request.exactFields request.range with
  | none => exact List.length_replicate
  | some selection =>
    have hlen := length_baseSelection hbase
    rwa [List.length_map] at hlen

theorem selectionBits_baseRuns (env : Surroundings σ) (rowGroup : ℕ) :
    selectionBits (baseRuns P request opened env rowGroup) (opened.group rowGroup).length =
      baseBits P request opened rowGroup := by
  rw [baseRuns, baseBits]
  cases baseSelection P ((opened.group rowGroup).map Cells.timestampNs)
      (if request.exactFields.isEmpty then none else opened.part.index[rowGroup]?)
      request.exactFields request.range with
  | none => rfl
  | some selection => exact env.bits_runs selection

theorem length_baseRuns {runs : RowSelection}
    (h : baseRuns P request opened env rowGroup = some runs) :
    runs.bits.length ≤ (opened.group rowGroup).length := by
  have hbits := @selectionBits_baseRuns opened σ request P env rowGroup
  rw [h] at hbits
  rw [← length_baseBits P request opened rowGroup, ← hbits]
  exact le_rfl

theorem narrowRows_baseRuns (env : Surroundings σ) (rowGroup : ℕ) :
    narrowRows request opened defs rowGroup (baseRuns P request opened env rowGroup) =
      narrowBits (keepsCells request.range defs) (baseBits P request opened rowGroup)
        (opened.group rowGroup) := by
  rw [narrowRows, selectionBits_baseRuns, padded_of_length (length_baseBits ..)]

theorem any_of_selectedBits (h : (selectedBits P request opened defs rowGroup).any id = true) :
    (baseBits P request opened rowGroup).any id = true := by
  rw [selectedBits] at h
  split at h
  case isTrue => exact h
  case isFalse =>
    obtain ⟨bit, hbit, htrue⟩ := List.any_eq_true.1 h
    rw [narrowBits] at hbit
    obtain ⟨r, hr, rfl⟩ := List.mem_map.1 hbit
    exact List.any_eq_true.2 ⟨r.2, (List.of_mem_zip hr).2, (Bool.and_eq_true_iff.1 htrue).1⟩

theorem flatten_whole (hcache : Sound opened cache) {entry : List Batch}
    (h : cache.get rowGroup (selectionKey none (opened.group rowGroup).length) = some entry) :
    entry.flatten = cachedRows opened rowGroup := by
  have hrows := (hcache.get h).2
  have hkey := @padded_selectionKey none (opened.group rowGroup).length
    (opened.length_group_lt rowGroup) (fun _ h => (by cases h))
  rw [← selectRows_padded (opened.group rowGroup).length (SelectionKey.bits _), hkey,
    selectRows_padded] at hrows
  have hlen : (opened.group rowGroup).length = (cachedRows opened rowGroup).length := by
    rw [cachedRows, List.length_map]
  rw [hrows, selectionBits, hlen]
  exact selectRows_allRows _

/-- What a scan of a row group leaves: the sink as far as it came, and a cache that is sound. -/
structure LeavesGroup (P : Platform) (sink : RowSink σ) (request : ScanRequest) (columns : ColumnSet)
    (opened : OpenPart) (limits : ScanLimits) (env : Surroundings σ) (defs : List DefinitiveColumn)
    (s : σ) (rowGroup : ℕ)
    (run : Except (String × GroupCache) (Step ((σ × GroupCache) × Progress))) : Prop where
  offered : CutShort (ending Prod.fst limits env) (fun b => b.1.1) run
    (offerGroup P sink request columns opened defs s rowGroup)
    (passedInGroup P sink request columns opened defs s rowGroup)
  kept : Runs.Ends (fun b : (σ × GroupCache) × Progress => Sound opened b.1.2)
    (fun e : String × GroupCache => Sound opened e.2) run

/-- A row group without rows to offer. -/
theorem LeavesGroup.skipped {s : σ} {p : Progress}
    (h : rowsOfGroup P sink request opened defs s rowGroup = []) (hcache : Sound opened cache) :
    LeavesGroup P sink request columns opened limits env defs s rowGroup
      (.ok (.next ((s, cache), p))) where
  offered := by
    refine .of_next ?_
    rw [offerGroup, h]
    rfl
  kept := hcache

/-- The rows of a selection that was found are offered, and the cache is filled. -/
theorem scanSelected (hcache : Sound opened cache) {view : Option ScanProjection}
    (hview : ∀ layout, view = some layout →
      viewIn (projectionOf columns opened) opened.cacheProjection = some layout)
    {whole : Option (List Batch)} (hwhole : ∀ entry, whole = some entry →
      entry.flatten = cachedRows opened rowGroup) {s : σ}
    (hspan : ¬ spanBeyondFrontier (sink.frontierNs s) request.forward
      (opened.part.info.rowGroupMinTs.getD rowGroup Nanos.zero)
      (opened.part.info.rowGroupMaxTs.getD rowGroup Nanos.zero) = true)
    {selection : Option RowSelection}
    (hselection : selectionBits selection (opened.group rowGroup).length =
      selectedBits P request opened defs rowGroup)
    (hlen : ∀ runs, selection = some runs → runs.bits.length ≤ (opened.group rowGroup).length)
    (p : Progress) :
    let r := serve request columns opened limits env defs rowGroup view whole base selection (s, p) cache
    let stopped := if request.forward then cache else r.2
    LeavesGroup P sink request columns opened limits env defs s rowGroup
      (((scanServed P sink request opened limits env defs.isEmpty rowGroup (s, p) r.1).map
        (Step.map (fun b => ((b.1, r.2), b.2)) fun b => ((b.1, stopped), b.2))).mapError
          fun e => (e, stopped)) := by
  intro r stopped
  obtain ⟨hoffers, hfilled⟩ := @serve_spec opened cache σ request env defs rowGroup base P sink columns
    limits hcache view hview whole hwhole selection hlen (s, p)
  have hstopped : Sound opened stopped := by
    change Sound opened (if _ then _ else _)
    split
    · exact hcache
    · exact hfilled
  have hrows : rowsOfGroup P sink request opened defs s rowGroup =
      inDirection request.forward (selectedOf opened rowGroup selection) := by
    rw [rowsOfGroup, if_neg hspan, selectedOf, hselection]
  have hends := Runs.Ends.of_map (I := fun b : (σ × GroupCache) × Progress => Sound opened b.1.2)
    (J := fun e : String × GroupCache => Sound opened e.2)
    (f := fun b : σ × Progress => ((b.1, r.2), b.2)) (g := fun b => ((b.1, stopped), b.2))
    (k := fun e => (e, stopped)) (fun _ => hfilled) (fun _ => hstopped) (fun _ => hstopped)
    (scanServed P sink request opened limits env defs.isEmpty rowGroup (s, p) r.1)
  refine ⟨?_, hends⟩
  rw [offerGroup, passedInGroup, hrows]
  exact (scanServed_cut hoffers (s, p)).map (fun _ => rfl) (fun _ => rfl) id (fun _ => id) fun _ => rfl

/-- **A row group** is scanned as it is in the file, up to where the scan ends. -/
theorem scanGroup_leaves (hcache : Sound opened cache) (hdefs : ∀ column ∈ defs, InSchema opened column)
    (s : σ) (p : Progress) (rowGroup : ℕ) :
    LeavesGroup P sink request columns opened limits env defs s rowGroup
      (scanGroup P sink request columns opened limits env defs ((s, cache), p) rowGroup) := by
  simp only [scanGroup]
  by_cases hcancelled : env.cancelled p.checks = true
  · rw [if_pos hcancelled]
    exact ⟨.of_stop (.inr ⟨_, hcancelled⟩) (Runs.self_mem_passing _ s), hcache⟩
  rw [if_neg hcancelled]
  by_cases hspan : spanBeyondFrontier (sink.frontierNs s) request.forward
      (opened.part.info.rowGroupMinTs.getD rowGroup Nanos.zero)
      (opened.part.info.rowGroupMaxTs.getD rowGroup Nanos.zero) = true
  · rw [if_pos hspan]
    exact .skipped (by rw [rowsOfGroup, if_pos hspan]) hcache
  rw [if_neg hspan]
  have hnoRows : (selectedBits P request opened defs rowGroup).any id ≠ true →
      rowsOfGroup P sink request opened defs s rowGroup = [] := by
    intro hany
    rw [rowsOfGroup, if_neg hspan, selectRows_of_not_any hany]
    cases request.forward <;> rfl
  set base := baseRuns P request opened env rowGroup with hbase
  have hbaseLen : ∀ runs, base = some runs → runs.bits.length ≤ (opened.group rowGroup).length :=
    fun runs hruns => length_baseRuns hruns
  have hbaseBits := @selectionBits_baseRuns opened σ request P env rowGroup
  rw [← hbase] at hbaseBits
  split
  case isTrue hskip =>
    refine .skipped (hnoRows fun hany => ?_) hcache
    obtain ⟨runs, hruns, hnone⟩ := (Option.any_eq_true ..).1 hskip
    have hbits : baseBits P request opened rowGroup = runs.bits := by rw [← hbaseBits, hruns]; rfl
    rw [Bool.not_eq_true', selectsAny_eq, ← hbits, any_of_selectedBits hany] at hnone
    cases hnone
  case isFalse =>
    set view := if cache.enabled then viewIn (projectionOf columns opened) opened.cacheProjection
      else none with hviewIn
    have hview : ∀ layout, view = some layout →
        viewIn (projectionOf columns opened) opened.cacheProjection = some layout := by
      intro layout hlayout
      rw [hviewIn] at hlayout
      split at hlayout
      · exact hlayout
      · cases hlayout
    set whole := if view.isSome then
      cache.get rowGroup (selectionKey none (opened.group rowGroup).length) else none with hget
    have hwhole : ∀ entry, whole = some entry → entry.flatten = cachedRows opened rowGroup := by
      intro entry hentry
      rw [hget] at hentry
      split at hentry
      · exact flatten_whole hcache hentry
      · cases hentry
    by_cases hdefsEmpty : defs.isEmpty = true
    · rw [if_pos hdefsEmpty]
      refine scanSelected hcache hview hwhole hspan ?_ hbaseLen _
      rw [hbaseBits, selectedBits, if_pos hdefsEmpty]
    · rw [if_neg hdefsEmpty]
      obtain ⟨outcome, stats, narrowed, hnarrow, houtcome, hnarrowed⟩ :=
        @narrow_spec opened cache σ request env defs rowGroup base hcache hdefs hbaseLen whole hwhole
      rw [narrowRows_baseRuns] at houtcome
      have hselected : selectedBits P request opened defs rowGroup =
          narrowBits (keepsCells request.range defs) (baseBits P request opened rowGroup)
            (opened.group rowGroup) := if_neg hdefsEmpty
      rw [← hselected, Narrowed] at houtcome
      rw [hnarrow]
      split at houtcome
      case isTrue =>
        obtain ⟨runs, rfl, hruns⟩ := houtcome
        have hbits : selectionBits (some runs) (opened.group rowGroup).length =
            selectedBits P request opened defs rowGroup := hruns
        refine scanSelected hnarrowed hview hwhole hspan hbits (fun kept hkept => ?_) _
        obtain rfl := Option.some.inj hkept
        rw [hruns, hselected, length_narrowBits (length_baseBits ..)]
      case isFalse hnone =>
        subst houtcome
        exact .skipped (hnoRows hnone) hnarrowed

/-! ### Scans -/

/-- The row groups of a scan and what it looks for in them, unless it reads none. -/
def groupsOf (P : Platform) (sink : RowSink σ) (request : ScanRequest) (opened : OpenPart) (s : σ) :
    Option (List DefinitiveColumn × List ℕ) :=
  if opened.part.info.rowGroupCount == 0 || sink.isClosed s then none
  else (definitiveColumns opened.part.metadataKeys opened.part.parsedKeys request.exactFields).map
    fun defs => (defs, orderRowGroups request opened.part.info
      (selectRowGroups P opened.part request.tenant request.lineFilters request.exactFields
        request.range))

/-- Offers every row of a scan as it is in the file. -/
def scanFile (P : Platform) (sink : RowSink σ) (request : ScanRequest) (columns : ColumnSet)
    (opened : OpenPart) (s : σ) : Except String σ :=
  match groupsOf P sink request opened s with
  | none => .ok s
  | some (defs, rowGroups) => rowGroups.foldlM (offerGroup P sink request columns opened defs) s

/-- What the sink is like in a scan, before and after each of its rows. -/
def passedInFile (P : Platform) (sink : RowSink σ) (request : ScanRequest) (columns : ColumnSet)
    (opened : OpenPart) (s : σ) : List σ :=
  match groupsOf P sink request opened s with
  | none => [s]
  | some (defs, rowGroups) => passing (offerGroup P sink request columns opened defs)
      (passedInGroup P sink request columns opened defs) rowGroups s

theorem scanInto_eq (P : Platform) (sink : RowSink σ) (request : ScanRequest) (columns : ColumnSet)
    (opened : OpenPart) (limits : ScanLimits) (env : Surroundings σ) (cache : GroupCache) (s : σ) :
    scanInto P sink request columns opened limits env cache s =
      match groupsOf P sink request opened s with
      | none => .ok (.next ((s, cache), .zero))
      | some (defs, rowGroups) =>
        steps (scanGroup P sink request columns opened limits env defs) rowGroups
          ((s, cache), .zero) := by
  rw [scanInto, groupsOf]
  split
  · rfl
  · cases definitiveColumns opened.part.metadataKeys opened.part.parsedKeys request.exactFields <;> rfl

/-- **A scan** offers the rows of the file, up to where it ends, and leaves the cache sound. -/
theorem scanInto_leaves (hcache : Sound opened cache) (s : σ) :
    CutShort (ending Prod.fst limits env) (fun b => b.1.1)
        (scanInto P sink request columns opened limits env cache s)
        (scanFile P sink request columns opened s) (passedInFile P sink request columns opened s) ∧
      Runs.Ends (fun b : (σ × GroupCache) × Progress => Sound opened b.1.2)
        (fun e : String × GroupCache => Sound opened e.2)
        (scanInto P sink request columns opened limits env cache s) := by
  rw [scanInto_eq, scanFile, passedInFile]
  cases hgroups : groupsOf P sink request opened s with
  | none => exact ⟨.of_next rfl, hcache⟩
  | some groups =>
    obtain ⟨defs, rowGroups⟩ := groups
    have hdefs : ∀ column ∈ defs, InSchema opened column := by
      rw [groupsOf] at hgroups
      split at hgroups
      · cases hgroups
      · obtain ⟨defs', hdefs', heq⟩ := Option.map_eq_some_iff.1 hgroups
        obtain ⟨rfl, -⟩ := Prod.mk.inj heq
        exact inSchema_definitiveColumns hdefs'
    have hgroup : ∀ (b : (σ × GroupCache) × Progress) rowGroup, Sound opened b.1.2 →
        LeavesGroup P sink request columns opened limits env defs b.1.1 rowGroup
          (scanGroup P sink request columns opened limits env defs b rowGroup) := by
      intro b rowGroup hb
      exact scanGroup_leaves hb hdefs b.1.1 b.2 rowGroup
    refine ⟨CutShort.steps (I := fun b => Sound opened b.1.2) (fun b rowGroup hb =>
      (hgroup b rowGroup hb).offered) (fun b rowGroup b' hb hrun => ?_) rowGroups hcache,
      Runs.steps_ends (fun b rowGroup hb => (hgroup b rowGroup hb).kept) rowGroups hcache⟩
    have hkept := (hgroup b rowGroup hb).kept
    rw [hrun] at hkept
    exact hkept

/-- The caches of a part after some scans, of any kind and however they ended. -/
inductive Reached (P : Platform) (opened : OpenPart) : GroupCache → Prop
  | opened (enabled : Bool) : Reached P opened ⟨enabled, [], []⟩
  | scanned {cache : GroupCache} {σ : Type} {sink : RowSink σ} {request : ScanRequest}
      {columns : ColumnSet} {limits : ScanLimits} {env : Surroundings σ} {s : σ}
      {step : Step ((σ × GroupCache) × Progress)} (h : Reached P opened cache)
      (hrun : scanInto P sink request columns opened limits env cache s = .ok step) :
      Reached P opened step.state.1.2
  | failed {cache : GroupCache} {σ : Type} {sink : RowSink σ} {request : ScanRequest}
      {columns : ColumnSet} {limits : ScanLimits} {env : Surroundings σ} {s : σ}
      {e : String × GroupCache} (h : Reached P opened cache)
      (hrun : scanInto P sink request columns opened limits env cache s = .error e) :
      Reached P opened e.2
  | evicted {cache cache' : GroupCache} (h : Reached P opened cache) (hwithin : cache'.Within cache) :
      Reached P opened cache'

/-- Whatever was scanned before, the cache holds what decoding would give. -/
theorem Reached.sound (h : Reached P opened cache) : Sound opened cache := by
  induction h with
  | opened enabled => exact sound_empty enabled
  | @scanned cache σ sink request columns limits env s step h hrun ih =>
    have hends := (@scanInto_leaves opened cache σ request env P sink columns limits ih s).2
    rw [hrun] at hends
    exact hends
  | @failed cache σ sink request columns limits env s e h hrun ih =>
    have hends := (@scanInto_leaves opened cache σ request env P sink columns limits ih s).2
    rw [hrun] at hends
    exact hends
  | evicted h hwithin ih => exact ih.within hwithin

/-- What a scan leaves in its sink, or its error. -/
def outcomeOf (run : Except (String × GroupCache) (Step ((σ × GroupCache) × Progress))) :
    Except String σ :=
  (run.map fun step => step.state.1.1).mapError Prod.fst

/-- Without limits a scan that is not cancelled offers the rows of the file. -/
theorem outcomeOf_scanInto (hcache : Sound opened cache) (hcalm : ∀ check, env.cancelled check = false)
    (s : σ) : outcomeOf (scanInto P sink request columns opened .none env cache s) =
      scanFile P sink request columns opened s := by
  have hcut := (@scanInto_leaves opened cache σ request env P sink columns .none hcache s).1
  refine hcut.eq_free ?_ fun e hfails => hfails.1 rfl
  rintro (hrows | ⟨check, hcheck⟩)
  · exact hrows rfl
  · rw [hcalm check] at hcheck
    cases hcheck

theorem selectRows_selectionOf {α : Type*} {selection : Option RowSelection} {groupRows : ℕ}
    (hsmall : groupRows < 2 ^ 32)
    (hlen : ∀ runs, selection = some runs → runs.bits.length ≤ groupRows) (rows : List α) :
    selectRows (selectionOf (selectionKey selection groupRows) groupRows).bits rows =
      selectRows (selectionBits selection groupRows) rows := by
  rw [bits_selectionOf, padded_selectionKey hsmall hlen, selectRows_padded]

/-- **The cache cannot be seen.**  Whatever was scanned before, a scan that goes to its end offers what
a scan without a cache offers; one that a limit on its rows or its cancellation ends has offered the
first of it; and it has no error of its own but that of the limit on its bytes. -/
theorem cache_invisible (h : Reached P opened cache) {σ : Type} (sink : RowSink σ)
    (request : ScanRequest) (columns : ColumnSet) (limits : ScanLimits) (env plain : Surroundings σ)
    (hplain : ∀ check, plain.cancelled check = false) (s : σ) :
    let uncached := outcomeOf (scanInto P sink request columns opened .none plain .disabled s)
    let run := scanInto P sink request columns opened limits env cache s
    uncached = scanFile P sink request columns opened s ∧
      (∀ b, run = .ok (.next b) → uncached = .ok b.1.1) ∧
      (∀ b, run = .ok (.stop b) →
        (limits.rows ≠ none ∨ ∃ check, env.cancelled check = true) ∧
          b.1.1 ∈ passedInFile P sink request columns opened s) ∧
      (∀ e, run = .error e →
        (limits.bytes ≠ none ∧ e.1 = limits.bytesMessage) ∨ uncached = .error e.1) ∧
      ∀ (rowGroup : ℕ) (selection : Option RowSelection), (∀ runs, selection = some runs →
        runs.bits.length ≤ (opened.group rowGroup).length) →
        selectRows (selectionOf (selectionKey selection (opened.group rowGroup).length)
          (opened.group rowGroup).length).bits (opened.group rowGroup) =
          selectRows (selectionBits selection (opened.group rowGroup).length)
            (opened.group rowGroup) := by
  intro uncached run
  have hfile : uncached = scanFile P sink request columns opened s :=
    outcomeOf_scanInto (sound_empty false) hplain s
  have hcut := (@scanInto_leaves opened cache σ request env P sink columns limits h.sound s).1
  refine ⟨hfile, fun b hb => hfile.trans (hcut.next b hb), hcut.stop, fun e he => ?_,
    fun rowGroup selection hlen => ?_⟩
  · rw [hfile]
    exact hcut.error e he
  · exact selectRows_selectionOf (opened.length_group_lt rowGroup) hlen _

/-! ### A limit on rows -/

/-- A part of one row, with a column for its key. -/
def keyedEntry : String × LogEntry := ("tenant", ⟨.one, "up", [("k", "v")]⟩)

def keyedRow : Row := Row.fromEntry keyedEntry.1 keyedEntry.2.canonicalized

def keyedPart : OpenPart where
  part :=
    { info :=
        { id := "part", partition := 0, minTsNs := .one, maxTsNs := .one, rowCount := 1
          rowGroupCount := 1, rowGroupMinTs := [.one], rowGroupMaxTs := [.one], rowGroupRows := [1]
          rowGroupTsMonotonic := [true], tenants := [⟨"tenant", 0, 1, 1, .one, .one⟩]
          materializedBytes := keyedRow.materializedBytes, metadataColumns := [("k", 1)]
          parsedColumns := [] }
      data := [[⟨"tenant", .one, "up", [some "v"], [], none⟩]]
      index := (encodeGroupBlooms plainPlatform.exactSizing plainPlatform.lineSizing
        plainPlatform.charLower [(keyedRow, none)]).toList }
  metadataSorted := by decide
  parsedSorted := by decide
  schema := by decide
  small := by decide

/-- All rows whose key has the value. -/
def keyedRequest : ScanRequest :=
  ⟨"tenant", [], [⟨"k", "v", false, false, false⟩], .unbounded, true, none⟩

def keyedDefs : List DefinitiveColumn := [⟨"v", some 0, none, false⟩]

/-- Counts the rows that it is offered. -/
def rowCounter : RowSink ℕ where
  acceptExtracted count _ _ := .ok (count + 1)
  frontierNs _ := none
  isClosed _ := false

/-- Nothing is cancelled or evicted, and batches are as large as can be. -/
def quiet : Surroundings ℕ where
  runs selection := selection.map fun bit => ⟨1, !bit⟩
  bits_runs selection := by
    induction selection with
    | nil => rfl
    | cons bit selection ih =>
      rw [List.map_cons, RowSelection.bits, List.flatMap_cons]
      exact congrArg₂ (· :: ·) (Bool.not_not bit) ih
  decoded _ _ _ rows := [(rows, 0)]
  flatten_decoded _ _ _ rows := List.append_nil rows
  shrunk _ := 0
  narrowMemory _ := 0
  cancelled _ := false
  groupEviction _ := ⟨id, fun _ => ⟨rfl, List.Subset.refl _, List.Subset.refl _⟩⟩
  narrowEviction _ := ⟨id, fun _ => ⟨rfl, List.Subset.refl _, List.Subset.refl _⟩⟩

/-- What a scan leaves in the cache: its row, and the outcome of its narrow pass. -/
def keyedCache : GroupCache where
  enabled := true
  groups := [((0, [(false, 1)]),
    [[[.text (some "tenant"), .ns .one, .text (some "up"), .text (some "v"), .text none]]])]
  narrows := [(⟨0, .unbounded, [(false, 1)], keyedDefs⟩, some [(false, 1)])]

theorem groupsOf_keyedPart (count : ℕ) :
    groupsOf plainPlatform rowCounter keyedRequest keyedPart count = some (keyedDefs, [0]) := by
  have hgroups : selectRowGroups plainPlatform keyedPart.part "tenant" []
      [⟨"k", "v", false, false, false⟩] .unbounded = [0] := by decide +kernel
  have hdefs : definitiveColumns keyedPart.part.metadataKeys keyedPart.part.parsedKeys
      [⟨"k", "v", false, false, false⟩] = some keyedDefs := by decide +kernel
  rw [groupsOf, if_neg (by simp [keyedPart, rowCounter])]
  simp only [keyedRequest, hgroups, hdefs, orderRowGroups, List.mergeSort_singleton, Option.map_some]

theorem projectionOf_keyedPart :
    projectionOf .all keyedPart = ⟨[0, 1, 2, 3, 4], some 2, [(0, 3)], [], some 4⟩ := by
  have hleaves : ScanProjection.leavesOf keyedPart.metadataKeys keyedPart.parsedKeys .all =
      [0, 1, 2, 3, 4] := by
    rw [ScanProjection.leavesOf, List.mergeSort_of_pairwise (by decide)]
    decide
  rw [projectionOf, ScanProjection.build, hleaves]
  decide

theorem baseRuns_keyedPart :
    baseRuns plainPlatform keyedRequest keyedPart quiet 0 = some [⟨1, false⟩] := by
  decide +kernel

/-- A first scan fills the cache. -/
theorem scanInto_keyedPart :
    scanInto plainPlatform rowCounter keyedRequest .all keyedPart .none quiet ⟨true, [], []⟩ 0 =
      .ok (.next ((1, keyedCache), ⟨⟨1, 0⟩, 3⟩)) := by
  have hcache : keyedPart.cacheProjection = _ := projectionOf_keyedPart
  rw [scanInto_eq, groupsOf_keyedPart]
  simp only [steps, scanGroup, baseRuns_keyedPart, projectionOf_keyedPart, hcache, narrow, narrowPass,
    serve, subsetOf, decode]
  rfl

theorem reached_keyedCache : Reached plainPlatform keyedPart keyedCache :=
  .scanned (.opened true) scanInto_keyedPart

/-- A narrow pass that is remembered examines no row.  With a limit of one row, a scan offers that row
where the outcome of its narrow pass is in the cache, and none where it is not. -/
theorem cache_charges_less :
    Reached plainPlatform keyedPart keyedCache ∧
      outcomeOf (scanInto plainPlatform rowCounter keyedRequest .all keyedPart ⟨some 1, none⟩ quiet
        keyedCache 0) = .ok 1 ∧
      outcomeOf (scanInto plainPlatform rowCounter keyedRequest .all keyedPart ⟨some 1, none⟩ quiet
        .disabled 0) = .ok 0 := by
  have hcache : keyedPart.cacheProjection = _ := projectionOf_keyedPart
  refine ⟨reached_keyedCache, ?_, ?_⟩
  all_goals
    rw [scanInto_eq, groupsOf_keyedPart]
    simp only [steps, scanGroup, baseRuns_keyedPart, projectionOf_keyedPart, hcache, narrow,
      narrowPass, serve, subsetOf, decode]
    rfl

theorem cache_invisible_keyedPart :
    (∀ b, scanInto plainPlatform rowCounter keyedRequest .all keyedPart ⟨some 1, none⟩ quiet keyedCache 0
        = .ok (.next b) →
      outcomeOf (scanInto plainPlatform rowCounter keyedRequest .all keyedPart .none quiet .disabled 0) =
        .ok b.1.1) ∧
      selectRows (selectionOf (selectionKey (some [⟨1, false⟩]) 1) 1).bits (keyedPart.group 0) =
        selectRows (selectionBits (some [⟨1, false⟩]) 1) (keyedPart.group 0) := by
  have h := cache_invisible reached_keyedCache rowCounter keyedRequest .all ⟨some 1, none⟩ quiet quiet
    (fun _ => rfl) 0
  refine ⟨h.2.1, h.2.2.2.2 0 (some [⟨1, false⟩]) fun runs hruns => ?_⟩
  obtain rfl := Option.some.inj hruns
  decide

end Batched

end Part

end Obsy
