import Mathlib.Logic.Encodable.Basic
import Mathlib.Logic.Equiv.List
import Obsy.Part.Row

/-!
# The columns of a part

A metadata key that many rows carry has a column of its own; the pairs under other keys stay in
the residual text of the row.  A reader merges the two back together.

* `rowGroupBatch`: the columns of a row group.
* `rebuild`: the metadata of a row from its columns and its residual.
* `rebuild_columns`: what a row was split into is what it is rebuilt from.
-/

namespace Obsy

namespace Part

/-! ### Columns of a row -/

/-- The text of the pairs that have no column, with the reader of such texts. -/
structure PairText where
  write : Pairs → String
  read : String → Option Pairs
  read_write : ∀ pairs, read (write pairs) = some pairs

/-- One row of a record batch. -/
structure Cells where
  tenant : String
  timestampNs : Nanos
  msg : String
  /-- The columns of the metadata keys. -/
  metadata : List (Option String)
  /-- The columns of the fields of the parsed lines. -/
  parsed : List (Option String)
  /-- The residual. -/
  structuredMetadata : Option String
deriving DecidableEq

/-- The pairs whose key did not make a column. -/
def residualOf (metadataKeys : List String) (pairs : Pairs) : Pairs :=
  pairs.filter fun p => p.1 ∉ metadataKeys

variable (text : PairText)

/-- The columns of one row. -/
def rowCells (metadataKeys parsedKeys : List String) (row : Row) (fields : Option Pairs) : Cells :=
  let residual := residualOf metadataKeys row.structuredMetadata
  { tenant := row.tenant
    timestampNs := row.timestampNs
    msg := row.line
    metadata := metadataKeys.map fun key => row.structuredMetadata.lookup key
    parsed := parsedKeys.map fun key => fields.bind fun fields => fields.lookup key
    structuredMetadata := if residual.isEmpty then none else some (text.write residual) }

/-- The columns of a row group: every row with the fields of its line. -/
def rowGroupBatch (metadataKeys parsedKeys : List String) (rows : List (Row × Option Pairs)) :
    List Cells :=
  rows.map fun r => rowCells text metadataKeys parsedKeys r.1 r.2

/-! ### Rebuilding the metadata -/

/-- The pairs of the columns and of the residual, merged by key. -/
def rebuild : List (String × Option String) → Pairs → Pairs
  | [], residual => residual
  | (key, value) :: columns, residual =>
    residual.takeWhile (fun p => p.1 < key) ++ (value.map fun value => (key, value)).toList ++
      rebuild columns (residual.dropWhile fun p => p.1 < key)

/-- The metadata of a row, or `none` where the residual cannot be read. -/
def structuredMetadataOf (metadataKeys : List String) (cells : Cells) : Option Pairs :=
  match cells.structuredMetadata with
  | none => some (rebuild (metadataKeys.zip cells.metadata) [])
  | some residual =>
    (text.read residual).map fun residual => rebuild (metadataKeys.zip cells.metadata) residual

theorem residualOf_append (keys : List String) (left right : Pairs) :
    residualOf keys (left ++ right) = residualOf keys left ++ residualOf keys right :=
  List.filter_append ..

/-- No pair below a key has a column among it and later ones. -/
theorem residualOf_below {key : String} {keys : List String} {pairs : Pairs}
    (hkeys : (key :: keys).Pairwise (· < ·)) (h : ∀ p ∈ pairs, p.1 < key) :
    residualOf (key :: keys) pairs = pairs := by
  rw [residualOf, List.filter_eq_self]
  intro p hp
  have hlt := h p hp
  have hne : p.1 ∉ keys := fun hmem =>
    lt_asymm hlt ((List.pairwise_cons.1 hkeys).1 _ hmem)
  simp [hlt.ne, hne]

theorem residualOf_above {key : String} {keys : List String} {pairs : Pairs}
    (h : ∀ p ∈ pairs, key < p.1) : residualOf (key :: keys) pairs = residualOf keys pairs := by
  rw [residualOf, residualOf]
  refine List.filter_congr fun p hp => ?_
  simp [(h p hp).ne']

theorem lookup_append_of_below {key : String} {left right : Pairs} (h : ∀ p ∈ left, p.1 < key) :
    (left ++ right).lookup key = right.lookup key := by
  induction left with
  | nil => rfl
  | cons p left ih =>
    have hne : key ≠ p.1 := (h p List.mem_cons_self).ne'
    rw [List.cons_append, List.lookup_cons, beq_false_of_ne hne]
    exact ih fun q hq => h q (List.mem_cons_of_mem _ hq)

theorem lookup_eq_none_of_above {key : String} {pairs : Pairs} (h : ∀ p ∈ pairs, key < p.1) :
    pairs.lookup key = none := by
  rw [List.lookup_eq_none_iff]
  intro p hp
  simp [(h p hp).ne]

/-- Canonical pairs around a key: those below it, its own if it has one, those above it. -/
theorem Canonical.around {pairs : Pairs} (h : Canonical pairs) (key : String) :
    ∃ below above, pairs = below ++ ((pairs.lookup key).map fun value => (key, value)).toList
        ++ above ∧
      (∀ p ∈ below, p.1 < key) ∧ (∀ p ∈ above, key < p.1) ∧ Canonical above := by
  induction pairs with
  | nil => exact ⟨[], [], by simp [Canonical]⟩
  | cons p pairs ih =>
    have hp := List.pairwise_cons.1 h
    rcases lt_trichotomy p.1 key with hlt | heq | hgt
    · obtain ⟨below, above, he, hbelow, habove, hcan⟩ := ih hp.2
      refine ⟨p :: below, above, ?_, ?_, habove, hcan⟩
      · rw [List.lookup_cons, beq_false_of_ne hlt.ne']
        conv_lhs => rw [he]
        simp
      · exact List.forall_mem_cons.2 ⟨hlt, hbelow⟩
    · refine ⟨[], pairs, ?_, by simp, fun q hq => heq ▸ hp.1 q hq, hp.2⟩
      obtain ⟨name, value⟩ := p
      obtain rfl : name = key := heq
      simp
    · have habove : ∀ q ∈ p :: pairs, key < q.1 :=
        List.forall_mem_cons.2 ⟨hgt, fun q hq => hgt.trans (hp.1 q hq)⟩
      exact ⟨[], p :: pairs, by simp [lookup_eq_none_of_above habove], by simp, habove, h⟩

theorem rebuild_residualOf {keys : List String} (hkeys : keys.Pairwise (· < ·)) {pairs : Pairs}
    (h : Canonical pairs) :
    rebuild (keys.zip (keys.map fun key => pairs.lookup key)) (residualOf keys pairs) = pairs := by
  induction keys generalizing pairs with
  | nil => simp [rebuild, residualOf]
  | cons key keys ih =>
    obtain ⟨below, above, he, hbelow, habove, hcan⟩ := h.around key
    have hlater := List.pairwise_cons.1 hkeys
    -- later keys are looked up among the later pairs
    have hlookup : ∀ later ∈ keys, pairs.lookup later = above.lookup later := by
      intro later hmem
      rw [he]
      refine lookup_append_of_below fun p hp => ?_
      rcases List.mem_append.1 hp with hp | hp
      · exact (hbelow p hp).trans (hlater.1 later hmem)
      · obtain ⟨value, -, rfl⟩ : ∃ value, pairs.lookup key = some value ∧ (key, value) = p := by
          simpa [Option.mem_toList] using hp
        exact hlater.1 later hmem
    have hres : residualOf (key :: keys) pairs = below ++ residualOf keys above := by
      conv_lhs => rw [he]
      rw [residualOf_append, residualOf_append, residualOf_below hkeys hbelow,
        residualOf_above habove]
      suffices residualOf (key :: keys) ((pairs.lookup key).map fun v => (key, v)).toList = [] by
        rw [this, List.append_nil]
      cases pairs.lookup key <;> simp [residualOf]
    have hsub : ∀ p ∈ residualOf keys above, ¬ p.1 < key := fun p hp =>
      lt_asymm (habove p (List.mem_of_mem_filter hp))
    have htake : (below ++ residualOf keys above).takeWhile (fun p => p.1 < key) = below := by
      rw [List.takeWhile_append_of_pos (by simpa using hbelow)]
      cases hr : residualOf keys above with
      | nil => simp
      | cons p rest =>
        have := hsub p (by rw [hr]; exact List.mem_cons_self)
        rw [List.takeWhile_cons_of_neg (by rwa [decide_eq_true_eq]), List.append_nil]
    have hdrop : (below ++ residualOf keys above).dropWhile (fun p => p.1 < key)
        = residualOf keys above := by
      rw [List.dropWhile_append_of_pos (by simpa using hbelow)]
      cases hr : residualOf keys above with
      | nil => simp
      | cons p rest =>
        have := hsub p (by rw [hr]; exact List.mem_cons_self)
        rw [List.dropWhile_cons_of_neg (by rwa [decide_eq_true_eq])]
    have hcolumns : (keys.map fun key => pairs.lookup key)
        = keys.map fun key => above.lookup key := List.map_congr_left hlookup
    rw [List.map_cons, List.zip_cons_cons, rebuild, hres, htake, hdrop, hcolumns,
      ih hlater.2 hcan]
    exact he.symm

/-- A row read back has the metadata that was written. -/
theorem rebuild_columns {metadataKeys parsedKeys : List String}
    (hkeys : metadataKeys.Pairwise (· < ·)) {row : Row} (h : Canonical row.structuredMetadata)
    (fields : Option Pairs) :
    structuredMetadataOf text metadataKeys (rowCells text metadataKeys parsedKeys row fields)
      = some row.structuredMetadata := by
  have hr := rebuild_residualOf hkeys h
  simp only [structuredMetadataOf, rowCells]
  cases hres : residualOf metadataKeys row.structuredMetadata with
  | nil =>
    rw [hres] at hr
    simpa using hr
  | cons p rest =>
    rw [hres] at hr
    simpa [text.read_write] using hr

/-! ### Pairs as numbers -/

/-- Names and values as the numbers of their characters. -/
def pairCodes (pairs : Pairs) : List (List ℕ × List ℕ) :=
  pairs.map fun p => (p.1.toList.map Char.toNat, p.2.toList.map Char.toNat)

def pairsOfCodes (codes : List (List ℕ × List ℕ)) : Pairs :=
  codes.map fun c => (String.ofList (c.1.map Char.ofNat), String.ofList (c.2.map Char.ofNat))

theorem pairsOfCodes_pairCodes (pairs : Pairs) : pairsOfCodes (pairCodes pairs) = pairs := by
  rw [pairsOfCodes, pairCodes, List.map_map]
  exact List.map_id'' (fun p => by simp [Function.comp_def]) pairs

end Part

end Obsy
