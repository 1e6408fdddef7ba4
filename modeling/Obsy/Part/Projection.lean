import Mathlib.Data.Finset.Basic
import Obsy.Part.Reader

/-!
# Reading some of the columns

A scan names the columns it needs, and reads each of them at its place among those it reads.

* `ScanProjection.build`: the columns of a scan and their places.
* `ScanProjection.metadataOf`: the metadata of a row from the columns that were read.
* `metadataOf_project`: it has the pairs of all keys, or those that were asked for.
-/

namespace Obsy

namespace Part

/-! ### The columns of a file -/

/-- A value of a column. -/
inductive Leaf where
  | text (value : Option String)
  | ns (value : Nanos)
deriving DecidableEq

/-- A row in the order of the columns in the file. -/
def Cells.leaves (cells : Cells) : List Leaf :=
  [.text (some cells.tenant), .ns cells.timestampNs, .text (some cells.msg)] ++
    cells.metadata.map .text ++ cells.parsed.map .text ++ [.text cells.structuredMetadata]

/-- The values of a row in some columns. -/
def projectRow (leaves : List ℕ) (cells : Cells) : List Leaf :=
  leaves.map fun leaf => cells.leaves.getD leaf (.text none)

/-- The text at a place of a projected row. -/
def textAt (batch : List Leaf) (index : ℕ) : Option String :=
  match batch[index]? with
  | some (.text value) => value
  | _ => none

/-- The keys of columns: sorted, each of them once. -/
structure ColumnKeys where
  keys : List String
  sorted : keys.Pairwise (· < ·)

/-! ### Projections -/

inductive MetadataProjection where
  | all
  | named (names : Finset String)
deriving DecidableEq

/-- What a scan needs of a row. -/
structure ColumnSet where
  line : Bool
  metadata : MetadataProjection
  /-- Whether the columns of the parsed lines are to be read, too. -/
  parsedFields : Bool
deriving DecidableEq

def ColumnSet.all : ColumnSet := ⟨true, .all, false⟩

/-- Where each column is in a projected row. -/
structure ScanProjection where
  /-- The columns of the file that are read. -/
  leaves : List ℕ
  msg : Option ℕ
  /-- A metadata key, by its index, and the place of its column. -/
  metadata : List (ℕ × ℕ)
  parsed : List (ℕ × ℕ)
  residual : Option ℕ
deriving DecidableEq

namespace ScanProjection

/-- The metadata keys, by their indices, that have a column a scan reads. -/
def metadataLeaves (metadataKeys : ColumnKeys) (columns : ColumnSet) : List (ℕ × ℕ) :=
  match columns.metadata with
  | .all => (List.range metadataKeys.keys.length).map fun key => (key, 3 + key)
  | .named names =>
    (metadataKeys.keys.zipIdx.filter fun k => k.1 ∈ names).map fun k => (k.2, 3 + k.2)

/-- Whether a pair that a scan needs may be in the residual. -/
def includeResidual (metadataKeys : ColumnKeys) (columns : ColumnSet) : Bool :=
  match columns.metadata with
  | .all => true
  | .named names => decide (∃ name ∈ names, name ∉ metadataKeys.keys)

/-- The columns of the parsed lines, unless some fields have none. -/
def parsedLeaves (metadataKeys parsedKeys : ColumnKeys) (columns : ColumnSet) : List (ℕ × ℕ) :=
  if columns.parsedFields && decide (parsedKeys.keys.length < maxMetadataColumns) then
    (List.range parsedKeys.keys.length).map fun key => (key, 3 + metadataKeys.keys.length + key)
  else []

/-- The column of the residual, after all others. -/
def residualLeaf (metadataKeys parsedKeys : ColumnKeys) : ℕ :=
  3 + metadataKeys.keys.length + parsedKeys.keys.length

/-- The columns a scan reads, in the order of the file. -/
def leavesOf (metadataKeys parsedKeys : ColumnKeys) (columns : ColumnSet) : List ℕ :=
  let needed := [0, 1] ++ (if columns.line then [2] else []) ++
    (metadataLeaves metadataKeys columns).map Prod.snd ++
    (parsedLeaves metadataKeys parsedKeys columns).map Prod.snd ++
    (if includeResidual metadataKeys columns then [residualLeaf metadataKeys parsedKeys] else [])
  (needed.mergeSort (· ≤ ·)).dedup

def build (metadataKeys parsedKeys : ColumnKeys) (columns : ColumnSet) : ScanProjection :=
  let leaves := leavesOf metadataKeys parsedKeys columns
  { leaves
    msg := if columns.line then some (leaves.idxOf 2) else none
    metadata := (metadataLeaves metadataKeys columns).map fun k => (k.1, leaves.idxOf k.2)
    parsed := (parsedLeaves metadataKeys parsedKeys columns).map fun k => (k.1, leaves.idxOf k.2)
    residual :=
      if includeResidual metadataKeys columns then
        some (leaves.idxOf (residualLeaf metadataKeys parsedKeys))
      else none }

variable (text : PairText)

/-- The pairs of the residual of a row, or `none` where it cannot be read. -/
def residualPairs (projection : ScanProjection) (batch : List Leaf) : Option Pairs :=
  match projection.residual.bind (textAt batch) with
  | none => some []
  | some residual => text.read residual

/-- The metadata of a projected row: its columns and its residual, merged by key. -/
def metadataOf (metadataKeys : ColumnKeys) (projection : ScanProjection) (batch : List Leaf) :
    Option Pairs :=
  (projection.residualPairs text batch).map fun residual =>
    rebuild (projection.metadata.map fun k => (metadataKeys.keys.getD k.1 "", textAt batch k.2))
      residual

end ScanProjection

/-! ### Places -/

/-- A column that is read is at its place. -/
theorem textAt_projectRow {leaves : List ℕ} {leaf : ℕ} (h : leaf ∈ leaves) {cells : Cells}
    {value : Option String} (hleaf : cells.leaves[leaf]? = some (.text value)) :
    textAt (projectRow leaves cells) (leaves.idxOf leaf) = value := by
  have hget : leaves[leaves.idxOf leaf]? = some leaf := List.getElem?_idxOf h
  rw [textAt, projectRow, List.getElem?_map, hget, Option.map_some, List.getD_eq_getElem?_getD,
    hleaf]
  rfl

theorem Cells.leaves_metadata {cells : Cells} {key : ℕ} {value : Option String}
    (h : cells.metadata[key]? = some value) : cells.leaves[3 + key]? = some (.text value) := by
  have hlt : key < cells.metadata.length := (List.getElem?_eq_some_iff.1 h).1
  rw [Cells.leaves, List.append_assoc, List.append_assoc, List.getElem?_append_right (by simp),
    List.getElem?_append_left (by simpa using hlt)]
  simp [h]

theorem Cells.leaves_residual (cells : Cells) :
    cells.leaves[3 + cells.metadata.length + cells.parsed.length]?
      = some (.text cells.structuredMetadata) := by
  have hlen : 3 + cells.metadata.length + cells.parsed.length
      = ([Leaf.text (some cells.tenant), .ns cells.timestampNs, .text (some cells.msg)] ++
          cells.metadata.map Leaf.text ++ cells.parsed.map Leaf.text).length := by
    simp
    omega
  rw [Cells.leaves, hlen, List.getElem?_concat_length]

namespace ScanProjection

variable {metadataKeys parsedKeys : ColumnKeys} {columns : ColumnSet}

theorem mem_leavesOf {leaf : ℕ} :
    leaf ∈ leavesOf metadataKeys parsedKeys columns ↔
      leaf ∈ [0, 1] ++ (if columns.line then [2] else []) ++
        (metadataLeaves metadataKeys columns).map Prod.snd ++
        (parsedLeaves metadataKeys parsedKeys columns).map Prod.snd ++
        (if includeResidual metadataKeys columns then [residualLeaf metadataKeys parsedKeys]
          else []) := by
  rw [leavesOf, List.mem_dedup, List.mem_mergeSort]

theorem metadata_mem_leavesOf {k : ℕ × ℕ} (h : k ∈ metadataLeaves metadataKeys columns) :
    k.2 ∈ leavesOf metadataKeys parsedKeys columns := by
  rw [mem_leavesOf]
  simp only [List.mem_append, List.mem_map]
  exact .inl (.inl (.inr ⟨k, h, rfl⟩))

theorem residual_mem_leavesOf (h : includeResidual metadataKeys columns = true) :
    residualLeaf metadataKeys parsedKeys ∈ leavesOf metadataKeys parsedKeys columns := by
  rw [mem_leavesOf, if_pos h]
  simp

/-- The metadata keys whose columns are read. -/
def shownKeys (metadataKeys : ColumnKeys) (columns : ColumnSet) : List String :=
  match columns.metadata with
  | .all => metadataKeys.keys
  | .named names => metadataKeys.keys.filter (· ∈ names)

/-- The columns that are read are the columns of these keys. -/
theorem metadataLeaves_spec :
    (∀ k ∈ metadataLeaves metadataKeys columns,
      k.2 = 3 + k.1 ∧ k.1 < metadataKeys.keys.length) ∧
    (metadataLeaves metadataKeys columns).map (fun k => metadataKeys.keys.getD k.1 "")
      = shownKeys metadataKeys columns := by
  rw [metadataLeaves, shownKeys]
  cases columns.metadata with
  | all =>
    refine ⟨?_, ?_⟩
    · intro k hk
      obtain ⟨key, hkey, rfl⟩ := List.mem_map.1 hk
      exact ⟨rfl, List.mem_range.1 hkey⟩
    · dsimp only
      rw [List.map_map]
      refine List.ext_getElem (by simp) fun i hi hi' => ?_
      simp [List.getElem?_eq_getElem hi']
  | named names =>
    have hzip : ∀ k ∈ metadataKeys.keys.zipIdx, metadataKeys.keys[k.2]? = some k.1 := by
      intro k hk
      exact List.mem_zipIdx_iff_getElem?.1 hk
    refine ⟨?_, ?_⟩
    · intro k hk
      obtain ⟨named, hnamed, rfl⟩ := List.mem_map.1 hk
      have hget := hzip named (List.mem_of_mem_filter hnamed)
      exact ⟨rfl, (List.getElem?_eq_some_iff.1 hget).1⟩
    · dsimp only
      have hfst : (metadataKeys.keys.zipIdx.filter fun k => k.1 ∈ names).map Prod.fst
          = metadataKeys.keys.filter (· ∈ names) := by
        conv_rhs => rw [← List.zipIdx_map_fst 0 metadataKeys.keys, List.filter_map]
        rfl
      rw [List.map_map, ← hfst]
      refine List.map_congr_left fun k hk => ?_
      have hget := hzip k (List.mem_of_mem_filter hk)
      simp [hget]

theorem shownKeys_sublist : (shownKeys metadataKeys columns).Sublist metadataKeys.keys := by
  rw [shownKeys]
  cases columns.metadata with
  | all => exact List.Sublist.refl _
  | named names => exact List.filter_sublist

end ScanProjection

/-! ### The pairs of some keys -/

theorem lookup_filter {keep : String → Bool} {key : String} (hkey : keep key = true)
    (pairs : Pairs) : (pairs.filter fun p => keep p.1).lookup key = pairs.lookup key := by
  induction pairs with
  | nil => rfl
  | cons p pairs ih =>
    by_cases hp : keep p.1 = true
    · rw [List.filter_cons, if_pos hp, List.lookup_cons, List.lookup_cons, ih]
    · have hne : (key == p.1) = false := beq_false_of_ne fun h => hp (h ▸ hkey)
      rw [List.filter_cons, if_neg hp, List.lookup_cons, hne, ih]

/-- Columns of some keys, with a residual of kept pairs, give the kept pairs. -/
theorem rebuild_filter {shown : List String} (hshown : shown.Pairwise (· < ·)) {pairs : Pairs}
    (h : Canonical pairs) {keep : String → Bool} (hkeep : ∀ key ∈ shown, keep key = true) :
    rebuild (shown.map fun key => (key, pairs.lookup key))
      (residualOf shown (pairs.filter fun p => keep p.1)) = pairs.filter fun p => keep p.1 := by
  have hcan : Canonical (pairs.filter fun p => keep p.1) := h.filter _
  have hcolumns : (shown.map fun key => (key, pairs.lookup key))
      = shown.zip (shown.map fun key => (pairs.filter fun p => keep p.1).lookup key) := by
    rw [← List.map_prod_left_eq_zip]
    refine List.map_congr_left fun key hkey => ?_
    rw [lookup_filter (hkeep key hkey)]
  rw [hcolumns]
  exact rebuild_residualOf hshown hcan

namespace ScanProjection

variable {metadataKeys parsedKeys : ColumnKeys} {columns : ColumnSet}

/-- Whether a scan gets the pairs of a key: those with a column it reads, and, where it reads the
residual, all those without a column. -/
def keeps (metadataKeys : ColumnKeys) (columns : ColumnSet) (key : String) : Bool :=
  key ∈ shownKeys metadataKeys columns ||
    (includeResidual metadataKeys columns && decide (key ∉ metadataKeys.keys))

variable (text : PairText)

theorem columns_project {row : Row} (fields : Option Pairs) :
    ((build metadataKeys parsedKeys columns).metadata.map fun k =>
      (metadataKeys.keys.getD k.1 "",
        textAt (projectRow (leavesOf metadataKeys parsedKeys columns)
          (rowCells text metadataKeys.keys parsedKeys.keys row fields)) k.2))
      = (shownKeys metadataKeys columns).map fun key =>
          (key, row.structuredMetadata.lookup key) := by
  obtain ⟨hleaves, hkeys⟩ := @metadataLeaves_spec metadataKeys columns
  rw [← hkeys, List.map_map, build, List.map_map]
  refine List.map_congr_left fun k hk => ?_
  obtain ⟨hleaf, hlt⟩ := hleaves k hk
  have hcell : (rowCells text metadataKeys.keys parsedKeys.keys row fields).metadata[k.1]?
      = some (row.structuredMetadata.lookup (metadataKeys.keys.getD k.1 "")) := by
    simp [rowCells, List.getElem?_eq_getElem hlt]
  have hat := textAt_projectRow (@metadata_mem_leavesOf metadataKeys parsedKeys columns k hk)
    (hleaf ▸ Cells.leaves_metadata hcell)
  simp only [Function.comp_apply, hat]

/-- The pairs of the residual that a scan reads. -/
theorem residualPairs_project {row : Row} (fields : Option Pairs) :
    (build metadataKeys parsedKeys columns).residualPairs text
      (projectRow (leavesOf metadataKeys parsedKeys columns)
        (rowCells text metadataKeys.keys parsedKeys.keys row fields))
      = some (if includeResidual metadataKeys columns then
          residualOf metadataKeys.keys row.structuredMetadata else []) := by
  rw [residualPairs, build]
  by_cases hread : includeResidual metadataKeys columns = true
  · have hleaf := (rowCells text metadataKeys.keys parsedKeys.keys row fields).leaves_residual
    have hlen : 3 + (rowCells text metadataKeys.keys parsedKeys.keys row fields).metadata.length +
        (rowCells text metadataKeys.keys parsedKeys.keys row fields).parsed.length
          = residualLeaf metadataKeys parsedKeys := by
      simp [rowCells, residualLeaf]
    rw [hlen] at hleaf
    simp only [if_pos hread, Option.bind_some]
    rw [textAt_projectRow (residual_mem_leavesOf hread) hleaf]
    -- a row without a residual has no pair but those of the columns
    simp only [rowCells]
    cases hres : residualOf metadataKeys.keys row.structuredMetadata with
    | nil => rfl
    | cons p rest => exact text.read_write _
  · simp [hread]

/-- A scan gets the pairs of the keys it is to get, in their order. -/
theorem metadataOf_project {row : Row} (h : Canonical row.structuredMetadata)
    (fields : Option Pairs) :
    (build metadataKeys parsedKeys columns).metadataOf text metadataKeys
      (projectRow (leavesOf metadataKeys parsedKeys columns)
        (rowCells text metadataKeys.keys parsedKeys.keys row fields))
      = some (row.structuredMetadata.filter fun p => keeps metadataKeys columns p.1) := by
  have hshown : (shownKeys metadataKeys columns).Pairwise (· < ·) :=
    metadataKeys.sorted.sublist shownKeys_sublist
  have hresidual : (if includeResidual metadataKeys columns then
      residualOf metadataKeys.keys row.structuredMetadata else [])
      = residualOf (shownKeys metadataKeys columns)
          (row.structuredMetadata.filter fun p => keeps metadataKeys columns p.1) := by
    have hsub : ∀ key ∈ shownKeys metadataKeys columns, key ∈ metadataKeys.keys :=
      fun key hkey => shownKeys_sublist.subset hkey
    rw [residualOf, residualOf, List.filter_filter]
    by_cases hread : includeResidual metadataKeys columns = true
    · rw [if_pos hread]
      refine List.filter_congr fun p _ => ?_
      by_cases hp : p.1 ∈ shownKeys metadataKeys columns
      · simp [keeps, hp, hsub p.1 hp]
      · simp [keeps, hp, hread]
    · rw [if_neg hread]
      refine (List.filter_eq_nil_iff.2 fun p _ => ?_).symm
      by_cases hp : p.1 ∈ shownKeys metadataKeys columns
      · simp [hp]
      · simp [keeps, hp, hread]
  rw [metadataOf, residualPairs_project, columns_project, Option.map_some, hresidual]
  congr 1
  refine rebuild_filter hshown h fun key hkey => ?_
  simp [keeps, hkey]

theorem keeps_all (key : String) (parsedFields line : Bool) :
    keeps metadataKeys ⟨line, .all, parsedFields⟩ key = true := by
  by_cases h : key ∈ metadataKeys.keys
  · simp [keeps, shownKeys, h]
  · simp [keeps, includeResidual, h]

theorem keeps_named {names : Finset String} {key : String} (hkey : key ∈ names)
    (parsedFields line : Bool) :
    keeps metadataKeys ⟨line, .named names, parsedFields⟩ key = true := by
  by_cases h : key ∈ metadataKeys.keys
  · simp [keeps, shownKeys, h, hkey]
  · have hread : ∃ name ∈ names, name ∉ metadataKeys.keys := ⟨key, hkey, h⟩
    simp [keeps, includeResidual, h, hread]

end ScanProjection

/-! ### Rows of a row group -/

/-- The metadata that a scan of some columns rebuilds of a row. -/
def scanMetadata (text : PairText) (metadataKeys parsedKeys : ColumnKeys) (columns : ColumnSet)
    (cells : Cells) : Option Pairs :=
  let projection := ScanProjection.build metadataKeys parsedKeys columns
  projection.metadataOf text metadataKeys (projectRow projection.leaves cells)

/-- Every row of a row group comes back with all its pairs, or with all pairs whose key was asked
for, in the order of their keys. -/
theorem scanMetadata_rowGroupBatch (text : PairText) (metadataKeys parsedKeys : ColumnKeys)
    {rows : List (Row × Option Pairs)} (h : ∀ r ∈ rows, Canonical r.1.structuredMetadata)
    (line parsedFields : Bool) :
    List.Forall₂ (fun r cells =>
      scanMetadata text metadataKeys parsedKeys ⟨line, .all, parsedFields⟩ cells
        = some r.1.structuredMetadata ∧
      ∀ names, ∃ pairs,
        scanMetadata text metadataKeys parsedKeys ⟨line, .named names, parsedFields⟩ cells
          = some pairs ∧ Canonical pairs ∧ pairs.Sublist r.1.structuredMetadata ∧
        ∀ p ∈ r.1.structuredMetadata, p.1 ∈ names → p ∈ pairs)
      rows (rowGroupBatch text metadataKeys.keys parsedKeys.keys rows) := by
  rw [rowGroupBatch, List.forall₂_map_right_iff, List.forall₂_same]
  intro r hr
  have hcan := h r hr
  refine ⟨?_, fun names => ⟨_, ScanProjection.metadataOf_project text hcan r.2, hcan.filter _,
    List.filter_sublist, fun p hp hname => ?_⟩⟩
  · refine (ScanProjection.metadataOf_project text hcan r.2).trans ?_
    congr 1
    exact List.filter_eq_self.2 fun p _ => ScanProjection.keeps_all p.1 parsedFields line
  · exact List.mem_filter.2 ⟨hp, ScanProjection.keeps_named hname parsedFields line⟩

/-- Pairs as JSON where there is one of them, and as so many strokes elsewhere. -/
def sampleText : PairText where
  write pairs :=
    if pairs = [("host", "a")] then "[[\"host\",\"a\"]]"
    else String.ofList (List.replicate (Encodable.encode (pairCodes pairs)) '|')
  read text :=
    if text = "[[\"host\",\"a\"]]" then some [("host", "a")]
    else (Encodable.decode text.toList.length).map pairsOfCodes
  read_write pairs := by
    by_cases h : pairs = [("host", "a")]
    · simp [h]
    · have hne : String.ofList (List.replicate (Encodable.encode (pairCodes pairs)) '|')
          ≠ "[[\"host\",\"a\"]]" := by
        intro heq
        have hmem : '[' ∈ List.replicate (Encodable.encode (pairCodes pairs)) '|' := by
          rw [← String.toList_ofList (l := List.replicate _ '|'), heq]
          decide
        exact absurd (List.eq_of_mem_replicate hmem) (by decide)
      simp [h, hne, pairsOfCodes_pairCodes]

def sampleKeys : ColumnKeys := ⟨["app"], List.pairwise_singleton _ _⟩

theorem scanMetadata_rowGroupBatch_sample :
    let row : Row := ⟨"tenant", .one, "up", [("app", "web"), ("host", "a")]⟩
    scanMetadata sampleText sampleKeys ⟨[], .nil⟩ ⟨true, .all, false⟩
      (rowCells sampleText sampleKeys.keys [] row none) = some row.structuredMetadata := by
  intro row
  have hcan : ∀ r ∈ [(row, (none : Option Pairs))], Canonical r.1.structuredMetadata := by
    decide +kernel
  exact (List.forall₂_cons.1
    (scanMetadata_rowGroupBatch sampleText sampleKeys ⟨[], .nil⟩ hcan true false)).1.1

end Part

end Obsy
