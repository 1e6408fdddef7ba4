import Obsy.Part.Format
import Obsy.Runs.Tiles

/-!
# The layout of a written part

Both writers lay sorted rows out the same way: row groups of one tenant each, in the order of the
rows, with their columns, filters and bounds.

* `Layout`: a part holds given row groups.
* `layout_writePartFiles`: the batch writer.
-/

namespace Obsy

namespace Part

open Logql (JsonValue)

/-! ### Lists of counts -/

theorem keys_tally (counts : List (String × ℕ)) :
    (tally counts).map Prod.fst = (counts.map Prod.fst).dedup.mergeSort (· ≤ ·) := by
  rw [tally, List.map_map]
  exact List.map_id _

theorem mem_keys_tally {counts : List (String × ℕ)} {key : String} :
    key ∈ (tally counts).map Prod.fst ↔ key ∈ counts.map Prod.fst := by
  rw [keys_tally, List.mem_mergeSort, List.mem_dedup]

theorem nodup_keys_tally (counts : List (String × ℕ)) : ((tally counts).map Prod.fst).Nodup := by
  rw [keys_tally]
  exact (List.mergeSort_perm _ _).nodup_iff.2 (List.nodup_dedup _)

/-- The keys chosen are in order. -/
theorem sorted_selectMetadataColumns {counts : List (String × ℕ)}
    (h : (counts.map Prod.fst).Nodup) :
    ((selectMetadataColumns counts).map Prod.fst).Pairwise (· < ·) := by
  have hle : (selectMetadataColumns counts).Pairwise fun a b => a.1 ≤ b.1 := by
    have : Std.Total fun a b : String × ℕ => a.1 ≤ b.1 := ⟨fun a b => le_total a.1 b.1⟩
    have : IsTrans (String × ℕ) fun a b => a.1 ≤ b.1 := ⟨fun _ _ _ h h' => h.trans h'⟩
    exact List.pairwise_mergeSort' (fun a b : String × ℕ => a.1 ≤ b.1) _
  have hnd : ((selectMetadataColumns counts).map Prod.fst).Nodup := by
    have hp := ((List.mergeSort_perm counts
      fun a b => b.2 < a.2 ∨ a.2 = b.2 ∧ a.1 ≤ b.1).map Prod.fst).nodup_iff.2 h
    have htake := hp.sublist ((List.take_sublist maxMetadataColumns _).map Prod.fst)
    exact ((List.mergeSort_perm _ _).map Prod.fst).nodup_iff.2 htake
  exact ((List.pairwise_map.2 hle).and hnd).imp fun {a b} hab => lt_of_le_of_ne hab.1 hab.2

theorem length_selectMetadataColumns_le (counts : List (String × ℕ)) :
    (selectMetadataColumns counts).length ≤ maxMetadataColumns := by
  rw [selectMetadataColumns, List.length_mergeSort]
  exact List.length_take_le _ _

/-- Fewer keys than there is room for are all of them. -/
theorem mem_selectMetadataColumns {counts : List (String × ℕ)}
    (h : (selectMetadataColumns counts).length < maxMetadataColumns) {entry : String × ℕ} :
    entry ∈ selectMetadataColumns counts ↔ entry ∈ counts := by
  rw [selectMetadataColumns, List.length_mergeSort, List.length_take, List.length_mergeSort] at h
  rw [selectMetadataColumns, List.mem_mergeSort,
    List.take_of_length_le (by rw [List.length_mergeSort]; omega), List.mem_mergeSort]

/-- Where there are keys, one is chosen. -/
theorem selectMetadataColumns_eq_nil {counts : List (String × ℕ)} :
    selectMetadataColumns counts = [] ↔ counts = [] := by
  rw [← List.length_eq_zero_iff, selectMetadataColumns, List.length_mergeSort, List.length_take,
    List.length_mergeSort, ← List.length_eq_zero_iff]
  simp only [maxMetadataColumns]
  omega

/-! ### Runs of rows -/

theorem flatten_runsOf {α : Type*} {size : ℕ} (hsize : 0 < size) (rows : List α) :
    (runsOf size rows.length rows).flatten = rows := by
  suffices h : ∀ fuel (rows : List α), rows.length ≤ fuel →
      (runsOf size fuel rows).flatten = rows from h _ rows le_rfl
  intro fuel
  induction fuel with
  | zero =>
    intro rows h
    rw [List.length_eq_zero_iff.1 (Nat.le_zero.1 h)]
    rfl
  | succ fuel ih =>
    intro rows h
    cases rows with
    | nil => rfl
    | cons row rows =>
      rw [runsOf, List.flatten_cons, ih _ (by rw [List.length_drop]; simp at h ⊢; omega),
        List.take_append_drop]

theorem of_mem_runsOf {α : Type*} {size fuel : ℕ} (hsize : 0 < size) {rows run : List α}
    (h : run ∈ runsOf size fuel rows) : run ≠ [] ∧ run.length ≤ size ∧ run ⊆ rows := by
  induction fuel generalizing rows with
  | zero => cases h
  | succ fuel ih =>
    cases rows with
    | nil => cases h
    | cons row rows =>
      rw [runsOf] at h
      rcases List.mem_cons.1 h with rfl | h
      · refine ⟨?_, List.length_take_le _ _, List.take_subset _ _⟩
        simp only [ne_eq, List.take_eq_nil_iff]
        rintro (h | h)
        · omega
        · cases h
      · obtain ⟨hne, hlen, hsub⟩ := ih h
        exact ⟨hne, hlen, fun x hx => List.drop_subset _ _ (hsub hx)⟩

/-- Row groups as both writers cut them. -/
structure Cut (rowGroupSize : ℕ) (groups : List (List ParsedRow)) : Prop where
  nonempty : ∀ group ∈ groups, group ≠ []
  short : ∀ group ∈ groups, group.length ≤ rowGroupSize
  oneTenant : ∀ group ∈ groups, ∀ r ∈ group, r.1.tenant = groupTenant group

/-- A row group ends with its tenant, unless it is full. -/
def Full (rowGroupSize : ℕ) (groups : List (List ParsedRow)) : Prop :=
  groups.IsChain fun group next =>
    groupTenant group = groupTenant next → group.length = rowGroupSize

theorem flatten_rowGroupBounds {rowGroupSize : ℕ} (hsize : 0 < rowGroupSize)
    (rows : List ParsedRow) : (rowGroupBounds rowGroupSize rows).flatten = rows :=
  Runs.flatten_flatMap_splitBy _ (flatten_runsOf hsize) rows

theorem groupTenant_eq {group : List ParsedRow} (hne : group ≠ [])
    (h : ∀ r ∈ group, ∀ r' ∈ group, r.1.tenant = r'.1.tenant) :
    ∀ r ∈ group, r.1.tenant = groupTenant group := by
  intro r hr
  cases group with
  | nil => exact absurd rfl hne
  | cons first rest => exact h r hr first List.mem_cons_self

theorem cut_rowGroupBounds {rowGroupSize : ℕ} (hsize : 0 < rowGroupSize) (rows : List ParsedRow) :
    Cut rowGroupSize (rowGroupBounds rowGroupSize rows) := by
  refine ⟨fun group hg => ?_, fun group hg => ?_, fun group hg => ?_⟩ <;>
    obtain ⟨segment, hsegment, hrun⟩ := List.mem_flatMap.1 hg <;>
    obtain ⟨hne, hlen, hsub⟩ := of_mem_runsOf hsize hrun
  · exact hne
  · exact hlen
  · refine groupTenant_eq hne fun r hr r' hr' => ?_
    exact Runs.eq_of_isChain_beq (fun r : ParsedRow => r.1.tenant)
      (List.isChain_of_mem_splitBy hsegment) (hsub hr) (hsub hr')

/-! ### Segments -/

/-- The segments cover the row groups from an ordinal on, each those of its tenant. -/
def Tiled : ℕ → List TenantSegment → List (List ParsedRow) → Prop
  | _, [], groups => groups = []
  | start, segment :: segments, groups => ∃ mine rest, groups = mine ++ rest ∧ mine ≠ [] ∧
      segment.rowGroupStart = start ∧ segment.rowGroupEnd = start + mine.length ∧
      (∀ group ∈ mine, groupTenant group = segment.tenant) ∧
      segment.rowCount = (mine.map List.length).sum ∧
      (mine.map minTs).min? = some segment.minTsNs ∧
      (mine.map maxTs).max? = some segment.maxTsNs ∧
      Tiled (start + mine.length) segments rest

theorem min?_append_singleton {α : Type*} [LinearOrder α] {xs : List α} {lo : α}
    (h : xs.min? = some lo) (x : α) : (xs ++ [x]).min? = some (min lo x) := by
  cases xs with
  | nil => cases h
  | cons y ys =>
    rw [← Option.some.inj h, List.cons_append, List.min?, List.foldl_append]
    rfl

theorem max?_append_singleton {α : Type*} [LinearOrder α] {xs : List α} {hi : α}
    (h : xs.max? = some hi) (x : α) : (xs ++ [x]).max? = some (max hi x) := by
  cases xs with
  | nil => cases h
  | cons y ys =>
    rw [← Option.some.inj h, List.cons_append, List.max?, List.foldl_append]
    rfl

/-- One more row group keeps the segments in place. -/
theorem Tiled.addSegment {start : ℕ} {segments : List TenantSegment}
    {groups : List (List ParsedRow)} (h : Tiled start segments groups) (group : List ParsedRow) :
    Tiled start (addSegment segments (start + groups.length) group) (groups ++ [group]) := by
  induction segments generalizing start groups with
  | nil =>
    obtain rfl : groups = [] := h
    exact ⟨[group], [], rfl, by simp, rfl, rfl, by simp, by simp, rfl, rfl, rfl⟩
  | cons segment segments ih =>
    obtain ⟨mine, rest, rfl, hne, hstart, hend, htenant, hcount, hmin, hmax, hrest⟩ := h
    cases segments with
    | nil =>
      obtain rfl : rest = [] := hrest
      rw [List.append_nil]
      by_cases heq : segment.tenant = groupTenant group
      · simp only [Part.addSegment, List.getLast?_singleton, heq, ↓reduceIte]
        refine ⟨mine ++ [group], [], by simp, by simp, hstart, by simp; omega, ?_, ?_, ?_, ?_, rfl⟩
        · intro g hg
          rcases List.mem_append.1 hg with hg | hg
          · exact (htenant g hg).trans heq
          · rw [List.mem_singleton.1 hg]
        · simp [hcount]
        · rw [List.map_append]
          exact min?_append_singleton hmin _
        · rw [List.map_append]
          exact max?_append_singleton hmax _
      · simp only [Part.addSegment, List.getLast?_singleton, heq, ↓reduceIte]
        refine ⟨mine, [group], rfl, hne, hstart, hend, htenant, hcount, hmin, hmax, ?_⟩
        exact ⟨[group], [], rfl, by simp, rfl, rfl, by simp, by simp, rfl, rfl, rfl⟩
    | cons second segments =>
      have hlast : Part.addSegment (segment :: second :: segments)
          (start + (mine ++ rest).length) group
          = segment :: Part.addSegment (second :: segments)
              (start + mine.length + rest.length) group := by
        simp only [Part.addSegment, List.getLast?_cons_cons, List.dropLast_cons_cons,
          List.length_append, Nat.add_assoc]
        cases hl : (second :: segments).getLast? with
        | none => simp at hl
        | some last => by_cases ht : last.tenant = groupTenant group <;> simp [ht]
      rw [hlast]
      exact ⟨mine, rest ++ [group], by simp, hne, hstart, hend, htenant, hcount, hmin, hmax,
        ih hrest⟩

theorem tiled_foldl {start : ℕ} {segments : List TenantSegment} {before groups : List (List ParsedRow)}
    (h : Tiled start segments before) :
    Tiled start ((groups.zipIdx (start + before.length)).foldl
      (fun segments g => addSegment segments g.2 g.1) segments) (before ++ groups) := by
  induction groups generalizing before segments with
  | nil => simpa using h
  | cons group groups ih =>
    rw [List.zipIdx_cons, List.foldl_cons]
    have := ih (h.addSegment group)
    simpa [List.append_assoc, Nat.add_assoc] using this

theorem tiled_tenantSegments (groups : List (List ParsedRow)) :
    Tiled 0 (tenantSegments groups) groups := by
  have hnil : Tiled 0 [] [] := rfl
  exact tiled_foldl hnil

theorem tenantSegments_append (groups : List (List ParsedRow)) (group : List ParsedRow) :
    tenantSegments (groups ++ [group]) = addSegment (tenantSegments groups) groups.length group := by
  rw [tenantSegments, tenantSegments, List.zipIdx_append, List.foldl_append]
  simp

/-! ### Layouts -/

def LogPart.metadataKeys (part : LogPart) : List String := part.info.metadataColumns.map Prod.fst

/-- The fields of the lines of a part that have columns. -/
def LogPart.parsedKeys (part : LogPart) : List String := part.info.parsedColumns.map Prod.fst

variable (P : Platform)

/-- A part holds the given row groups. -/
structure Layout (part : LogPart) (groups : List (List ParsedRow)) : Prop where
  cut : Cut 65536 groups
  sorted : (groups.flatten.map Prod.fst).SortedLT
  canonical : ∀ r ∈ groups.flatten, Canonical r.1.structuredMetadata
  partition : ∀ r ∈ groups.flatten, partitionOf r.1.timestampNs = part.info.partition
  data : part.data = groups.map (rowGroupBatch P.text part.metadataKeys part.parsedKeys)
  index : groups.mapM (groupBlooms P) = some part.index
  rowCount : part.info.rowCount = groups.flatten.length
  rowGroupCount : part.info.rowGroupCount = groups.length
  rowGroupMinTs : part.info.rowGroupMinTs = groups.map minTs
  rowGroupMaxTs : part.info.rowGroupMaxTs = groups.map maxTs
  rowGroupRows : part.info.rowGroupRows = groups.map List.length
  tenants : part.info.tenants = tenantSegments groups
  metadataSorted : part.metadataKeys.Pairwise (· < ·)
  parsedSorted : part.parsedKeys.Pairwise (· < ·)
  /-- With room left, every key of the metadata has a column. -/
  metadataComplete : part.metadataKeys.length < maxMetadataColumns → ∀ r ∈ groups.flatten,
    ∀ p ∈ r.1.structuredMetadata, p.1 ∈ part.metadataKeys
  /-- With room left, every field of the lines has a column. -/
  parsedComplete : part.parsedKeys.length < maxMetadataColumns → ∀ r ∈ groups.flatten,
    ∀ fields, Logql.extractJson P.parseJson r.1.line = some fields →
      ∀ p ∈ fields, p.1 ∈ part.parsedKeys
  /-- The lines were parsed, or none of them had a field. -/
  fields : ∀ r ∈ groups.flatten, r.2 = Logql.extractJson P.parseJson r.1.line ∨
    part.parsedKeys = [] ∧ r.2 = none

variable {P} {part : LogPart} {groups : List (List ParsedRow)}

theorem Layout.fieldsComplete (h : Layout P part groups) {r : ParsedRow}
    (hr : r ∈ groups.flatten) : FieldsComplete P.parseJson r.1.line r.2 := by
  intro extracted hx name value hl
  rcases h.fields r hr with hf | ⟨hnil, -⟩
  · exact ⟨extracted, by rw [hf, hx], hl⟩
  · have hroom : part.parsedKeys.length < maxMetadataColumns := by
      rw [hnil]
      decide
    have := h.parsedComplete hroom r hr extracted hx _ (mem_of_lookup hl)
    rw [hnil] at this
    cases this

theorem minTs_le {group : List ParsedRow} {r : ParsedRow} (hr : r ∈ group) :
    minTs group ≤ r.1.timestampNs := by
  have hmem : r.1.timestampNs ∈ timestampsOf group := List.mem_map_of_mem hr
  cases hmin : (timestampsOf group).min? with
  | none => rw [List.min?_eq_none_iff.1 hmin] at hmem; cases hmem
  | some lo =>
    rw [minTs, hmin]
    exact (List.min?_eq_some_iff.1 hmin).2 _ hmem

theorem le_maxTs {group : List ParsedRow} {r : ParsedRow} (hr : r ∈ group) :
    r.1.timestampNs ≤ maxTs group := by
  have hmem : r.1.timestampNs ∈ timestampsOf group := List.mem_map_of_mem hr
  cases hmax : (timestampsOf group).max? with
  | none => rw [List.max?_eq_none_iff.1 hmax] at hmem; cases hmem
  | some hi =>
    rw [maxTs, hmax]
    exact (List.max?_eq_some_iff.1 hmax).2 _ hmem

/-! ### The batch writer -/

theorem map_parseRow (rows : List Row) : (rows.map (parseRow P)).map Prod.fst = rows := by
  rw [List.map_map]
  exact List.map_id rows

/-- The batch writer lays its rows out in the row groups it cut. -/
theorem layout_writePartFiles {id : String} {partition : ℤ} {rows : List Row} {rowGroupSize : ℕ}
    (hsize : 0 < rowGroupSize) (hsmall : rowGroupSize ≤ 65536) (hsorted : rows.SortedLT)
    (hcanonical : ∀ row ∈ rows, Canonical row.structuredMetadata)
    (hpartition : ∀ row ∈ rows, partitionOf row.timestampNs = partition)
    (h : writePartFiles P id partition rows rowGroupSize = some part) :
    Layout P part (rowGroupBounds rowGroupSize (rows.map (parseRow P))) := by
  obtain ⟨index, hindex, rfl⟩ := Option.map_eq_some_iff.1 h
  have hcut := cut_rowGroupBounds hsize (rows.map (parseRow P))
  have hflat := flatten_rowGroupBounds hsize (rows.map (parseRow P))
  have hrow : ∀ r ∈ (rowGroupBounds rowGroupSize (rows.map (parseRow P))).flatten,
      r.1 ∈ rows ∧ r = parseRow P r.1 := by
    intro r hr
    rw [hflat] at hr
    obtain ⟨row, hrow, rfl⟩ := List.mem_map.1 hr
    exact ⟨hrow, rfl⟩
  refine
    { cut := ⟨hcut.nonempty, fun g hg => (hcut.short g hg).trans hsmall, hcut.oneTenant⟩
      sorted := ?_
      canonical := fun r hr => hcanonical _ (hrow r hr).1
      partition := fun r hr => hpartition _ (hrow r hr).1
      data := rfl
      index := hindex
      rowCount := by rw [hflat, List.length_map]
      rowGroupCount := rfl
      rowGroupMinTs := rfl
      rowGroupMaxTs := rfl
      rowGroupRows := rfl
      tenants := rfl
      metadataSorted := sorted_selectMetadataColumns (nodup_keys_tally _)
      parsedSorted := sorted_selectMetadataColumns (nodup_keys_tally _)
      metadataComplete := ?_
      parsedComplete := ?_
      fields := fun r hr => .inl (congrArg Prod.snd (hrow r hr).2) }
  · rw [hflat, map_parseRow]
    exact hsorted
  · intro hroom r hr p hp
    rw [LogPart.metadataKeys, List.length_map] at hroom
    have hkey : p.1 ∈ (metadataColumnCounts rows).map Prod.fst := by
      rw [metadataColumnCounts, mem_keys_tally]
      exact List.mem_map.2 ⟨(p.1, 1), List.mem_flatMap.2
        ⟨r.1, (hrow r hr).1, List.mem_map.2 ⟨p, hp, rfl⟩⟩, rfl⟩
    obtain ⟨entry, hentry, he⟩ := List.mem_map.1 hkey
    exact List.mem_map.2 ⟨entry, (mem_selectMetadataColumns hroom).2 hentry, he⟩
  · intro hroom r hr fields hx p hp
    rw [LogPart.parsedKeys, List.length_map] at hroom
    have hkey : p.1 ∈ (parsedColumnCounts ((rows.map (parseRow P)).map Prod.snd)).map Prod.fst := by
      rw [parsedColumnCounts, mem_keys_tally]
      refine List.mem_map.2 ⟨(p.1, 1), List.mem_flatMap.2 ⟨some fields, ?_,
        List.mem_map.2 ⟨p, hp, rfl⟩⟩, rfl⟩
      rw [List.map_map]
      exact List.mem_map.2 ⟨r.1, (hrow r hr).1, hx⟩
    obtain ⟨entry, hentry, he⟩ := List.mem_map.1 hkey
    exact List.mem_map.2 ⟨entry, (mem_selectMetadataColumns hroom).2 hentry, he⟩

/-! ### The streaming writer -/

/-- A streaming writer has written some row groups and is filling the next one. -/
structure Filling (P : Platform) (writer : StreamingPartWriter)
    (groups : List (List ParsedRow)) : Prop where
  cut : Cut writer.rowGroupSize groups
  data : writer.data = groups.map (rowGroupBatch P.text writer.metadataKeys writer.parsedKeys)
  index : groups.mapM (groupBlooms P) = some writer.bloomSections
  rowGroupMinTs : writer.rowGroupMinTs = groups.map minTs
  rowGroupMaxTs : writer.rowGroupMaxTs = groups.map maxTs
  rowGroupRows : writer.rowGroupRows = groups.map List.length
  rowGroupTsMonotonic : writer.rowGroupTsMonotonic = groups.map tsMonotonic
  tenants : writer.tenants = tenantSegments groups
  short : writer.group.length ≤ writer.rowGroupSize
  oneTenant : ∀ r ∈ writer.group, r.1.tenant = groupTenant writer.group
  rowCount : writer.rowCount = (groups.flatten ++ writer.group).length
  minTsNs : writer.minTsNs = (timestampsOf (groups.flatten ++ writer.group)).foldl min Nanos.max
  maxTsNs : writer.maxTsNs = (timestampsOf (groups.flatten ++ writer.group)).foldl max Nanos.min
  fields : ∀ r ∈ groups.flatten ++ writer.group, r.2 = writer.parsed P r.1

theorem filling_create (metadataKeys parsedKeys : List String) (rowGroupSize : ℕ) :
    Filling P (.create metadataKeys parsedKeys rowGroupSize) [] where
  cut := ⟨by simp, by simp, by simp⟩
  data := rfl
  index := rfl
  rowGroupMinTs := rfl
  rowGroupMaxTs := rfl
  rowGroupRows := rfl
  rowGroupTsMonotonic := rfl
  tenants := rfl
  short := Nat.zero_le _
  oneTenant := fun r hr => by cases hr
  rowCount := rfl
  minTsNs := rfl
  maxTsNs := rfl
  fields := fun r hr => by cases hr

theorem mapM_append_singleton {α β : Type*} {f : α → Option β} {items : List α}
    {results : List β} (h : items.mapM f = some results) {item : α} {result : β}
    (hi : f item = some result) : (items ++ [item]).mapM f = some (results ++ [result]) := by
  simp [h, hi]

/-- The row group being filled, if there is one. -/
def StreamingPartWriter.pending (writer : StreamingPartWriter) : List (List ParsedRow) :=
  if writer.group = [] then [] else [writer.group]

/-- No row group was ended early, and once there is one another is being filled. -/
def Snug (writer : StreamingPartWriter) (groups : List (List ParsedRow)) : Prop :=
  Full writer.rowGroupSize (groups ++ writer.pending) ∧ (writer.group = [] → groups = [])

theorem snug_create (metadataKeys parsedKeys : List String) (rowGroupSize : ℕ) :
    Snug (.create metadataKeys parsedKeys rowGroupSize) [] := ⟨.nil, fun _ => rfl⟩

/-- What a writer declares never changes. -/
def SameKeys (writer writer' : StreamingPartWriter) : Prop :=
  writer'.metadataKeys = writer.metadataKeys ∧ writer'.parsedKeys = writer.parsedKeys ∧
    writer'.rowGroupSize = writer.rowGroupSize

theorem SameKeys.parsed {writer writer' : StreamingPartWriter} (h : SameKeys writer writer')
    (row : Row) : writer'.parsed P row = writer.parsed P row := by
  rw [StreamingPartWriter.parsed, StreamingPartWriter.parsed, h.2.1]

/-- Writing a row group out keeps the rows and leaves no row pending. -/
theorem Filling.flushGroup {writer writer' : StreamingPartWriter} (h : Filling P writer groups)
    (hflush : writer.flushGroup P = some writer') :
    ∃ groups', Filling P writer' groups' ∧ groups'.flatten = groups.flatten ++ writer.group ∧
      writer'.group = [] ∧ SameKeys writer writer' ∧ groups' = groups ++ writer.pending := by
  rw [StreamingPartWriter.flushGroup] at hflush
  split at hflush
  case isTrue hempty =>
    obtain rfl := Option.some.inj hflush
    have hnil : writer.group = [] := List.isEmpty_iff.1 hempty
    exact ⟨groups, h, by rw [hnil, List.append_nil], hnil, ⟨rfl, rfl, rfl⟩,
      by rw [StreamingPartWriter.pending, if_pos hnil, List.append_nil]⟩
  case isFalse hne =>
    obtain ⟨blooms, hblooms, rfl⟩ := Option.map_eq_some_iff.1 hflush
    have hflat : (groups ++ [writer.group]).flatten = groups.flatten ++ writer.group := by simp
    have hsome : writer.group ≠ [] := fun hnil => hne (List.isEmpty_iff.2 hnil)
    refine ⟨groups ++ [writer.group], ?_, hflat, rfl, ⟨rfl, rfl, rfl⟩,
      by rw [StreamingPartWriter.pending, if_neg hsome]⟩
    exact
      { cut :=
          { nonempty := by
              intro group hg
              rcases List.mem_append.1 hg with hg | hg
              · exact h.cut.nonempty group hg
              · rw [List.mem_singleton.1 hg]
                exact fun hnil => hne (List.isEmpty_iff.2 hnil)
            short := by
              intro group hg
              rcases List.mem_append.1 hg with hg | hg
              · exact h.cut.short group hg
              · rw [List.mem_singleton.1 hg]
                exact h.short
            oneTenant := by
              intro group hg
              rcases List.mem_append.1 hg with hg | hg
              · exact h.cut.oneTenant group hg
              · rw [List.mem_singleton.1 hg]
                exact h.oneTenant }
        data := by simp [h.data]
        index := mapM_append_singleton h.index hblooms
        rowGroupMinTs := by simp [h.rowGroupMinTs]
        rowGroupMaxTs := by simp [h.rowGroupMaxTs]
        rowGroupRows := by simp [h.rowGroupRows]
        rowGroupTsMonotonic := by simp [h.rowGroupTsMonotonic]
        tenants := by
          rw [tenantSegments_append, ← h.tenants]
          simp [h.rowGroupMinTs]
        short := Nat.zero_le _
        oneTenant := fun r hr => by cases hr
        rowCount := by rw [hflat, List.append_nil]; exact h.rowCount
        minTsNs := by rw [hflat, List.append_nil]; exact h.minTsNs
        maxTsNs := by rw [hflat, List.append_nil]; exact h.maxTsNs
        fields := by rw [hflat, List.append_nil]; exact h.fields }

/-- A row group that a row ends is full or of another tenant. -/
theorem full_cut {writer : StreamingPartWriter} (hshort : writer.group.length ≤ writer.rowGroupSize)
    (hsize : 0 < writer.rowGroupSize) {r : ParsedRow}
    (hcut : ((writer.group.head?.any fun first => first.1.tenant != r.1.tenant) ||
      decide (writer.rowGroupSize ≤ writer.group.length)) = true)
    (hsnug : Snug writer groups) :
    Full writer.rowGroupSize (groups ++ writer.pending ++ [[r]]) := by
  rw [Full, List.isChain_append]
  refine ⟨hsnug.1, .singleton _, fun last hlast next hnext hsame => ?_⟩
  obtain rfl : [r] = next := by simpa using hnext
  cases hg : writer.group with
  | nil =>
    rw [hg] at hcut
    simp only [List.head?_nil, Option.any_none, List.length_nil, Nat.le_zero, Bool.false_or,
      decide_eq_true_eq] at hcut
    omega
  | cons first rest =>
    have hpending : writer.pending = [writer.group] := if_neg (by simp [hg])
    obtain rfl : writer.group = last := by
      rw [hpending, List.getLast?_append_of_ne_nil _ (by simp)] at hlast
      simpa using hlast
    rw [Bool.or_eq_true, decide_eq_true_eq] at hcut
    rcases hcut with hcut | hcut
    · rw [hg] at hcut hsame
      simp only [List.head?_cons, Option.any_some, bne_iff_ne] at hcut
      exact absurd hsame hcut
    · omega

/-- One more row of its tenant leaves a row group where it is. -/
theorem full_extend {writer : StreamingPartWriter} (hsnug : Snug writer groups) (r : ParsedRow) :
    Full writer.rowGroupSize (groups ++ [writer.group ++ [r]]) := by
  by_cases hnil : writer.group = []
  · rw [hsnug.2 hnil]
    exact .singleton _
  · have hfull := hsnug.1
    rw [StreamingPartWriter.pending, if_neg hnil, Full, List.isChain_append] at hfull
    rw [Full, List.isChain_append]
    refine ⟨hfull.1, .singleton _, fun last hlast next hnext hsame => ?_⟩
    obtain rfl : writer.group ++ [r] = next := by simpa using hnext
    refine hfull.2.2 last hlast writer.group (by simp) (hsame.trans ?_)
    obtain ⟨first, rest, hg⟩ := List.exists_cons_of_ne_nil hnil
    rw [hg]
    rfl

/-- The row pushed is the last one. -/
theorem Filling.push {writer writer' : StreamingPartWriter} {row : Row}
    (hsize : 0 < writer.rowGroupSize) (h : Filling P writer groups)
    (hpush : writer.push P row = some writer') :
    ∃ groups', Filling P writer' groups' ∧ groups'.flatten ++ writer'.group
      = groups.flatten ++ writer.group ++ [(row, writer.parsed P row)] ∧
      SameKeys writer writer' ∧ (Snug writer groups → Snug writer' groups') := by
  obtain ⟨middle, hmiddle, rfl⟩ := Option.map_eq_some_iff.1 hpush
  -- the row fits into the group it finds, which is empty where the last one was full
  obtain ⟨groups', hfill, hflat, hkeys, hroom, htenant, hsnug⟩ : ∃ groups',
      Filling P middle groups' ∧
      groups'.flatten ++ middle.group = groups.flatten ++ writer.group ∧
      SameKeys writer middle ∧ middle.group.length < middle.rowGroupSize ∧
      (∀ r ∈ middle.group, r.1.tenant = row.tenant) ∧
      (Snug writer groups → ∀ r : ParsedRow, r.1 = row →
        Full writer.rowGroupSize (groups' ++ [middle.group ++ [r]])) := by
    rw [StreamingPartWriter.cutBefore] at hmiddle
    split at hmiddle
    case isTrue hcut =>
      obtain ⟨groups', hfill, hflat, hnil, hkeys, rfl⟩ := h.flushGroup hmiddle
      refine ⟨_, hfill, by rw [hnil, List.append_nil, hflat], hkeys, ?_, ?_, ?_⟩
      · rw [hnil, hkeys.2.2]
        exact hsize
      · rw [hnil]
        exact fun r hr => by cases hr
      · rintro hsnug r rfl
        rw [hnil, List.nil_append]
        exact full_cut h.short hsize hcut hsnug
    case isFalse hcut =>
      obtain rfl := Option.some.inj hmiddle
      rw [Bool.or_eq_true, not_or] at hcut
      refine ⟨groups, h, rfl, ⟨rfl, rfl, rfl⟩, by simpa using hcut.2, fun r hr => ?_, ?_⟩
      · rw [h.oneTenant r hr, groupTenant]
        cases hg : writer.group with
        | nil => rw [hg] at hr; cases hr
        | cons first rest =>
          have := hcut.1
          rw [hg] at this
          simpa using this
      · rintro hsnug r -
        exact full_extend hsnug r
  have hnext : groups'.flatten ++ (middle.group ++ [(row, middle.parsed P row)])
      = groups.flatten ++ writer.group ++ [(row, writer.parsed P row)] := by
    rw [← List.append_assoc, hflat, hkeys.parsed]
  refine ⟨groups', ?_, hnext, hkeys, fun hw => ⟨?_, fun hnil => ?_⟩⟩
  rotate_left
  · have hpending : StreamingPartWriter.pending
        { middle with group := middle.group ++ [(row, middle.parsed P row)] }
          = [middle.group ++ [(row, middle.parsed P row)]] := if_neg (by simp)
    change Full middle.rowGroupSize (groups' ++ StreamingPartWriter.pending
      { middle with group := middle.group ++ [(row, middle.parsed P row)] })
    rw [hpending, hkeys.2.2]
    exact hsnug hw _ rfl
  · exact absurd hnil (by simp)
  exact
    { cut := hfill.cut
      data := hfill.data
      index := hfill.index
      rowGroupMinTs := hfill.rowGroupMinTs
      rowGroupMaxTs := hfill.rowGroupMaxTs
      rowGroupRows := hfill.rowGroupRows
      rowGroupTsMonotonic := hfill.rowGroupTsMonotonic
      tenants := hfill.tenants
      short := by simpa using Nat.succ_le_of_lt hroom
      oneTenant := by
        refine groupTenant_eq (by simp) fun r hr r' hr' => ?_
        have hall : ∀ r ∈ middle.group ++ [(row, middle.parsed P row)],
            r.1.tenant = row.tenant := by
          intro r hr
          rcases List.mem_append.1 hr with hr | hr
          · exact htenant r hr
          · rw [List.mem_singleton.1 hr]
        rw [hall r hr, hall r' hr']
      rowCount := by simp [hfill.rowCount, Nat.add_assoc]
      minTsNs := by simp [hfill.minTsNs, timestampsOf]
      maxTsNs := by simp [hfill.maxTsNs, timestampsOf]
      fields := by
        intro r hr
        rw [← List.append_assoc] at hr
        rcases List.mem_append.1 hr with hr | hr
        · exact hfill.fields r hr
        · rw [List.mem_singleton.1 hr]
          rfl }

/-- The part a streaming writer ends with holds the rows pushed. -/
theorem Filling.finish {writer : StreamingPartWriter} {id : String} {partition : ℤ}
    (h : Filling P writer groups) (hsmall : writer.rowGroupSize ≤ 65536)
    (hmetadata : writer.metadataKeys.Pairwise (· < ·))
    (hparsed : writer.parsedKeys.Pairwise (· < ·))
    (hsorted : ((groups.flatten ++ writer.group).map Prod.fst).SortedLT)
    (hcanonical : ∀ r ∈ groups.flatten ++ writer.group, Canonical r.1.structuredMetadata)
    (hpartition : ∀ r ∈ groups.flatten ++ writer.group, partitionOf r.1.timestampNs = partition)
    (hmetadataComplete : writer.metadataKeys.length < maxMetadataColumns →
      ∀ r ∈ groups.flatten ++ writer.group, ∀ p ∈ r.1.structuredMetadata,
        p.1 ∈ writer.metadataKeys)
    (hparsedComplete : writer.parsedKeys.length < maxMetadataColumns →
      ∀ r ∈ groups.flatten ++ writer.group, ∀ fields,
        Logql.extractJson P.parseJson r.1.line = some fields → ∀ p ∈ fields,
          p.1 ∈ writer.parsedKeys)
    (hfinish : writer.finish P id partition = some part) :
    ∃ groups', Layout P part groups' ∧ groups'.flatten = groups.flatten ++ writer.group := by
  obtain ⟨last, hflush, rfl⟩ := Option.map_eq_some_iff.1 hfinish
  obtain ⟨groups', hfill, hflat, hnil, hkeys, -⟩ := h.flushGroup hflush
  refine ⟨groups', ?_, hflat⟩
  rw [← hflat] at hsorted hcanonical hpartition hmetadataComplete hparsedComplete
  have hmk : ∀ counts : Logql.Assoc ℕ, (last.metadataKeys.map fun key =>
      (key, (counts.lookup key).getD 0)).map Prod.fst = last.metadataKeys := fun counts => by
    rw [List.map_map]
    exact List.map_id _
  have hpk : ∀ counts : Logql.Assoc ℕ, (last.parsedKeys.map fun key =>
      (key, (counts.lookup key).getD 0)).map Prod.fst = last.parsedKeys := fun counts => by
    rw [List.map_map]
    exact List.map_id _
  exact
    { cut := ⟨hfill.cut.nonempty, fun g hg => (hfill.cut.short g hg).trans
        (hkeys.2.2 ▸ hsmall), hfill.cut.oneTenant⟩
      sorted := hsorted
      canonical := hcanonical
      partition := hpartition
      data := by
        rw [LogPart.metadataKeys, LogPart.parsedKeys, hmk, hpk]
        exact hfill.data
      index := hfill.index
      rowCount := by
        have := hfill.rowCount
        rwa [hnil, List.append_nil] at this
      rowGroupCount := by
        dsimp only
        rw [hfill.rowGroupMinTs, List.length_map]
      rowGroupMinTs := hfill.rowGroupMinTs
      rowGroupMaxTs := hfill.rowGroupMaxTs
      rowGroupRows := hfill.rowGroupRows
      tenants := hfill.tenants
      metadataSorted := by
        rw [LogPart.metadataKeys, hmk, hkeys.1]
        exact hmetadata
      parsedSorted := by
        rw [LogPart.parsedKeys, hpk, hkeys.2.1]
        exact hparsed
      metadataComplete := by
        rw [LogPart.metadataKeys, hmk, hkeys.1]
        exact hmetadataComplete
      parsedComplete := by
        rw [LogPart.parsedKeys, hpk, hkeys.2.1]
        exact hparsedComplete
      fields := by
        intro r hr
        have hf := hfill.fields r (List.mem_append_left _ hr)
        rw [LogPart.parsedKeys, hpk]
        rw [StreamingPartWriter.parsed] at hf
        split at hf
        case isTrue hempty => exact .inr ⟨List.isEmpty_iff.1 hempty, hf⟩
        case isFalse => exact .inl hf }

end Part

end Obsy
