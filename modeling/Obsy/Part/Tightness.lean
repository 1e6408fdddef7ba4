import Mathlib.Order.Bounds.Basic
import Obsy.Part.Projection
import Obsy.Part.Writers

/-!
# What a part says of itself

The summary of a part is what a loader checks and what a scan goes by: which row groups are whose,
and from when to when their rows are.

* `Tight`: a summary that says of given rows exactly what holds of them.
* `Placed.tight`: what a writer recorded of its row groups is tight.
* `written_tight`: both writers record tight summaries.
-/

namespace Obsy

namespace Part

def stampsOf (rows : List Row) (tenant : String) : Set Nanos :=
  {ts | ∃ row ∈ rows, row.tenant = tenant ∧ row.timestampNs = ts}

/-- The summary of a part says exactly what holds of some rows, which are in the part. -/
structure Tight (P : Platform) (part : LogPart) (id : String) (partition : ℤ) (rowGroupSize : ℕ)
    (rows : List Row) (groups : List (List Row)) : Prop where
  /-- The loader takes it. -/
  loads : validateMetaFile id partition part.info = true
  holds : groups.flatten = rows
  data : part.data.map (List.map fun cells => (cells.tenant, cells.timestampNs, cells.msg))
    = groups.map (List.map fun row => (row.tenant, row.timestampNs, row.line))
  /-- A row group has rows of one tenant, and no more of them than allowed. -/
  group : ∀ group ∈ groups, group ≠ [] ∧ group.length ≤ rowGroupSize ∧
    ∃ tenant, ∀ row ∈ group, row.tenant = tenant
  /-- The bounds of a row group are the timestamps of its first and its last row in time. -/
  bounds : ∀ (g : ℕ) (group : List Row), groups[g]? = some group → ∃ lo hi,
    part.info.rowGroupMinTs[g]? = some lo ∧ part.info.rowGroupMaxTs[g]? = some hi ∧
      IsLeast {ts | ∃ row ∈ group, row.timestampNs = ts} lo ∧
      IsGreatest {ts | ∃ row ∈ group, row.timestampNs = ts} hi
  /-- The segments are in the order of their tenants. -/
  sorted : (part.info.tenants.map TenantSegment.tenant).Pairwise (· < ·)
  /-- Every row group is in one segment, and the segments have no others. -/
  covers : ∀ g, (∃ segment ∈ part.info.tenants,
    segment.rowGroupStart ≤ g ∧ g < segment.rowGroupEnd) ↔ g < groups.length
  disjoint : ∀ a ∈ part.info.tenants, ∀ b ∈ part.info.tenants, ∀ g,
    a.rowGroupStart ≤ g → g < a.rowGroupEnd → b.rowGroupStart ≤ g → g < b.rowGroupEnd → a = b
  segment : ∀ segment ∈ part.info.tenants, ∀ (g : ℕ) (group : List Row), groups[g]? = some group →
    ((∀ row ∈ group, row.tenant = segment.tenant) ↔
      segment.rowGroupStart ≤ g ∧ g < segment.rowGroupEnd)
  segmentBounds : ∀ segment ∈ part.info.tenants,
    IsLeast (stampsOf rows segment.tenant) segment.minTsNs ∧
      IsGreatest (stampsOf rows segment.tenant) segment.maxTsNs
  /-- A scan for a tenant reads rows of the tenant only. -/
  reaches : ∀ tenant lineFilters exactFields range,
    ∀ g ∈ selectRowGroups P part tenant lineFilters exactFields range,
      ∀ cells ∈ part.data.getD g [], cells.tenant = tenant

variable {P : Platform} {part : LogPart} {groups : List (List ParsedRow)}

/-! ### Bounds -/

theorem isLeast_minTs {group : List ParsedRow} (h : group ≠ []) :
    IsLeast {ts | ∃ r ∈ group, r.1.timestampNs = ts} (minTs group) := by
  refine ⟨exists_minTs h, ?_⟩
  rintro ts ⟨r, hr, rfl⟩
  exact minTs_le hr

theorem isGreatest_maxTs {group : List ParsedRow} (h : group ≠ []) :
    IsGreatest {ts | ∃ r ∈ group, r.1.timestampNs = ts} (maxTs group) := by
  refine ⟨exists_maxTs h, ?_⟩
  rintro ts ⟨r, hr, rfl⟩
  exact le_maxTs hr

/-- The timestamps of a segment are those of its tenant. -/
theorem Tiled.segment_bounds {start : ℕ} {segments : List TenantSegment}
    (h : Tiled start segments groups)
    (hlt : (segments.map TenantSegment.tenant).Pairwise (· < ·))
    (hnonempty : ∀ group ∈ groups, group ≠ [])
    (honeTenant : ∀ group ∈ groups, ∀ r ∈ group, r.1.tenant = groupTenant group)
    {segment : TenantSegment} (hs : segment ∈ segments) :
    IsLeast {ts | ∃ r ∈ groups.flatten, r.1.tenant = segment.tenant ∧ r.1.timestampNs = ts}
        segment.minTsNs ∧
      IsGreatest {ts | ∃ r ∈ groups.flatten, r.1.tenant = segment.tenant ∧ r.1.timestampNs = ts}
        segment.maxTsNs := by
  -- the bounds hold of all rows of the tenant
  have hbounds : ∀ r ∈ groups.flatten, r.1.tenant = segment.tenant →
      segment.minTsNs ≤ r.1.timestampNs ∧ r.1.timestampNs ≤ segment.maxTsNs := by
    intro r hr htenant
    obtain ⟨group, hg, hmem⟩ := List.mem_flatten.1 hr
    exact h.bounds hlt hs hg ((honeTenant group hg r hmem).symm.trans htenant) hmem
  -- and a row group of the segment has them
  obtain ⟨mine, hmine, hlo, hhi⟩ : ∃ mine ⊆ groups.filter fun group =>
      groupTenant group = segment.tenant,
      (mine.map minTs).min? = some segment.minTsNs ∧
        (mine.map maxTs).max? = some segment.maxTsNs := by
    induction segments generalizing start groups with
    | nil => cases hs
    | cons first segments ih =>
      obtain ⟨mine, rest, rfl, -, -, -, htenant, -, hlo, hhi, hrest⟩ := h
      rcases List.mem_cons.1 hs with rfl | hs
      · refine ⟨mine, fun group hg => ?_, hlo, hhi⟩
        exact List.mem_filter.2 ⟨List.mem_append_left _ hg, by simpa using htenant group hg⟩
      · obtain ⟨found, hsub, hfound⟩ := ih hrest (List.pairwise_cons.1 hlt).2
          (fun group hg => hnonempty group (List.mem_append_right _ hg))
          (fun group hg => honeTenant group (List.mem_append_right _ hg)) hs
          (fun r hr => hbounds r (by
            rw [List.flatten_append]
            exact List.mem_append_right _ hr))
        refine ⟨found, fun group hg => ?_, hfound⟩
        rw [List.filter_append]
        exact List.mem_append_right _ (hsub hg)
  have hof : ∀ group ∈ mine, group ∈ groups ∧ groupTenant group = segment.tenant := by
    intro group hg
    simpa using List.mem_filter.1 (hmine hg)
  refine ⟨⟨?_, ?_⟩, ?_, ?_⟩
  · obtain ⟨group, hg, heq⟩ := List.mem_map.1 (List.min?_eq_some_iff.1 hlo).1
    obtain ⟨hgroup, htenant⟩ := hof group hg
    obtain ⟨r, hr, hts⟩ := exists_minTs (hnonempty group hgroup)
    exact ⟨r, List.mem_flatten.2 ⟨group, hgroup, hr⟩,
      (honeTenant group hgroup r hr).trans htenant, hts.trans heq⟩
  · rintro ts ⟨r, hr, htenant, rfl⟩
    exact (hbounds r hr htenant).1
  · obtain ⟨group, hg, heq⟩ := List.mem_map.1 (List.max?_eq_some_iff.1 hhi).1
    obtain ⟨hgroup, htenant⟩ := hof group hg
    obtain ⟨r, hr, hts⟩ := exists_maxTs (hnonempty group hgroup)
    exact ⟨r, List.mem_flatten.2 ⟨group, hgroup, hr⟩,
      (honeTenant group hgroup r hr).trans htenant, hts.trans heq⟩
  · rintro ts ⟨r, hr, htenant, rfl⟩
    exact (hbounds r hr htenant).2

/-! ### Segments and row groups -/

/-- The segments have the row groups there are, each in one of them. -/
theorem Placed.segments (h : Placed part groups) {segment : TenantSegment}
    (hs : segment ∈ part.info.tenants) :
    segment.rowGroupEnd ≤ groups.length ∧
      ∀ g group, groups[g]? = some group → (groupTenant group = segment.tenant ↔
        segment.rowGroupStart ≤ g ∧ g < segment.rowGroupEnd) := by
  have hlt := h.tenants ▸ h.pairwise_tenants
  have hfind := find?_tenant hlt (h.tenants ▸ hs)
  have hspec := (tiled_tenantSegments groups).find?_spec hlt segment.tenant
  rw [hfind] at hspec
  obtain ⟨-, hend, hgroups⟩ := hspec
  refine ⟨by omega, fun g group hg => ?_⟩
  rw [hgroups g group hg, Nat.zero_add]

theorem Placed.exists_segment (h : Placed part groups) {g : ℕ} {group : List ParsedRow}
    (hg : groups[g]? = some group) : ∃ segment ∈ part.info.tenants,
      groupTenant group = segment.tenant ∧ segment.rowGroupStart ≤ g ∧ g < segment.rowGroupEnd := by
  rw [h.tenants]
  obtain ⟨segment, hs, howner, hlo, hhi, -⟩ :=
    (tiled_tenantSegments groups).tiles.exists_segment hg
  refine ⟨segment, hs, howner, ?_, ?_⟩
  · rw [Nat.zero_add] at hlo
    exact hlo
  · rw [Nat.zero_add] at hhi
    exact hhi

/-- A scan for a tenant selects row groups of the tenant. -/
theorem Placed.mem_selectRowGroups (h : Placed part groups) {tenant : String}
    {lineFilters : List Logql.LineFilter} {exactFields : List Logql.ExactFieldPredicate}
    {range : QueryTimeRange} {g : ℕ}
    (hg : g ∈ selectRowGroups P part tenant lineFilters exactFields range) :
    ∃ group, groups[g]? = some group ∧ groupTenant group = tenant := by
  rw [selectRowGroups] at hg
  split at hg
  case h_1 => cases hg
  case h_2 segment hfind =>
    have hs : segment ∈ part.info.tenants := List.mem_of_find?_eq_some hfind
    have htenant : segment.tenant = tenant := by simpa using List.find?_some hfind
    have hrange := List.mem_range'_1.1 (List.mem_of_mem_filter hg)
    obtain ⟨hend, hgroups⟩ := h.segments hs
    have hlt : g < groups.length := by omega
    refine ⟨groups[g], List.getElem?_eq_getElem hlt, ?_⟩
    rw [← htenant, hgroups g _ (List.getElem?_eq_getElem hlt)]
    omega

/-- What a writer recorded of its row groups is tight. -/
theorem Placed.tight (h : Placed part groups) (hne : groups.flatten ≠ []) {rowGroupSize : ℕ}
    (hshort : ∀ group ∈ groups, group.length ≤ rowGroupSize) {metadataKeys parsedKeys : List String}
    (hdata : part.data = groups.map (rowGroupBatch P.text metadataKeys parsedKeys)) :
    Tight P part part.info.id part.info.partition rowGroupSize (groups.flatten.map Prod.fst)
      (groups.map (List.map Prod.fst)) := by
  have hget : ∀ (g : ℕ) (group : List Row), (groups.map (List.map Prod.fst))[g]? = some group →
      ∃ parsed, groups[g]? = some parsed ∧ group = parsed.map Prod.fst := by
    intro g group hg
    rw [List.getElem?_map, Option.map_eq_some_iff] at hg
    obtain ⟨parsed, hparsed, rfl⟩ := hg
    exact ⟨parsed, hparsed, rfl⟩
  have hstamps : ∀ (rows : List ParsedRow) (p : Row → Prop),
      {ts | ∃ row ∈ rows.map Prod.fst, p row ∧ row.timestampNs = ts}
        = {ts | ∃ r ∈ rows, p r.1 ∧ r.1.timestampNs = ts} := by
    intro rows p
    ext ts
    simp
  refine
    { loads := h.validates hne
      holds := List.map_flatten.symm
      data := ?_
      group := ?_
      bounds := ?_
      sorted := h.pairwise_tenants
      covers := ?_
      disjoint := ?_
      segment := ?_
      segmentBounds := ?_
      reaches := ?_ }
  · rw [hdata, List.map_map, List.map_map]
    refine List.map_congr_left fun group _ => ?_
    simp only [Function.comp_apply, rowGroupBatch, List.map_map]
    rfl
  · intro group hg
    obtain ⟨parsed, hparsed, rfl⟩ := List.mem_map.1 hg
    refine ⟨?_, ?_, groupTenant parsed, fun row hrow => ?_⟩
    · rw [ne_eq, List.map_eq_nil_iff]
      exact h.nonempty parsed hparsed
    · rw [List.length_map]
      exact hshort parsed hparsed
    · obtain ⟨r, hr, rfl⟩ := List.mem_map.1 hrow
      exact h.oneTenant parsed hparsed r hr
  · intro g group hg
    obtain ⟨parsed, hparsed, rfl⟩ := hget g group hg
    have hsome := h.nonempty parsed (List.mem_of_getElem? hparsed)
    refine ⟨minTs parsed, maxTs parsed, ?_, ?_, ?_, ?_⟩
    · rw [h.rowGroupMinTs, List.getElem?_map, hparsed]
      rfl
    · rw [h.rowGroupMaxTs, List.getElem?_map, hparsed]
      rfl
    · simpa using isLeast_minTs hsome
    · simpa using isGreatest_maxTs hsome
  · intro g
    rw [List.length_map]
    constructor
    · rintro ⟨segment, hs, -, hlt⟩
      exact hlt.trans_le (h.segments hs).1
    · intro hlt
      obtain ⟨segment, hs, -, hin⟩ := h.exists_segment (List.getElem?_eq_getElem hlt)
      exact ⟨segment, hs, hin⟩
  · intro a ha b hb g hastart haend hbstart hbend
    have hlt : g < groups.length := haend.trans_le (h.segments ha).1
    have hget := List.getElem?_eq_getElem hlt
    -- both are the segment of the tenant of the row group
    have hfirst := ((h.segments ha).2 g _ hget).2 ⟨hastart, haend⟩
    have hsecond := ((h.segments hb).2 g _ hget).2 ⟨hbstart, hbend⟩
    have hfind := find?_tenant h.pairwise_tenants ha
    rw [← hfirst, hsecond, find?_tenant h.pairwise_tenants hb] at hfind
    exact (Option.some.inj hfind).symm
  · intro segment hs g group hg
    obtain ⟨parsed, hparsed, rfl⟩ := hget g group hg
    rw [← (h.segments hs).2 g parsed hparsed]
    have hmem := List.mem_of_getElem? hparsed
    constructor
    · intro hall
      obtain ⟨r, hr⟩ := List.exists_mem_of_ne_nil parsed (h.nonempty parsed hmem)
      exact (h.oneTenant parsed hmem r hr).symm.trans (hall r.1 (List.mem_map_of_mem hr))
    · rintro htenant row hrow
      obtain ⟨r, hr, rfl⟩ := List.mem_map.1 hrow
      exact (h.oneTenant parsed hmem r hr).trans htenant
  · intro segment hs
    have hlt := h.pairwise_tenants
    rw [h.tenants] at hlt hs
    rw [stampsOf, hstamps groups.flatten fun row => row.tenant = segment.tenant]
    exact (tiled_tenantSegments groups).segment_bounds hlt h.nonempty h.oneTenant hs
  · intro tenant lineFilters exactFields range g hg cells hcells
    obtain ⟨group, hgroup, htenant⟩ := h.mem_selectRowGroups hg
    rw [hdata, List.getD_eq_getElem?_getD, List.getElem?_map, hgroup] at hcells
    obtain ⟨r, hr, rfl⟩ := List.mem_map.1 hcells
    exact (h.oneTenant group (List.mem_of_getElem? hgroup) r hr).trans htenant

/-! ### The writers -/

variable {id : String} {partition : ℤ} {rows : List Row} {rowGroupSize : ℕ}

/-- The batch writer records its row groups. -/
theorem placed_writePartFiles (hsize : 0 < rowGroupSize) (hsorted : rows.Pairwise (· ≤ ·))
    (hpartition : ∀ row ∈ rows, partitionOf row.timestampNs = partition)
    (h : writePartFiles P id partition rows rowGroupSize = some part) :
    Placed part (rowGroupBounds rowGroupSize (rows.map (parseRow P))) := by
  obtain ⟨index, -, rfl⟩ := Option.map_eq_some_iff.1 h
  have hcut := cut_rowGroupBounds hsize (rows.map (parseRow P))
  have hflat := flatten_rowGroupBounds hsize (rows.map (parseRow P))
  exact
    { nonempty := hcut.nonempty
      oneTenant := hcut.oneTenant
      sorted := by rwa [hflat, map_parseRow]
      partition := by
        intro r hr
        rw [hflat] at hr
        obtain ⟨row, hrow, rfl⟩ := List.mem_map.1 hr
        exact hpartition row hrow
      rowCount := by rw [hflat, List.length_map]
      minTsNs := by rw [hflat]
      maxTsNs := by rw [hflat]
      rowGroupCount := rfl
      rowGroupMinTs := rfl
      rowGroupMaxTs := rfl
      rowGroupRows := rfl
      rowGroupTsMonotonic := List.length_map _
      tenants := rfl
      metadataSorted := sorted_selectMetadataColumns (nodup_keys_tally _)
      parsedSorted := sorted_selectMetadataColumns (nodup_keys_tally _)
      metadataCapped := by
        rw [LogPart.metadataKeys, List.length_map]
        exact length_selectMetadataColumns_le _
      parsedCapped := by
        rw [LogPart.parsedKeys, List.length_map]
        exact length_selectMetadataColumns_le _ }

/-- So does the streaming writer, with columns in order and no more of them than allowed. -/
theorem placed_streamPart {metadataKeys parsedKeys : ColumnKeys} (hsize : 0 < rowGroupSize)
    (hmetadata : metadataKeys.keys.length ≤ maxMetadataColumns)
    (hparsed : parsedKeys.keys.length ≤ maxMetadataColumns) (hne : rows ≠ [])
    (hsorted : rows.Pairwise (· ≤ ·))
    (hpartition : ∀ row ∈ rows, partitionOf row.timestampNs = partition)
    (h : streamPart P metadataKeys.keys parsedKeys.keys id partition rows rowGroupSize
      = some part) :
    part.info.id = id ∧ part.info.partition = partition ∧ ∃ groups, Placed part groups ∧
      (∀ group ∈ groups, group.length ≤ rowGroupSize) ∧ groups.flatten.map Prod.fst = rows ∧
      part.data = groups.map (rowGroupBatch P.text metadataKeys.keys parsedKeys.keys) := by
  obtain ⟨writer, hpush, hfinish⟩ := Option.bind_eq_some_iff.1 h
  obtain ⟨last, hflush, rfl⟩ := Option.map_eq_some_iff.1 hfinish
  obtain ⟨groups, hfill, hnil, -, hflat, hkeys, -⟩ := streamed_last hsize hpush hflush
  have hfst : groups.flatten.map Prod.fst = rows := by
    rw [hflat, List.map_map]
    exact List.map_id rows
  have hsome : groups.flatten ≠ [] := by
    intro hempty
    rw [hempty] at hfst
    exact hne hfst.symm
  have hcount : last.rowCount = groups.flatten.length := by
    rw [hfill.rowCount, hnil, List.append_nil]
  have hzero : last.rowCount ≠ 0 := by
    rw [hcount]
    exact fun hlen => hsome (List.length_eq_zero_iff.1 hlen)
  have hmk : ∀ counts : Logql.Assoc ℕ, (last.metadataKeys.map fun key =>
      (key, (counts.lookup key).getD 0)).map Prod.fst = metadataKeys.keys := by
    intro counts
    rw [List.map_map]
    exact (List.map_id _).trans hkeys.1
  have hpk : ∀ counts : Logql.Assoc ℕ, (last.parsedKeys.map fun key =>
      (key, (counts.lookup key).getD 0)).map Prod.fst = parsedKeys.keys := by
    intro counts
    rw [List.map_map]
    exact (List.map_id _).trans hkeys.2.1
  refine ⟨rfl, rfl, groups, ?_, ?_, hfst, ?_⟩
  · exact
      { nonempty := hfill.cut.nonempty
        oneTenant := hfill.cut.oneTenant
        sorted := by rwa [hfst]
        partition := fun r hr => hpartition r.1 (hfst ▸ List.mem_map_of_mem hr)
        rowCount := hcount
        minTsNs := by
          dsimp only
          rw [if_neg hzero, hfill.minTsNs, hnil, List.append_nil, foldl_min_eq hsome]
        maxTsNs := by
          dsimp only
          rw [if_neg hzero, hfill.maxTsNs, hnil, List.append_nil, foldl_max_eq hsome]
        rowGroupCount := by
          dsimp only
          rw [hfill.rowGroupMinTs, List.length_map]
        rowGroupMinTs := hfill.rowGroupMinTs
        rowGroupMaxTs := hfill.rowGroupMaxTs
        rowGroupRows := hfill.rowGroupRows
        rowGroupTsMonotonic := by
          dsimp only
          rw [hfill.rowGroupTsMonotonic, List.length_map]
        tenants := hfill.tenants
        metadataSorted := by
          rw [LogPart.metadataKeys, hmk]
          exact metadataKeys.sorted
        parsedSorted := by
          rw [LogPart.parsedKeys, hpk]
          exact parsedKeys.sorted
        metadataCapped := by rwa [LogPart.metadataKeys, hmk]
        parsedCapped := by rwa [LogPart.parsedKeys, hpk] }
  · intro group hg
    have hshort := hfill.cut.short group hg
    rwa [hkeys.2.2] at hshort
  · dsimp only
    rw [hfill.data, hkeys.1, hkeys.2.1]
    rfl

/-- Both writers record of some sorted rows of a day exactly what holds of them. -/
theorem written_tight (hsize : 0 < rowGroupSize) (hne : rows ≠ [])
    (hsorted : rows.Pairwise (· ≤ ·))
    (hpartition : ∀ row ∈ rows, partitionOf row.timestampNs = partition) :
    (∀ id part, writePartFiles P id partition rows rowGroupSize = some part →
      ∃ groups, Tight P part id partition rowGroupSize rows groups) ∧
    ∀ (id : String) (metadataKeys parsedKeys : ColumnKeys) (part : LogPart),
      metadataKeys.keys.length ≤ maxMetadataColumns → parsedKeys.keys.length ≤ maxMetadataColumns →
      streamPart P metadataKeys.keys parsedKeys.keys id partition rows rowGroupSize = some part →
      ∃ groups, Tight P part id partition rowGroupSize rows groups := by
  refine ⟨fun id part h => ?_, fun id metadataKeys parsedKeys part hmetadata hparsed h => ?_⟩
  · have hplaced := placed_writePartFiles hsize hsorted hpartition h
    have hflat := flatten_rowGroupBounds hsize (rows.map (parseRow P))
    obtain ⟨index, -, rfl⟩ := Option.map_eq_some_iff.1 h
    have hsome : (rowGroupBounds rowGroupSize (rows.map (parseRow P))).flatten ≠ [] := by
      rw [hflat, ne_eq, List.map_eq_nil_iff]
      exact hne
    have htight := hplaced.tight hsome (cut_rowGroupBounds hsize _).short rfl
    rw [hflat, map_parseRow] at htight
    exact ⟨_, htight⟩
  · obtain ⟨rfl, rfl, groups, hplaced, hshort, hfst, hdata⟩ :=
      placed_streamPart hsize hmetadata hparsed hne hsorted hpartition h
    have hsome : groups.flatten ≠ [] := by
      intro hempty
      rw [hempty] at hfst
      exact hne hfst.symm
    have htight := hplaced.tight hsome hshort hdata
    rw [hfst] at htight
    exact ⟨_, htight⟩

theorem written_tight_plainRow : ∃ part groups,
    writePartFiles plainPlatform "part" 0 [plainRow] 2 = some part ∧
      Tight plainPlatform part "part" 0 2 [plainRow] groups := by
  have hsome : (writePartFiles plainPlatform "part" 0 [plainRow] 2).isSome = true := by
    decide +kernel
  obtain ⟨part, hpart⟩ := Option.isSome_iff_exists.1 hsome
  have hday : ∀ row ∈ [plainRow], partitionOf row.timestampNs = 0 := by decide +kernel
  obtain ⟨groups, htight⟩ := (written_tight (by decide) (List.cons_ne_nil _ _)
    (List.pairwise_singleton _ _) hday).1 "part" part hpart
  exact ⟨part, groups, hpart, htight⟩

end Part

end Obsy
