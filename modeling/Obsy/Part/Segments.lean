import Obsy.Part.Layout

/-!
# The segments of a part

The segments of the tenants tile the row groups in the order of the tenants.

* `Tiled.find?_spec`: the segment of a tenant holds its row groups.
* `Placed.validates`: what a writer wrote passes the check of the loader.
-/

namespace Obsy

namespace Part

variable {P : Platform} {part : LogPart} {groups : List (List ParsedRow)}

/-! ### The order of the segments -/

/-- What a segment says of the row groups it covers. -/
def segmentView : Runs.View TenantSegment String :=
  ⟨TenantSegment.tenant, TenantSegment.rowGroupStart, TenantSegment.rowGroupEnd⟩

theorem Tiled.tiles {start : ℕ} {segments : List TenantSegment} (h : Tiled start segments groups) :
    Runs.Tiles segmentView groupTenant start segments groups := by
  induction segments generalizing start groups with
  | nil => exact h
  | cons segment segments ih =>
    obtain ⟨mine, rest, rfl, hne, hstart, hend, htenant, -, -, -, hrest⟩ := h
    exact ⟨mine, rest, rfl, hne, hstart, hend, htenant, ih hrest⟩

/-- Neighbouring segments are of different tenants. -/
theorem isChain_addSegment {segments : List TenantSegment}
    (h : (segments.map TenantSegment.tenant).IsChain (· ≠ ·)) (ordinal : ℕ)
    (group : List ParsedRow) :
    ((addSegment segments ordinal group).map TenantSegment.tenant).IsChain (· ≠ ·) := by
  rw [addSegment]
  split
  case h_1 segment hlast =>
    obtain ⟨front, rfl⟩ := List.getLast?_eq_some_iff.1 hlast
    split
    case isTrue heq => simpa using h
    case isFalse hne =>
      rw [List.map_append, List.isChain_append]
      refine ⟨h, .singleton _, ?_⟩
      simpa using hne
  case h_2 => exact .singleton _

theorem isChain_tenantSegments (groups : List (List ParsedRow)) :
    ((tenantSegments groups).map TenantSegment.tenant).IsChain (· ≠ ·) := by
  induction groups using List.reverseRecOn with
  | nil => exact .nil
  | append_singleton groups group ih =>
    rw [tenantSegments_append]
    exact isChain_addSegment ih _ _

/-- What a writer records of the row groups it cut. -/
structure Placed (part : LogPart) (groups : List (List ParsedRow)) : Prop where
  nonempty : ∀ group ∈ groups, group ≠ []
  oneTenant : ∀ group ∈ groups, ∀ r ∈ group, r.1.tenant = groupTenant group
  sorted : (groups.flatten.map Prod.fst).Pairwise (· ≤ ·)
  partition : ∀ r ∈ groups.flatten, partitionOf r.1.timestampNs = part.info.partition
  rowCount : part.info.rowCount = groups.flatten.length
  minTsNs : part.info.minTsNs = minTs groups.flatten
  maxTsNs : part.info.maxTsNs = maxTs groups.flatten
  rowGroupCount : part.info.rowGroupCount = groups.length
  rowGroupMinTs : part.info.rowGroupMinTs = groups.map minTs
  rowGroupMaxTs : part.info.rowGroupMaxTs = groups.map maxTs
  rowGroupRows : part.info.rowGroupRows = groups.map List.length
  rowGroupTsMonotonic : part.info.rowGroupTsMonotonic.length = groups.length
  tenants : part.info.tenants = tenantSegments groups
  metadataSorted : part.metadataKeys.Pairwise (· < ·)
  parsedSorted : part.parsedKeys.Pairwise (· < ·)
  metadataCapped : part.metadataKeys.length ≤ maxMetadataColumns
  parsedCapped : part.parsedKeys.length ≤ maxMetadataColumns

/-- The row groups of sorted rows are in the order of their tenants. -/
theorem pairwise_groupTenant (hnonempty : ∀ group ∈ groups, group ≠ [])
    (honeTenant : ∀ group ∈ groups, ∀ r ∈ group, r.1.tenant = groupTenant group)
    (hsorted : (groups.flatten.map Prod.fst).Pairwise (· ≤ ·)) :
    groups.Pairwise fun a b => groupTenant a ≤ groupTenant b :=
  Runs.pairwise_owner hnonempty honeTenant ((List.pairwise_map.1 hsorted).imp Row.tenant_le)

/-- The segments of sorted rows are in the order of their tenants, each tenant once. -/
theorem pairwise_tenantSegments (hnonempty : ∀ group ∈ groups, group ≠ [])
    (honeTenant : ∀ group ∈ groups, ∀ r ∈ group, r.1.tenant = groupTenant group)
    (hsorted : (groups.flatten.map Prod.fst).Pairwise (· ≤ ·)) :
    ((tenantSegments groups).map TenantSegment.tenant).Pairwise (· < ·) :=
  pairwise_lt_of_neighbours
    ((tiled_tenantSegments groups).tiles.pairwise_le
      (pairwise_groupTenant hnonempty honeTenant hsorted))
    (isChain_tenantSegments groups)

theorem Layout.pairwise_tenants (h : Layout P part groups) :
    (part.info.tenants.map TenantSegment.tenant).Pairwise (· < ·) := by
  rw [h.tenants]
  exact pairwise_tenantSegments h.cut.nonempty h.cut.oneTenant
    (h.sorted.pairwise.imp fun hlt => hlt.le)

theorem Placed.pairwise_tenants (h : Placed part groups) :
    (part.info.tenants.map TenantSegment.tenant).Pairwise (· < ·) := by
  rw [h.tenants]
  exact pairwise_tenantSegments h.nonempty h.oneTenant h.sorted

/-! ### The segment of a tenant -/

/-- The segment of a tenant holds its row groups and no others; without one it has none. -/
theorem Tiled.find?_spec {start : ℕ} {segments : List TenantSegment}
    (h : Tiled start segments groups)
    (hlt : (segments.map TenantSegment.tenant).Pairwise (· < ·)) (tenant : String) :
    match segments.find? fun segment => segment.tenant == tenant with
    | none => ∀ group ∈ groups, groupTenant group ≠ tenant
    | some segment => start ≤ segment.rowGroupStart ∧
        segment.rowGroupEnd ≤ start + groups.length ∧
        ∀ g group, groups[g]? = some group → (groupTenant group = tenant ↔
          segment.rowGroupStart ≤ start + g ∧ start + g < segment.rowGroupEnd) := by
  split
  case h_1 hfind => exact h.tiles.of_find?_eq_none hlt hfind
  case h_2 segment hfind => exact h.tiles.of_find?_eq_some hlt hfind

/-- The bounds of a segment hold of every row of its tenant. -/
theorem Tiled.bounds {start : ℕ} {segments : List TenantSegment} (h : Tiled start segments groups)
    (hlt : (segments.map TenantSegment.tenant).Pairwise (· < ·)) {segment : TenantSegment}
    (hs : segment ∈ segments) {group : List ParsedRow} (hg : group ∈ groups)
    (htenant : groupTenant group = segment.tenant) {r : ParsedRow} (hr : r ∈ group) :
    segment.minTsNs ≤ r.1.timestampNs ∧ r.1.timestampNs ≤ segment.maxTsNs := by
  induction segments generalizing start groups with
  | nil => cases hs
  | cons first segments ih =>
    obtain ⟨mine, rest, rfl, -, -, -, hmine, -, hlo, hhi, hrest⟩ := h
    obtain ⟨hfirst, hlater⟩ := List.pairwise_cons.1 hlt
    rcases List.mem_append.1 hg with hg | hg
    · rcases List.mem_cons.1 hs with rfl | hs
      · exact ⟨((List.min?_eq_some_iff.1 hlo).2 _ (List.mem_map_of_mem hg)).trans (minTs_le hr),
          (le_maxTs hr).trans ((List.max?_eq_some_iff.1 hhi).2 _ (List.mem_map_of_mem hg))⟩
      · -- a later segment is of another tenant
        have hbelow := hfirst segment.tenant (List.mem_map_of_mem hs)
        exact absurd ((hmine group hg).symm.trans htenant) hbelow.ne
    · rcases List.mem_cons.1 hs with rfl | hs
      · obtain ⟨later, hmem, hsame⟩ := hrest.tiles.mem hg
        have hbelow := hfirst later.tenant (List.mem_map_of_mem hmem)
        exact absurd (htenant.symm.trans hsame) hbelow.ne
      · exact ih hrest hlater hs hg

/-! ### Validity -/

theorem exists_minTs {group : List ParsedRow} (h : group ≠ []) :
    ∃ r ∈ group, r.1.timestampNs = minTs group := by
  cases hmin : (timestampsOf group).min? with
  | none =>
    rw [List.min?_eq_none_iff, timestampsOf, List.map_eq_nil_iff] at hmin
    exact absurd hmin h
  | some lo =>
    obtain ⟨r, hr, heq⟩ := List.mem_map.1 (List.min?_eq_some_iff.1 hmin).1
    exact ⟨r, hr, by rw [minTs, hmin, heq]; rfl⟩

theorem exists_maxTs {group : List ParsedRow} (h : group ≠ []) :
    ∃ r ∈ group, r.1.timestampNs = maxTs group := by
  cases hmax : (timestampsOf group).max? with
  | none =>
    rw [List.max?_eq_none_iff, timestampsOf, List.map_eq_nil_iff] at hmax
    exact absurd hmax h
  | some hi =>
    obtain ⟨r, hr, heq⟩ := List.mem_map.1 (List.max?_eq_some_iff.1 hmax).1
    exact ⟨r, hr, by rw [maxTs, hmax, heq]; rfl⟩

/-- The least timestamp of all row groups is the least of theirs. -/
theorem min?_map_minTs (h : ∀ group ∈ groups, group ≠ []) (hne : groups.flatten ≠ []) :
    (groups.map minTs).min? = some (minTs groups.flatten) := by
  refine List.min?_eq_some_iff.2 ⟨?_, fun lo hlo => ?_⟩
  · obtain ⟨r, hr, heq⟩ := exists_minTs hne
    obtain ⟨group, hg, hmem⟩ := List.mem_flatten.1 hr
    obtain ⟨r', hr', heq'⟩ := exists_minTs (h group hg)
    refine List.mem_map.2 ⟨group, hg, le_antisymm ?_ ?_⟩
    · rw [← heq]
      exact minTs_le hmem
    · rw [← heq']
      exact minTs_le (List.mem_flatten.2 ⟨group, hg, hr'⟩)
  · obtain ⟨group, hg, rfl⟩ := List.mem_map.1 hlo
    obtain ⟨r, hr, heq⟩ := exists_minTs (h group hg)
    rw [← heq]
    exact minTs_le (List.mem_flatten.2 ⟨group, hg, hr⟩)

theorem max?_map_maxTs (h : ∀ group ∈ groups, group ≠ []) (hne : groups.flatten ≠ []) :
    (groups.map maxTs).max? = some (maxTs groups.flatten) := by
  refine List.max?_eq_some_iff.2 ⟨?_, fun hi hhi => ?_⟩
  · obtain ⟨r, hr, heq⟩ := exists_maxTs hne
    obtain ⟨group, hg, hmem⟩ := List.mem_flatten.1 hr
    obtain ⟨r', hr', heq'⟩ := exists_maxTs (h group hg)
    refine List.mem_map.2 ⟨group, hg, le_antisymm ?_ ?_⟩
    · rw [← heq']
      exact le_maxTs (List.mem_flatten.2 ⟨group, hg, hr'⟩)
    · rw [← heq]
      exact le_maxTs hmem
  · obtain ⟨group, hg, rfl⟩ := List.mem_map.1 hhi
    obtain ⟨r, hr, heq⟩ := exists_maxTs (h group hg)
    rw [← heq]
    exact le_maxTs (List.mem_flatten.2 ⟨group, hg, hr⟩)

/-- The segments of a writer pass the check of the loader. -/
theorem Tiled.segmentsTile {info : PartMeta} {before : List (List ParsedRow)}
    {segments : List TenantSegment} (h : Tiled before.length segments groups)
    (hcount : info.rowGroupCount = (before ++ groups).length)
    (hmin : info.rowGroupMinTs = (before ++ groups).map minTs)
    (hmax : info.rowGroupMaxTs = (before ++ groups).map maxTs)
    (hnonempty : ∀ group ∈ groups, group ≠ [])
    (hlt : (segments.map TenantSegment.tenant).Pairwise (· < ·)) {previous : Option String}
    (hprevious : ∀ tenant ∈ previous, ∀ segment ∈ segments, tenant < segment.tenant) :
    Part.segmentsTile info before.length previous segments = true := by
  induction segments generalizing before groups previous with
  | nil =>
    obtain rfl : groups = [] := h
    simp [Part.segmentsTile, hcount]
  | cons segment segments ih =>
    obtain ⟨mine, rest, rfl, hne, hstart, hend, -, hrows, hlo, hhi, hrest⟩ := h
    obtain ⟨hfirst, hlater⟩ := List.pairwise_cons.1 hlt
    have hlen : 0 < mine.length := List.length_pos_of_ne_nil hne
    have hassoc : before ++ (mine ++ rest) = before ++ mine ++ rest := (List.append_assoc ..).symm
    have htail : Part.segmentsTile info segment.rowGroupEnd segment.tenant segments = true := by
      have hrest' : Tiled (before ++ mine).length segments rest := by
        rw [List.length_append]
        exact hrest
      have hnext : ∀ tenant ∈ some segment.tenant, ∀ other ∈ segments, tenant < other.tenant := by
        intro tenant ht other hother
        obtain rfl := Option.mem_some_iff.1 ht
        exact hfirst _ (List.mem_map_of_mem hother)
      have := ih hrest' (hassoc ▸ hcount) (hassoc ▸ hmin) (hassoc ▸ hmax)
        (fun g hg => hnonempty g (List.mem_append_right _ hg)) hlater hnext
      rwa [hend, ← List.length_append]
    have hslice : ∀ f : List ParsedRow → Nanos, (((before ++ (mine ++ rest)).map f).drop
        segment.rowGroupStart).take (segment.rowGroupEnd - segment.rowGroupStart) = mine.map f := by
      intro f
      have hspan : segment.rowGroupEnd - segment.rowGroupStart = mine.length := by omega
      rw [hspan, hstart, List.map_append, List.map_append, List.drop_left' (List.length_map _),
        List.take_left' (List.length_map _)]
    have hcount' : info.rowGroupCount = before.length + mine.length + rest.length := by
      rw [hcount, hassoc, List.length_append, List.length_append]
    have hsum : (mine.map List.length).sum ≠ 0 := by
      obtain ⟨first, others, rfl⟩ := List.exists_cons_of_ne_nil hne
      have hpos := List.length_pos_of_ne_nil (hnonempty first (by simp))
      rw [List.map_cons, List.sum_cons]
      omega
    have hprev : (previous.all (· < segment.tenant)) = true :=
      (Option.all_eq_true _ _).2 fun tenant ht =>
        decide_eq_true (hprevious tenant ht segment List.mem_cons_self)
    rw [Part.segmentsTile]
    simp only [hmin, hmax, hslice, hlo, hhi, htail, hprev, Option.getD_some, beq_self_eq_true,
      Bool.and_true, Bool.true_and, Bool.and_eq_true, beq_iff_eq, decide_eq_true_eq, bne_iff_ne]
    refine ⟨⟨⟨hstart, ?_⟩, ?_⟩, ?_⟩
    · omega
    · omega
    · rw [hrows]
      exact hsum

theorem Tiled.sum_rowCount {start : ℕ} {segments : List TenantSegment}
    (h : Tiled start segments groups) :
    (segments.map TenantSegment.rowCount).sum = groups.flatten.length := by
  induction segments generalizing start groups with
  | nil =>
    obtain rfl : groups = [] := h
    rfl
  | cons segment segments ih =>
    obtain ⟨mine, rest, rfl, -, -, -, -, hrows, -, -, hrest⟩ := h
    rw [List.map_cons, List.sum_cons, ih hrest, hrows, List.flatten_append, List.length_append,
      ← List.length_flatten]

/-- A part with rows passes the check of the loader. -/
theorem Placed.validates (h : Placed part groups) (hne : groups.flatten ≠ []) :
    validateMetaFile part.info.id part.info.partition part.info = true := by
  have hgroups : groups ≠ [] := by
    rintro rfl
    exact hne rfl
  have hlength : groups.flatten.length ≠ 0 := fun h => hne (List.length_eq_zero_iff.1 h)
  obtain ⟨lo, hlo, hlo'⟩ := exists_minTs hne
  obtain ⟨hi, hhi, hhi'⟩ := exists_maxTs hne
  have htiled := tiled_tenantSegments groups
  have hsegments : segmentsTile part.info 0 none part.info.tenants = true := by
    have hbefore : Tiled ([] : List (List ParsedRow)).length (tenantSegments groups) groups := htiled
    have hnone : ∀ tenant ∈ (none : Option String), ∀ segment ∈ tenantSegments groups,
        tenant < segment.tenant := fun _ ht => by cases ht
    rw [h.tenants]
    exact hbefore.segmentsTile h.rowGroupCount h.rowGroupMinTs h.rowGroupMaxTs h.nonempty
      (h.tenants ▸ h.pairwise_tenants) hnone
  have hbounds : ((groups.map minTs).zip (groups.map maxTs)).all (fun b => b.1 ≤ b.2) = true := by
    refine List.all_eq_true.2 fun b hb => ?_
    rw [List.zip_map'] at hb
    obtain ⟨group, hg, rfl⟩ := List.mem_map.1 hb
    obtain ⟨r, hr, heq⟩ := exists_minTs (h.nonempty group hg)
    simpa [← heq] using le_maxTs hr
  have hzero : (groups.map List.length).contains 0 = false := by
    rw [List.contains_eq_mem, decide_eq_false_iff_not, List.mem_map]
    rintro ⟨group, hg, hzero⟩
    exact h.nonempty group hg (List.length_eq_zero_iff.1 hzero)
  have hsum : (groups.map List.length).sum = groups.flatten.length := List.length_flatten.symm
  have hmetadata := h.metadataCapped
  have hparsed := h.parsedCapped
  rw [LogPart.metadataKeys, List.length_map] at hmetadata
  rw [LogPart.parsedKeys, List.length_map] at hparsed
  have hkeys : (part.info.metadataColumns.map Prod.fst).IsChain (· < ·) :=
    List.isChain_iff_pairwise.2 h.metadataSorted
  have hfields : (part.info.parsedColumns.map Prod.fst).IsChain (· < ·) :=
    List.isChain_iff_pairwise.2 h.parsedSorted
  have hrows : (part.info.tenants.map TenantSegment.rowCount).sum = groups.flatten.length := by
    rw [h.tenants, htiled.sum_rowCount]
  have hfirst : partitionOf (minTs groups.flatten) = part.info.partition := by
    rw [← hlo']
    exact h.partition lo hlo
  have hlast : partitionOf (maxTs groups.flatten) = part.info.partition := by
    rw [← hhi']
    exact h.partition hi hhi
  have hspan : minTs groups.flatten ≤ maxTs groups.flatten := hlo' ▸ le_maxTs hlo
  simp only [validateMetaFile, h.rowCount, h.rowGroupCount, h.rowGroupMinTs, h.rowGroupMaxTs,
    h.rowGroupRows, h.minTsNs, h.maxTsNs, h.rowGroupTsMonotonic, hsegments, hbounds, hzero, hsum, hrows, hfirst, hlast,
    min?_map_minTs h.nonempty hne, max?_map_maxTs h.nonempty hne, List.length_map,
    beq_self_eq_true, Bool.true_and, Bool.and_true, Bool.not_false, decide_eq_true hspan,
    decide_eq_true hkeys, decide_eq_true hfields, decide_eq_true hmetadata,
    decide_eq_true hparsed, Bool.and_eq_true, bne_iff_ne, ne_eq, List.length_eq_zero_iff]
  exact ⟨by simpa using hne, hgroups⟩

/-- So does a part that is laid out. -/
theorem Layout.validates (h : Layout P part groups) (hne : groups.flatten ≠ [])
    (hmin : part.info.minTsNs = minTs groups.flatten)
    (hmax : part.info.maxTsNs = maxTs groups.flatten)
    (hmono : part.info.rowGroupTsMonotonic.length = groups.length)
    (hmetadata : part.metadataKeys.length ≤ maxMetadataColumns)
    (hparsed : part.parsedKeys.length ≤ maxMetadataColumns) :
    validateMetaFile part.info.id part.info.partition part.info = true := by
  have hplaced : Placed part groups :=
    { nonempty := h.cut.nonempty
      oneTenant := h.cut.oneTenant
      sorted := h.sorted.pairwise.imp fun hlt => hlt.le
      partition := h.partition
      rowCount := h.rowCount
      minTsNs := hmin
      maxTsNs := hmax
      rowGroupCount := h.rowGroupCount
      rowGroupMinTs := h.rowGroupMinTs
      rowGroupMaxTs := h.rowGroupMaxTs
      rowGroupRows := h.rowGroupRows
      rowGroupTsMonotonic := hmono
      tenants := h.tenants
      metadataSorted := h.metadataSorted
      parsedSorted := h.parsedSorted
      metadataCapped := hmetadata
      parsedCapped := hparsed }
  exact hplaced.validates hne

end Part

end Obsy
