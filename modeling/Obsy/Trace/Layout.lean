import Mathlib.Data.List.Perm.Basic
import Obsy.Part.Layout
import Obsy.Runs.Fallible
import Obsy.Runs.Selected
import Obsy.Trace.Part

/-!
# The layout of a trace part

* `Layout`: a part has given row groups, their bounds, segments and filters.
* `flushTraceSpansWithId_spec`: the writer lays out the spans it is given, every one of them.
* `Layout.queryRange_spec`, `queryTraceId_spec`, `perm_of_queryAll`: each read finds its spans.
-/

namespace Obsy

namespace Trace

open Obsy.Part (Nanos partitionOf BloomFilter utf8 runsOf)
open Runs (exists_of_bind forall₂_of_mapM mapM_ok)

variable {π : Type} {P : Codec π}

/-! ### Layouts -/

/-- A part has the given row groups.  The Parquet file itself may be gone. -/
structure Layout (P : Codec π) (part : TracePart) (groups : List (List (TraceSpan π))) : Prop where
  nonempty : ∀ group ∈ groups, group ≠ []
  oneTenant : ∀ group ∈ groups, ∀ span ∈ group, span.tenant = groupTenant group
  sorted : groups.flatten.Pairwise fun a b => a.tenant ≤ b.tenant
  partition : ∀ span ∈ groups.flatten, partitionOf span.startTimeNs = part.info.partition
  rowGroupCount : part.info.rowGroupCount = groups.length
  maxTsNs : part.info.maxTsNs = maxEnd groups.flatten
  rowGroupMinTs : part.info.rowGroupMinTs = groups.map minStart
  rowGroupMaxTs : part.info.rowGroupMaxTs = groups.map maxEnd
  tenants : part.info.tenants = traceTenantSegments groups
  bloomFile : part.bloomFile = groups.map (groupBloom P.sizing)

/-- The Parquet file of some row groups. -/
def fileOf (P : Codec π) (groups : List (List (TraceSpan π))) : List (List SpanRow) :=
  groups.map fun group => group.map (spanRow P)

variable {part : TracePart} {groups : List (List (TraceSpan π))}

theorem minStart_le {group : List (TraceSpan π)} {span : TraceSpan π} (h : span ∈ group) :
    minStart group ≤ span.startTimeNs := by
  have hmem : span.startTimeNs ∈ group.map TraceSpan.startTimeNs := List.mem_map_of_mem h
  cases hmin : (group.map TraceSpan.startTimeNs).min? with
  | none => rw [List.min?_eq_none_iff.1 hmin] at hmem; cases hmem
  | some lo =>
    rw [minStart, hmin]
    exact (List.min?_eq_some_iff.1 hmin).2 _ hmem

theorem le_maxEnd {group : List (TraceSpan π)} {span : TraceSpan π} (h : span ∈ group) :
    span.endTimeNs ≤ maxEnd group := by
  have hmem : span.endTimeNs ∈ group.map TraceSpan.endTimeNs := List.mem_map_of_mem h
  cases hmax : (group.map TraceSpan.endTimeNs).max? with
  | none => rw [List.max?_eq_none_iff.1 hmax] at hmem; cases hmem
  | some hi =>
    rw [maxEnd, hmax]
    exact (List.max?_eq_some_iff.1 hmax).2 _ hmem

/-! ### The segments -/

/-- What a segment says of the row groups it covers. -/
def segmentView : Runs.View TraceTenantSegment String :=
  ⟨TraceTenantSegment.tenant, TraceTenantSegment.rowGroupStart, TraceTenantSegment.rowGroupEnd⟩

theorem traceTenantSegments_append (groups : List (List (TraceSpan π)))
    (group : List (TraceSpan π)) : traceTenantSegments (groups ++ [group]) =
      addSegment (traceTenantSegments groups) groups.length group := by
  rw [traceTenantSegments, traceTenantSegments, List.zipIdx_append, List.foldl_append]
  simp

theorem tiles_traceTenantSegments (groups : List (List (TraceSpan π))) :
    Runs.Tiles segmentView groupTenant 0 (traceTenantSegments groups) groups := by
  induction groups using List.reverseRecOn with
  | nil => exact Runs.tiles_nil 0
  | append_singleton groups group ih =>
    rw [traceTenantSegments_append, addSegment]
    split
    case h_1 segment hlast =>
      obtain ⟨front, hfront⟩ := List.getLast?_eq_some_iff.1 hlast
      split
      case isTrue heq =>
        rw [hfront] at ih ⊢
        rw [List.dropLast_concat]
        exact ih.extend heq.symm rfl rfl (Nat.zero_add _).symm
      case isFalse => exact ih.push rfl (Nat.zero_add _).symm (by simp [segmentView])
    case h_2 => exact ih.push rfl (Nat.zero_add _).symm (by simp [segmentView])

/-- Neighbouring segments are of different tenants. -/
theorem isChain_traceTenantSegments (groups : List (List (TraceSpan π))) :
    ((traceTenantSegments groups).map segmentView.owner).IsChain (· ≠ ·) := by
  induction groups using List.reverseRecOn with
  | nil => exact .nil
  | append_singleton groups group ih =>
    rw [traceTenantSegments_append, addSegment]
    split
    case h_1 segment hlast =>
      obtain ⟨front, hfront⟩ := List.getLast?_eq_some_iff.1 hlast
      rw [hfront] at ih ⊢
      split
      case isTrue heq => simpa [segmentView] using ih
      case isFalse hne =>
        rw [List.map_append, List.isChain_append]
        refine ⟨ih, .singleton _, ?_⟩
        simpa [segmentView] using hne
    case h_2 hlast =>
      rw [List.getLast?_eq_none_iff.1 hlast]
      exact .singleton _

theorem Layout.tiles (h : Layout P part groups) :
    Runs.Tiles segmentView groupTenant 0 part.info.tenants groups := by
  rw [h.tenants]
  exact tiles_traceTenantSegments groups

/-- The segments of a part are in the order of their tenants, each tenant once. -/
theorem Layout.pairwise_tenants (h : Layout P part groups) :
    (part.info.tenants.map segmentView.owner).Pairwise (· < ·) := by
  have hle := h.tiles.pairwise_le (Runs.pairwise_owner h.nonempty h.oneTenant h.sorted)
  have hne := isChain_traceTenantSegments groups
  rw [← h.tenants] at hne
  exact Part.pairwise_lt_of_neighbours hle hne

/-- The row groups of a tenant by its segment are the row groups of its spans. -/
theorem Layout.mem_tenantRowGroups (h : Layout P part groups) {tenant : String} {g : ℕ}
    {group : List (TraceSpan π)} (hg : groups[g]? = some group) :
    g ∈ (part.info.tenantRowGroups tenant).getD [] ↔ groupTenant group = tenant := by
  rw [TracePartMeta.tenantRowGroups]
  cases hfind : part.info.tenants.find? fun segment => segment.tenant == tenant with
  | none =>
    have hnone := h.tiles.of_find?_eq_none h.pairwise_tenants hfind
    exact iff_of_false (by simp) (hnone group (List.mem_of_getElem? hg))
  | some segment =>
    obtain ⟨-, -, hgroups⟩ := h.tiles.of_find?_eq_some h.pairwise_tenants hfind
    rw [hgroups g group hg, Option.map_some, Option.getD_some, List.mem_range'_1, Nat.zero_add]
    simp only [segmentView]
    omega

theorem Layout.tenantRowGroups_lt (h : Layout P part groups) {tenant : String} {g : ℕ}
    (hg : g ∈ (part.info.tenantRowGroups tenant).getD []) : g < groups.length := by
  rw [TracePartMeta.tenantRowGroups] at hg
  cases hfind : part.info.tenants.find? fun segment => segment.tenant == tenant with
  | none => rw [hfind] at hg; cases hg
  | some segment =>
    obtain ⟨-, hhi, -⟩ := h.tiles.of_find?_eq_some h.pairwise_tenants hfind
    rw [hfind, Option.map_some, Option.getD_some, List.mem_range'_1] at hg
    simp only [segmentView] at hhi
    omega

theorem pairwise_tenantRowGroups (info : TracePartMeta) (tenant : String) :
    ((info.tenantRowGroups tenant).getD []).Pairwise (· < ·) := by
  rw [TracePartMeta.tenantRowGroups]
  cases info.tenants.find? fun segment => segment.tenant == tenant with
  | none => exact .nil
  | some segment => exact List.pairwise_lt_range'

/-! ### Row groups read -/

/-- Row groups of a tenant in their order. -/
structure Layout.Chosen (groups : List (List (TraceSpan π))) (tenant : String)
    (selected : List ℕ) : Prop where
  sorted : selected.Pairwise (· < ·)
  lt : ∀ g ∈ selected, g < groups.length
  oneTenant : ∀ g ∈ selected, ∀ group, groups[g]? = some group → groupTenant group = tenant

open Layout (Chosen)

theorem Layout.chosen_filter (h : Layout P part groups) (tenant : String) (keep : ℕ → Bool) :
    Chosen groups tenant (((part.info.tenantRowGroups tenant).getD []).filter keep) where
  sorted := (pairwise_tenantRowGroups part.info tenant).filter _
  lt := fun _ hg => h.tenantRowGroups_lt (List.mem_of_mem_filter hg)
  oneTenant := fun _ hg _ hget => (h.mem_tenantRowGroups hget).1 (List.mem_of_mem_filter hg)

theorem Layout.chosen_inRange (h : Layout P part groups) (tenant : String)
    (startNs endNs : Nanos) :
    Chosen groups tenant (part.info.tenantRowGroupsInRange tenant startNs endNs) :=
  h.chosen_filter tenant _

theorem Layout.chosen_all (h : Layout P part groups) (tenant : String) :
    Chosen groups tenant ((part.info.tenantRowGroups tenant).getD []) where
  sorted := pairwise_tenantRowGroups part.info tenant
  lt := fun _ hg => h.tenantRowGroups_lt hg
  oneTenant := fun _ hg _ hget => (h.mem_tenantRowGroups hget).1 hg

theorem readRowGroups_fileOf {selected : List ℕ} (hlt : ∀ g ∈ selected, g < groups.length) :
    TracePartReader.readRowGroups (fileOf P groups) selected =
      .ok ((selected.flatMap fun g => groups.getD g []).map (spanRow P)) := by
  have hgroups : (selected.mapM fun g =>
      ((fileOf P groups)[g]?).elim (.error "row group out of range") Except.ok) =
      .ok (selected.map fun g => (groups.getD g []).map (spanRow P)) := by
    induction selected with
    | nil => rfl
    | cons g selected ih =>
      have hg := hlt g List.mem_cons_self
      rw [List.mapM_cons, ih fun g hg => hlt g (List.mem_cons_of_mem _ hg), fileOf,
        List.getElem?_map, List.getElem?_eq_getElem hg, List.map_cons,
        List.getD_eq_getElem?_getD, List.getElem?_eq_getElem hg]
      rfl
  rw [TracePartReader.readRowGroups, hgroups, List.map_flatMap]
  rfl

theorem takeRow_skip (reader : TracePartReader) {traceId : Option String} {limit : Option ℕ}
    {span : TraceSpan π} (hskip : traceId.any (span.traceId ≠ ·) = true) (taken : List (TraceSpan π)) :
    reader.takeRow P span.tenant traceId limit taken (spanRow P span) = .ok taken :=
  (if_neg (not_not.2 rfl)).trans (if_pos hskip)

theorem takeRow_kept (reader : TracePartReader) {traceId : Option String} {limit : Option ℕ}
    {span : TraceSpan π} (hskip : traceId.any (span.traceId ≠ ·) = false)
    (taken : List (TraceSpan π)) :
    reader.takeRow P span.tenant traceId limit taken (spanRow P span) =
      if limit.any (· ≤ taken.length) then
        .error s!"trace query exceeds the maximum of {limit.getD 0} spans"
      else
        match P.decode (P.encode span) with
        | .ok other => .ok (taken ++ [other])
        | .error error => .error s!"invalid trace payload in {reader.part.info.id}: {error}" :=
  (if_neg (not_not.2 rfl)).trans (if_neg (by rw [Bool.not_eq_true]; exact hskip))

theorem takeRow_read (reader : TracePartReader) {traceId : Option String} {span : TraceSpan π}
    (hskip : traceId.any (span.traceId ≠ ·) = false) (taken : List (TraceSpan π)) :
    reader.takeRow P span.tenant traceId none taken (spanRow P span) =
      match P.decode (P.encode span) with
      | .ok other => .ok (taken ++ [other])
      | .error error => .error s!"invalid trace payload in {reader.part.info.id}: {error}" :=
  takeRow_kept reader hskip taken

/-- Reading rows of the tenant keeps those of the trace. -/
theorem foldlM_takeRow (reader : TracePartReader) {tenant : String} {traceId : Option String}
    {spans : List (TraceSpan π)} (h : ∀ span ∈ spans, span.tenant = tenant)
    (hreads : ∀ span ∈ spans, P.Reads span) (taken : List (TraceSpan π)) :
    (spans.map (spanRow P)).foldlM (reader.takeRow P tenant traceId none) taken =
      .ok (taken ++ spans.filter fun span => !traceId.any (span.traceId ≠ ·)) := by
  induction spans generalizing taken with
  | nil => simp [pure, Except.pure]
  | cons span spans ih =>
    obtain rfl := h span List.mem_cons_self
    have hrest := ih (fun s hs => h s (List.mem_cons_of_mem _ hs))
      fun s hs => hreads s (List.mem_cons_of_mem _ hs)
    rw [List.map_cons, List.foldlM_cons]
    cases hskip : traceId.any (span.traceId ≠ ·) with
    | true =>
      rw [takeRow_skip reader hskip, List.filter_cons_of_neg (by rw [hskip]; decide)]
      exact hrest taken
    | false =>
      rw [takeRow_read reader hskip, hreads span List.mem_cons_self,
        List.filter_cons_of_pos (by rw [hskip]; rfl)]
      refine (hrest (taken ++ [span])).trans ?_
      rw [List.append_assoc]
      rfl

/-- Rows of the tenant that are read are those of the trace, and their texts are read. -/
theorem foldlM_takeRow_of_ok (reader : TracePartReader) {tenant : String} {traceId : Option String}
    {spans : List (TraceSpan π)} (h : ∀ span ∈ spans, span.tenant = tenant)
    (hfaithful : ∀ span ∈ spans, P.Faithful span) {taken result : List (TraceSpan π)}
    (hok : (spans.map (spanRow P)).foldlM (reader.takeRow P tenant traceId none) taken = .ok result) :
    result = taken ++ (spans.filter fun span => !traceId.any (span.traceId ≠ ·)) ∧
      ∀ span ∈ spans.filter fun span => !traceId.any (span.traceId ≠ ·), P.Reads span := by
  induction spans generalizing taken with
  | nil =>
    obtain rfl := Except.ok.inj hok
    exact ⟨(List.append_nil _).symm, fun _ hs => (by cases hs)⟩
  | cons span spans ih =>
    obtain rfl := h span List.mem_cons_self
    have hrest := @ih (fun s hs => h s (List.mem_cons_of_mem _ hs))
      fun s hs => hfaithful s (List.mem_cons_of_mem _ hs)
    rw [List.map_cons, List.foldlM_cons] at hok
    cases hskip : traceId.any (span.traceId ≠ ·) with
    | true =>
      rw [takeRow_skip reader hskip] at hok
      rw [List.filter_cons_of_neg (by rw [hskip]; decide)]
      exact hrest hok
    | false =>
      rw [takeRow_read reader hskip] at hok
      rw [List.filter_cons_of_pos (by rw [hskip]; rfl)]
      cases hdecode : P.decode (P.encode span) with
      | error error => rw [hdecode] at hok; cases hok
      | ok other =>
        rw [hdecode] at hok
        obtain rfl := hfaithful span List.mem_cons_self other hdecode
        obtain ⟨hresult, hreads⟩ := hrest hok
        refine ⟨hresult.trans (List.append_assoc ..), fun s hs => ?_⟩
        rcases List.mem_cons.1 hs with rfl | hs
        · exact hdecode
        · exact hreads s hs

theorem Layout.tenant_of_chosen (h : Layout P part groups) {tenant : String} {selected : List ℕ}
    (hchosen : Chosen groups tenant selected) :
    ∀ span ∈ selected.flatMap fun g => groups.getD g [], span.tenant = tenant := by
  intro span hspan
  obtain ⟨g, hg, hmem⟩ := List.mem_flatMap.1 hspan
  have hget : groups[g]? = some (groups.getD g []) := by
    rw [List.getD_eq_getElem?_getD, List.getElem?_eq_getElem (hchosen.lt g hg), Option.getD_some]
  rw [h.oneTenant _ (List.mem_of_getElem? hget) span hmem]
  exact hchosen.oneTenant g hg _ hget

theorem Layout.mem_of_chosen {tenant : String} {selected : List ℕ}
    (hchosen : Chosen groups tenant selected) {span : TraceSpan π}
    (h : span ∈ selected.flatMap fun g => groups.getD g []) : span ∈ groups.flatten := by
  obtain ⟨g, hg, hmem⟩ := List.mem_flatMap.1 h
  rw [List.getD_eq_getElem?_getD, List.getElem?_eq_getElem (hchosen.lt g hg), Option.getD_some] at hmem
  exact List.mem_flatten.2 ⟨_, List.getElem_mem _, hmem⟩

/-- **A read without a cap** returns the spans of its row groups, in the order of an answer. -/
theorem Layout.querySelected_spec {reader : TracePartReader} (h : Layout P reader.part groups)
    {tenant : String} {selected : List ℕ} (hchosen : Chosen groups tenant selected)
    (hreads : ∀ span ∈ groups.flatten, P.Reads span) (traceId : Option String)
    (hdata : selected ≠ [] → reader.part.data = some (fileOf P groups)) :
    reader.querySelected P tenant selected traceId none =
      .ok (sortSpans ((selected.flatMap fun g => groups.getD g []).filter
        fun span => !traceId.any (span.traceId ≠ ·))) := by
  rw [TracePartReader.querySelected]
  cases hempty : selected.isEmpty with
  | true =>
    rw [List.isEmpty_iff.1 hempty]
    simp [sortSpans]
  | false =>
    have hne : selected ≠ [] := fun hs => by simp [hs] at hempty
    rw [hdata hne]
    simp only [Bool.false_eq_true, if_false, readRowGroups_fileOf hchosen.lt, bind, Except.bind,
      foldlM_takeRow reader (h.tenant_of_chosen hchosen) fun span hs =>
        hreads span (Layout.mem_of_chosen hchosen hs), List.nil_append]

/-- A read that succeeds found the file, or had no row group to read, and the texts were read. -/
theorem Layout.querySelected_of_ok {reader : TracePartReader} (h : Layout P reader.part groups)
    {tenant : String} {selected : List ℕ} (hchosen : Chosen groups tenant selected)
    (hfaithful : ∀ span ∈ groups.flatten, P.Faithful span)
    {traceId : Option String} {spans : List (TraceSpan π)}
    (hdata : reader.part.data = none ∨ reader.part.data = some (fileOf P groups))
    (hok : reader.querySelected P tenant selected traceId none = .ok spans) :
    spans = sortSpans ((selected.flatMap fun g => groups.getD g []).filter
      fun span => !traceId.any (span.traceId ≠ ·)) ∧
      ∀ span ∈ (selected.flatMap fun g => groups.getD g []).filter
        fun span => !traceId.any (span.traceId ≠ ·), P.Reads span := by
  rw [TracePartReader.querySelected] at hok
  cases hempty : selected.isEmpty with
  | true =>
    rw [hempty] at hok
    obtain rfl := Except.ok.inj hok
    rw [List.isEmpty_iff.1 hempty]
    exact ⟨by simp [sortSpans], fun _ hs => (by cases hs)⟩
  | false =>
    rw [hempty, if_neg (by decide)] at hok
    rcases hdata with hnone | hdata
    · rw [hnone] at hok
      cases hok
    · rw [hdata] at hok
      simp only [readRowGroups_fileOf hchosen.lt] at hok
      obtain ⟨rows, hrows, hok⟩ := exists_of_bind hok
      obtain rfl := Except.ok.inj hrows
      obtain ⟨read, hread, hok⟩ := exists_of_bind hok
      obtain rfl := Except.ok.inj hok
      obtain ⟨rfl, hreads⟩ := foldlM_takeRow_of_ok reader (h.tenant_of_chosen hchosen)
        (fun span hs => hfaithful span (Layout.mem_of_chosen hchosen hs)) hread
      exact ⟨congrArg sortSpans (List.nil_append _), hreads⟩

theorem sortSpans_perm (spans : List (TraceSpan π)) : (sortSpans spans).Perm spans :=
  List.mergeSort_perm _ _

theorem pairwise_sortSpans (spans : List (TraceSpan π)) :
    (sortSpans spans).Pairwise fun a b => answerKey a ≤ answerKey b := by
  have : Std.Total fun a b : TraceSpan π => answerKey a ≤ answerKey b :=
    ⟨fun a b => le_total (answerKey a) (answerKey b)⟩
  have : IsTrans (TraceSpan π) fun a b => answerKey a ≤ answerKey b := ⟨fun _ _ _ h h' => h.trans h'⟩
  exact List.pairwise_mergeSort' (fun a b : TraceSpan π => answerKey a ≤ answerKey b) spans

/-! ### What the reads find -/

/-- The filter of a row group has the trace ids of its spans. -/
theorem groupBloom_contains (P : Codec π) {group : List (TraceSpan π)} {span : TraceSpan π}
    (h : span ∈ group) : (groupBloom P.sizing group).contains (utf8 span.traceId) = true := by
  refine Part.contains_foldl_insert (P.sizing_pos _) (List.length_replicate ..) (.inr ?_)
  exact List.mem_dedup.2 (List.mem_map_of_mem h)

/-- A reader whose filters were read back. -/
structure TracePartReader.Opened (P : Codec π) (reader : TracePartReader)
    (groups : List (List (TraceSpan π))) : Prop where
  layout : Layout P reader.part groups
  blooms : reader.blooms = groups.map (groupBloom P.sizing)

/-- Losing the file, or getting it back, changes nothing else. -/
theorem TracePartReader.Opened.withData {reader : TracePartReader} (h : reader.Opened P groups)
    (data : Option (List (List SpanRow))) :
    ({ reader with part := { reader.part with data } } : TracePartReader).Opened P groups where
  layout := {
    nonempty := h.layout.nonempty
    oneTenant := h.layout.oneTenant
    sorted := h.layout.sorted
    partition := h.layout.partition
    rowGroupCount := h.layout.rowGroupCount
    maxTsNs := h.layout.maxTsNs
    rowGroupMinTs := h.layout.rowGroupMinTs
    rowGroupMaxTs := h.layout.rowGroupMaxTs
    tenants := h.layout.tenants
    bloomFile := h.layout.bloomFile }
  blooms := h.blooms

theorem opened_of_openInternal {requireData : Bool} {reader : TracePartReader}
    (h : Layout P part groups) (ho : TracePartReader.openInternal requireData part = .ok reader) :
    reader.part = part ∧ reader.Opened P groups := by
  rw [TracePartReader.openInternal] at ho
  split_ifs at ho
  rw [decodeTraceBlooms] at ho
  split_ifs at ho
  · cases ho
  · cases ho
  · obtain rfl := Except.ok.inj ho
    exact ⟨rfl, h, h.bloomFile⟩

variable {reader : TracePartReader}

/-- A row group with a span of the trace is chosen for it. -/
theorem TracePartReader.Opened.mem_traceRowGroups (h : reader.Opened P groups) {g : ℕ}
    {group : List (TraceSpan π)} (hg : groups[g]? = some group) {span : TraceSpan π}
    (hspan : span ∈ group) :
    g ∈ reader.traceRowGroups span.tenant span.traceId := by
  refine List.mem_filter.2 ⟨(h.layout.mem_tenantRowGroups hg).2 ?_, ?_⟩
  · exact (h.layout.oneTenant group (List.mem_of_getElem? hg) span hspan).symm
  · rw [TracePartReader.bloomContains, h.blooms, List.getElem?_map, hg]
    exact groupBloom_contains P hspan

/-- A row group with a span that overlaps the window is chosen for it. -/
theorem Layout.mem_tenantRowGroupsInRange (h : Layout P part groups) {g : ℕ}
    {group : List (TraceSpan π)} (hg : groups[g]? = some group) {span : TraceSpan π}
    (hspan : span ∈ group) {startNs endNs : Nanos} (ho : spanOverlaps span startNs endNs = true) :
    g ∈ part.info.tenantRowGroupsInRange span.tenant startNs endNs := by
  obtain ⟨hend, hstart⟩ := Bool.and_eq_true_iff.1 ho
  refine List.mem_filter.2 ⟨(h.mem_tenantRowGroups hg).2 ?_, ?_⟩
  · exact (h.oneTenant group (List.mem_of_getElem? hg) span hspan).symm
  · rw [h.rowGroupMinTs, h.rowGroupMaxTs, List.getElem?_map, List.getElem?_map, hg]
    refine Bool.and_eq_true_iff.2 ⟨decide_eq_true ?_, decide_eq_true ?_⟩
    · exact (of_decide_eq_true hend).trans (le_maxEnd hspan)
    · exact (minStart_le hspan).trans (of_decide_eq_true hstart)

/-- **The window read** finds the tenant's spans that overlap the window. -/
theorem Layout.queryRange_spec (h : Layout P reader.part groups) {tenant : String}
    {startNs endNs : Nanos} (hreads : ∀ span ∈ groups.flatten, P.Reads span)
    (hdata : reader.part.info.tenantRowGroupsInRange tenant startNs endNs ≠ [] →
      reader.part.data = some (fileOf P groups)) :
    ∃ spans, reader.queryRangeLimited P tenant startNs endNs none = .ok spans ∧
      spans.Perm (groups.flatten.filter fun span =>
        span.tenant = tenant && spanOverlaps span startNs endNs) := by
  have hchosen := h.chosen_inRange tenant startNs endNs
  have hread := h.querySelected_spec hchosen hreads none hdata
  refine ⟨_, by rw [TracePartReader.queryRangeLimited, hread]; rfl, ?_⟩
  refine ((sortSpans_perm _).filter _).trans ?_
  rw [List.filter_filter, ← Runs.filter_selected hchosen.sorted hchosen.lt fun g group hg span hs hp => ?_]
  · refine List.Perm.of_eq (List.filter_congr fun span hs => ?_)
    simp [h.tenant_of_chosen hchosen span hs]
  · obtain ⟨htenant, hover⟩ := Bool.and_eq_true_iff.1 hp
    have := h.mem_tenantRowGroupsInRange hg hs hover
    rwa [of_decide_eq_true htenant] at this

/-- **The read by id** finds the tenant's spans of the trace. -/
theorem TracePartReader.Opened.queryTraceId_spec (h : reader.Opened P groups)
    {tenant traceId : String} (hreads : ∀ span ∈ groups.flatten, P.Reads span)
    (hdata : reader.traceRowGroups tenant traceId ≠ [] →
      reader.part.data = some (fileOf P groups)) :
    ∃ spans, reader.queryTraceIdLimited P tenant traceId none = .ok spans ∧
      spans.Perm (groups.flatten.filter fun span =>
        span.tenant = tenant && span.traceId = traceId) := by
  have hchosen := h.layout.chosen_filter tenant (reader.bloomContains traceId)
  have hread := h.layout.querySelected_spec hchosen hreads (some traceId) hdata
  refine ⟨_, hread, (sortSpans_perm _).trans ?_⟩
  rw [← Runs.filter_selected hchosen.sorted hchosen.lt fun g group hg span hs hp => ?_]
  · refine List.Perm.of_eq (List.filter_congr fun span hs => ?_)
    simp [h.layout.tenant_of_chosen hchosen span hs]
  · obtain ⟨htenant, hid⟩ := Bool.and_eq_true_iff.1 hp
    have := h.mem_traceRowGroups hg hs
    rwa [of_decide_eq_true htenant, of_decide_eq_true hid] at this

/-- **The read of a tenant** finds all of its spans. -/
theorem Layout.perm_of_queryAll (h : Layout P reader.part groups) {tenant : String}
    {spans : List (TraceSpan π)} (hfaithful : ∀ span ∈ groups.flatten, P.Faithful span)
    (hdata : reader.part.data = none ∨ reader.part.data = some (fileOf P groups))
    (hok : reader.queryAllLimited P tenant none = .ok spans) :
    spans.Perm (groups.flatten.filter fun span => span.tenant = tenant) := by
  have hchosen := h.chosen_all tenant
  rw [(h.querySelected_of_ok hchosen hfaithful hdata hok).1]
  refine (sortSpans_perm _).trans ?_
  rw [← Runs.filter_selected hchosen.sorted hchosen.lt fun g group hg span hs hp => ?_]
  · refine List.Perm.of_eq (List.filter_congr fun span hs => ?_)
    simp [h.tenant_of_chosen hchosen span hs]
  · refine (h.mem_tenantRowGroups hg).2 ?_
    rw [← h.oneTenant group (List.mem_of_getElem? hg) span hs]
    exact of_decide_eq_true hp

/-! ### The writer -/

theorem flatten_rowGroupBounds {rowGroupSize : ℕ} (hsize : 0 < rowGroupSize)
    (spans : List (TraceSpan π)) : (rowGroupBounds rowGroupSize spans).flatten = spans :=
  Runs.flatten_flatMap_splitBy _ (Part.flatten_runsOf hsize) spans

theorem nonempty_of_mem_rowGroupBounds {rowGroupSize : ℕ} (hsize : 0 < rowGroupSize)
    {spans group : List (TraceSpan π)} (h : group ∈ rowGroupBounds rowGroupSize spans) :
    group ≠ [] := by
  obtain ⟨segment, -, hrun⟩ := List.mem_flatMap.1 h
  exact (Part.of_mem_runsOf hsize hrun).1

theorem tenant_of_mem_rowGroupBounds {rowGroupSize : ℕ} (hsize : 0 < rowGroupSize)
    {spans group : List (TraceSpan π)} (h : group ∈ rowGroupBounds rowGroupSize spans) :
    ∀ span ∈ group, span.tenant = groupTenant group := by
  obtain ⟨segment, hsegment, hrun⟩ := List.mem_flatMap.1 h
  obtain ⟨hne, -, hsub⟩ := Part.of_mem_runsOf hsize hrun
  intro span hspan
  cases group with
  | nil => cases hspan
  | cons first rest =>
    exact Runs.eq_of_isChain_beq TraceSpan.tenant (List.isChain_of_mem_splitBy hsegment)
      (hsub hspan) (hsub List.mem_cons_self)

theorem partKey_tenant_le {a b : TraceSpan π} (h : partKey a ≤ partKey b) : a.tenant ≤ b.tenant := by
  rw [partKey, partKey, Prod.Lex.le_iff] at h
  rcases h with h | ⟨h, -⟩
  · exact h.le
  · exact h.le

theorem loadTracePart_ok {part' : TracePart} (h : loadTracePart part = .ok part') :
    part' = part ∧ part.info.rowGroupCount = part.info.rowGroupMinTs.length := by
  rw [loadTracePart] at h
  split_ifs at h with hcount
  · obtain ⟨hmin, -⟩ := not_or.1 hcount
    cases hv : validateTraceTenantSegments part.info with
    | error e => rw [hv] at h; cases h
    | ok u =>
      rw [hv] at h
      exact ⟨(Except.ok.inj h).symm, not_not.1 hmin⟩

/-- The writer lays its spans out in the row groups it cut. -/
theorem layout_writeTracePartFiles {id : String} {partition : ℤ} {spans : List (TraceSpan π)}
    {rowGroupSize : ℕ} (hsize : 0 < rowGroupSize)
    (hsorted : spans.Pairwise fun a b => partKey a ≤ partKey b)
    (hpartition : ∀ span ∈ spans, partitionOf span.startTimeNs = partition)
    (hload : loadTracePart (writeTracePartFiles P id partition spans rowGroupSize) = .ok part) :
    part = writeTracePartFiles P id partition spans rowGroupSize ∧
      Layout P part (rowGroupBounds rowGroupSize spans) := by
  obtain ⟨rfl, hcount⟩ := loadTracePart_ok hload
  have hflat := flatten_rowGroupBounds hsize spans
  refine ⟨rfl, ?_⟩
  exact {
    nonempty := fun group hg => nonempty_of_mem_rowGroupBounds hsize hg
    oneTenant := fun group hg => tenant_of_mem_rowGroupBounds hsize hg
    sorted := by
      rw [hflat]
      exact hsorted.imp partKey_tenant_le
    partition := by
      rw [hflat]
      exact hpartition
    rowGroupCount := by
      rw [hcount]
      exact List.length_map _
    maxTsNs := by rw [hflat]; rfl
    rowGroupMinTs := rfl
    rowGroupMaxTs := rfl
    tenants := rfl
    bloomFile := rfl }

/-! ### What the writer leaves passes the checks -/

theorem sum_rowCount (groups : List (List (TraceSpan π))) :
    ((traceTenantSegments groups).map TraceTenantSegment.rowCount).sum = groups.flatten.length := by
  induction groups using List.reverseRecOn with
  | nil => rfl
  | append_singleton groups group ih =>
    rw [traceTenantSegments_append, addSegment, List.flatten_append, List.length_append, ← ih]
    split
    case h_1 segment hlast =>
      obtain ⟨front, hfront⟩ := List.getLast?_eq_some_iff.1 hlast
      rw [hfront]
      split_ifs <;> simp [Nat.add_assoc]
    case h_2 => simp

theorem rowCount_pos {groups : List (List (TraceSpan π))} (h : ∀ group ∈ groups, group ≠ []) :
    ∀ segment ∈ traceTenantSegments groups, 0 < segment.rowCount := by
  induction groups using List.reverseRecOn with
  | nil => exact fun _ hs => by cases hs
  | append_singleton groups group ih =>
    have hold := ih fun g hg => h g (List.mem_append_left _ hg)
    have hnew : 0 < group.length := List.length_pos_of_ne_nil (h group (by simp))
    intro segment hs
    rw [traceTenantSegments_append, addSegment] at hs
    split at hs
    case h_1 last hlast =>
      obtain ⟨front, hfront⟩ := List.getLast?_eq_some_iff.1 hlast
      split_ifs at hs
      · rcases List.mem_append.1 hs with hs | hs
        · exact hold segment (List.dropLast_subset _ hs)
        · rw [List.mem_singleton.1 hs]
          exact Nat.add_pos_right _ hnew
      · rcases List.mem_append.1 hs with hs | hs
        · exact hold segment hs
        · rw [List.mem_singleton.1 hs]
          exact hnew
    case h_2 =>
      rcases List.mem_append.1 hs with hs | hs
      · exact hold segment hs
      · rw [List.mem_singleton.1 hs]
        exact hnew

/-- Segments that tile the row groups pass the loader's walk over them. -/
theorem validate_go {info : TracePartMeta} {start : ℕ} {segments : List TraceTenantSegment}
    (h : Runs.Tiles segmentView groupTenant start segments groups)
    (hcount : info.rowGroupCount = start + groups.length)
    (hlt : (segments.map segmentView.owner).Pairwise (· < ·))
    (hpos : ∀ segment ∈ segments, 0 < segment.rowCount) {previous : Option String}
    (hprevious : ∀ tenant ∈ previous, ∀ segment ∈ segments, tenant < segment.tenant) :
    validateTraceTenantSegments.go info start previous segments = .ok () := by
  induction segments generalizing start groups previous with
  | nil =>
    obtain rfl : groups = [] := h
    rw [validateTraceTenantSegments.go, if_neg (by simp [hcount])]
  | cons segment segments ih =>
    obtain ⟨mine, rest, rfl, hne, hstart, hend, -, hrest⟩ := h
    obtain ⟨hfirst, hlater⟩ := List.pairwise_cons.1 hlt
    have hlen : 0 < mine.length := List.length_pos_of_ne_nil hne
    rw [List.length_append] at hcount
    simp only [segmentView] at hstart hend
    have hsorted : ¬ previous.any (segment.tenant ≤ ·) = true := by
      cases previous with
      | none => simp
      | some tenant => simpa using hprevious tenant rfl segment List.mem_cons_self
    have htile : ¬ (segment.rowGroupStart ≠ start ∨ segment.rowGroupEnd ≤ segment.rowGroupStart ∨
        info.rowGroupCount < segment.rowGroupEnd) := by omega
    rw [validateTraceTenantSegments.go, if_neg hsorted, if_neg htile,
      if_neg (hpos segment List.mem_cons_self).ne', hend]
    refine ih hrest (by omega) hlater (fun s hs => hpos s (List.mem_cons_of_mem _ hs)) ?_
    intro tenant ht other hother
    obtain rfl := Option.some.inj ht
    exact hfirst _ (List.mem_map_of_mem hother)

/-- **What the writer leaves loads**, unless there are more row groups than it can count. -/
theorem loadTracePart_writeTracePartFiles (P : Codec π) (id : String) (partition : ℤ)
    {spans : List (TraceSpan π)} (hne : spans ≠ []) {rowGroupSize : ℕ} (hsize : 0 < rowGroupSize)
    (hsorted : spans.Pairwise fun a b => partKey a ≤ partKey b)
    (hfew : (rowGroupBounds rowGroupSize spans).length < 2 ^ 32) :
    loadTracePart (writeTracePartFiles P id partition spans rowGroupSize) =
      .ok (writeTracePartFiles P id partition spans rowGroupSize) := by
  have hflat := flatten_rowGroupBounds hsize spans
  have hnonempty := fun group (hg : group ∈ rowGroupBounds rowGroupSize spans) =>
    nonempty_of_mem_rowGroupBounds hsize hg
  have htenants : (rowGroupBounds rowGroupSize spans).Pairwise
      fun a b => groupTenant a ≤ groupTenant b :=
    Runs.pairwise_owner hnonempty (fun group hg => tenant_of_mem_rowGroupBounds hsize hg)
      (by rw [hflat]; exact hsorted.imp partKey_tenant_le)
  have htiles := tiles_traceTenantSegments (rowGroupBounds rowGroupSize spans)
  have hlt := Part.pairwise_lt_of_neighbours (htiles.pairwise_le htenants)
    (isChain_traceTenantSegments _)
  obtain ⟨part, hpart⟩ : ∃ part, part = writeTracePartFiles P id partition spans rowGroupSize :=
    ⟨_, rfl⟩
  have hinfo : part.info.tenants = traceTenantSegments (rowGroupBounds rowGroupSize spans) := by
    rw [hpart]; rfl
  have hcount : part.info.rowGroupCount = (rowGroupBounds rowGroupSize spans).length := by
    rw [hpart]; exact Nat.mod_eq_of_lt hfew
  have hmin : part.info.rowGroupMinTs.length = (rowGroupBounds rowGroupSize spans).length := by
    rw [hpart]; exact List.length_map _
  have hmax : part.info.rowGroupMaxTs.length = (rowGroupBounds rowGroupSize spans).length := by
    rw [hpart]; exact List.length_map _
  have hrows : (part.info.tenants.map TraceTenantSegment.rowCount).sum = part.info.rowCount := by
    rw [hinfo, sum_rowCount, hflat, hpart]; rfl
  have hsegments : part.info.tenants ≠ [] := by
    intro hnil
    rw [hinfo] at hnil
    have hlength := sum_rowCount (rowGroupBounds rowGroupSize spans)
    rw [hnil, hflat] at hlength
    exact hne (List.length_eq_zero_iff.1 hlength.symm)
  have hnone : ∀ tenant ∈ (none : Option String), ∀ segment ∈ part.info.tenants,
      tenant < segment.tenant := fun _ ht => by cases ht
  have hgo : validateTraceTenantSegments.go part.info 0 none part.info.tenants = .ok () := by
    rw [hinfo] at hnone ⊢
    exact validate_go htiles (hcount.trans (Nat.zero_add _).symm) hlt (rowCount_pos hnonempty) hnone
  have hvalid : validateTraceTenantSegments part.info = .ok () := by
    rw [validateTraceTenantSegments, if_neg hsegments, hgo, hrows]
    exact if_neg (not_not.2 rfl)
  rw [← hpart, loadTracePart, hcount, hmin, hmax, hvalid, if_neg (by simp)]
  rfl

/-- A part as the writer leaves it: laid out, with its Parquet file. -/
structure Written (P : Codec π) (part : TracePart) (groups : List (List (TraceSpan π))) : Prop where
  layout : Layout P part groups
  data : part.data = some (fileOf P groups)

def daysOf (spans : List (TraceSpan π)) : List ℤ :=
  (spans.map fun span => partitionOf span.startTimeNs).dedup.mergeSort (· ≤ ·)

theorem nodup_daysOf (spans : List (TraceSpan π)) : (daysOf spans).Nodup :=
  (List.mergeSort_perm _ _).nodup_iff.2 (List.nodup_dedup _)

theorem mem_daysOf {spans : List (TraceSpan π)} {span : TraceSpan π} (h : span ∈ spans) :
    partitionOf span.startTimeNs ∈ daysOf spans :=
  List.mem_mergeSort.2 (List.mem_dedup.2 (List.mem_map_of_mem h))

/-- **The writer** makes a part for each day, with the forced id if there is one, and every span is
in one of them as often as it was given. -/
theorem flushTraceSpansWithId_spec {rowGroupSize : ℕ} {uuid : ℤ → String} {forcedId : Option String}
    {spans : List (TraceSpan π)} {parts : List TracePart}
    (h : flushTraceSpansWithId P rowGroupSize uuid forcedId spans = .ok parts) :
    ∃ laid : List (List (List (TraceSpan π))), laid.flatten.flatten.Perm spans ∧
      (parts.map fun part => part.info.partition) = daysOf spans ∧ List.Forall₂ (fun part groups => Written P part groups ∧ part.info.id = forcedId.getD
        (P.compactDay part.info.partition ++ "-" ++ uuid part.info.partition)) parts laid := by
  rw [flushTraceSpansWithId] at h
  split_ifs at h with hempty hzero hforced
  · obtain rfl := Except.ok.inj h
    rw [List.isEmpty_iff.1 hempty]
    exact ⟨[], .nil, by simp [daysOf], .nil⟩
  have hsize : 0 < rowGroupSize := Nat.pos_of_ne_zero hzero
  let binned := fun day => (spans.filter fun span => partitionOf span.startTimeNs = day).mergeSort
    fun left right => partKey left ≤ partKey right
  have hparts := forall₂_of_mapM h
  have hdays : List.Forall₂ (fun part day => (Written P part (rowGroupBounds rowGroupSize (binned day)) ∧
      part.info.id = forcedId.getD (P.compactDay day ++ "-" ++ uuid day)) ∧
      part.info.partition = day) parts (daysOf spans) := by
    refine hparts.flip.imp fun part day hday => ?_
    simp only at hday
    split_ifs at hday
    have hsorted : (binned day).Pairwise fun a b => partKey a ≤ partKey b := by
      have : Std.Total fun a b : TraceSpan π => partKey a ≤ partKey b :=
        ⟨fun a b => le_total (partKey a) (partKey b)⟩
      have : IsTrans (TraceSpan π) fun a b => partKey a ≤ partKey b :=
        ⟨fun _ _ _ h h' => h.trans h'⟩
      exact List.pairwise_mergeSort' (fun a b : TraceSpan π => partKey a ≤ partKey b) _
    obtain ⟨rfl, hlayout⟩ := layout_writeTracePartFiles hsize hsorted (fun span hs => by
      simpa using (List.mem_filter.1 (List.mem_mergeSort.1 hs)).2) hday
    exact ⟨⟨⟨hlayout, rfl⟩, rfl⟩, rfl⟩
  refine ⟨(daysOf spans).map fun day => rowGroupBounds rowGroupSize (binned day), ?_, ?_, ?_⟩
  · rw [List.flatten_flatten, List.map_map]
    have hbins : ((daysOf spans).map fun day => (rowGroupBounds rowGroupSize (binned day)).flatten) =
        (daysOf spans).map binned := List.map_congr_left fun day _ => flatten_rowGroupBounds hsize _
    refine (List.Perm.of_eq (congrArg List.flatten hbins)).trans ?_
    rw [← List.flatMap_def]
    refine List.Perm.trans (List.Perm.flatMap_left _ fun day _ => List.mergeSort_perm _ _) ?_
    exact Runs.perm_flatMap_filter (fun span : TraceSpan π => partitionOf span.startTimeNs)
      (nodup_daysOf spans) spans fun span hs => mem_daysOf hs
  · rw [← List.forall₂_eq_eq_eq, List.forall₂_map_left_iff]
    exact hdays.imp fun _ _ h => h.2
  · rw [List.forall₂_map_right_iff]
    refine hdays.imp fun part day h => ?_
    rw [h.2]
    exact h.1

/-! ### The writer and the opening succeed -/

theorem length_le_length_flatten {α : Type*} {groups : List (List α)}
    (h : ∀ group ∈ groups, group ≠ []) : groups.length ≤ groups.flatten.length := by
  induction groups with
  | nil => exact le_rfl
  | cons group groups ih =>
    have hpos := List.length_pos_of_ne_nil (h group List.mem_cons_self)
    have hrest := ih fun g hg => h g (List.mem_cons_of_mem _ hg)
    rw [List.flatten_cons, List.length_append, List.length_cons]
    omega

/-- **The writer succeeds** on spans that a `u32` can count. -/
theorem flushTraceSpansWithId_ok (P : Codec π) {rowGroupSize : ℕ} (hsize : 0 < rowGroupSize)
    (uuid : ℤ → String) {spans : List (TraceSpan π)} (hfew : spans.length < 2 ^ 32) :
    ∃ parts, flushTraceSpansWithId P rowGroupSize uuid none spans = .ok parts := by
  rw [flushTraceSpansWithId]
  cases hempty : spans.isEmpty with
  | true => exact ⟨[], rfl⟩
  | false =>
    simp only [Bool.false_eq_true, if_false, if_neg hsize.ne', Option.isSome_none, false_and,
      Option.any_none, Option.getD_none]
    refine mapM_ok fun day hday => ⟨_, loadTracePart_writeTracePartFiles P _ day ?_ hsize ?_ ?_⟩
    · obtain ⟨span, hs, hd⟩ := List.mem_map.1 (List.mem_dedup.1 (List.mem_mergeSort.1 hday))
      refine List.ne_nil_of_mem (a := span) (List.mem_mergeSort.2 (List.mem_filter.2 ⟨hs, ?_⟩))
      exact decide_eq_true hd
    · have : Std.Total fun a b : TraceSpan π => partKey a ≤ partKey b :=
        ⟨fun a b => le_total (partKey a) (partKey b)⟩
      have : IsTrans (TraceSpan π) fun a b => partKey a ≤ partKey b :=
        ⟨fun _ _ _ h h' => h.trans h'⟩
      exact List.pairwise_mergeSort' (fun a b : TraceSpan π => partKey a ≤ partKey b) _
    · refine lt_of_le_of_lt (length_le_length_flatten fun group hg =>
        nonempty_of_mem_rowGroupBounds hsize hg) (lt_of_le_of_lt ?_ hfew)
      rw [flatten_rowGroupBounds hsize, List.length_mergeSort]
      exact List.length_filter_le _ _

theorem numBits_groupBloom (sizing : ℕ → ℕ × ℕ) (group : List (TraceSpan π)) :
    ∃ n ≤ max group.length 1, (groupBloom sizing group).numBits = (sizing n).1 := by
  have hfold : ∀ (ids : List (List UInt8)) (filter : BloomFilter),
      (ids.foldl BloomFilter.insert filter).numBits = filter.numBits := by
    intro ids
    induction ids with
    | nil => exact fun _ => rfl
    | cons id ids ih => exact fun filter => ih (filter.insert id)
  refine ⟨_, max_le_max_right 1 ?_, hfold _ _⟩
  exact (List.dedup_sublist _).length_le.trans (List.length_map _).le

/-- **Opening** a part of the writer has its filters if they read back. -/
theorem Written.openInternal_eq (h : Written P part groups) {requireData : Bool}
    (hsmall : ∀ group ∈ groups, (groupBloom P.sizing group).numBits < 2 ^ 32) :
    TracePartReader.openInternal requireData part = .ok ⟨part, part.bloomFile⟩ := by
  have hany : ¬ part.bloomFile.any (fun filter => decide (2 ^ 32 ≤ filter.numBits)) = true := by
    rw [h.layout.bloomFile, List.any_map, List.any_eq_true]
    rintro ⟨group, hg, hlarge⟩
    exact absurd (hsmall group hg) (Nat.not_lt.2 (of_decide_eq_true hlarge))
  rw [TracePartReader.openInternal, h.data, decodeTraceBlooms, if_neg (by simp),
    if_neg (by rw [h.layout.bloomFile, List.length_map, h.layout.rowGroupCount]; simp), if_neg hany]
  rfl

end Trace

end Obsy
