import Obsy.Metrics.Layout
import Obsy.Part.Rewrite
import Obsy.Retention.Pass
import Obsy.Trace.Scan

/-!
# What a decision says of the rows

The summary of a part bounds what its writer put into it, for every writer there is.

* `LogContent`, `TraceContent`, `SeriesContent`: parts with what was written into them.
* `LogContent.expired`, `TraceContent.expired`, `SeriesContent.expired`: a part that is decided to
  have expired has nothing that is kept still.
* `retention_keeps_live`: so a pass takes nothing away that is kept still.
-/

namespace Obsy

namespace Retention

open Part (Nanos Row LogPart ParsedRow)
open Trace (TraceSpan TracePart)
open Metrics (SeriesRow SeriesPart)

variable {cutoffs : Cutoffs}

/-! ### Logs -/

/-- The two writers of log parts. -/
inductive LogWritten (P : Part.Platform) (part : LogPart) (rows : List Row) : Prop where
  | batch (id : String) (partition : ℤ) (rowGroupSize : ℕ) (hsize : 0 < rowGroupSize)
      (h : Part.writePartFiles P id partition rows rowGroupSize = some part)
  | streamed (id : String) (partition : ℤ) (metadataKeys parsedKeys : List String)
      (rowGroupSize : ℕ) (hsize : 0 < rowGroupSize) (writer : Part.StreamingPartWriter)
      (hpush : rows.foldlM (Part.StreamingPartWriter.push P)
        (.create metadataKeys parsedKeys rowGroupSize) = some writer)
      (hfinish : writer.finish P id partition = some part)

structure LogContent (P : Part.Platform) where
  part : LogPart
  rows : List Row
  written : LogWritten P part rows

/-- The segments bound their row groups. -/
theorem tiled_covers {start : ℕ} {segments : List Part.TenantSegment}
    {groups : List (List ParsedRow)} (h : Part.Tiled start segments groups) {group : List ParsedRow}
    (hg : group ∈ groups) : ∃ segment ∈ segments, Part.groupTenant group = segment.tenant ∧
      Part.maxTs group ≤ segment.maxTsNs := by
  induction segments generalizing start groups with
  | nil =>
    obtain rfl : groups = [] := h
    cases hg
  | cons segment segments ih =>
    obtain ⟨mine, rest, rfl, -, -, -, htenant, -, -, hmax, hrest⟩ := h
    rcases List.mem_append.1 hg with hg | hg
    · exact ⟨segment, List.mem_cons_self, htenant group hg,
        (List.max?_eq_some_iff.1 hmax).2 _ (List.mem_map_of_mem hg)⟩
    · obtain ⟨other, ho, hcovers⟩ := ih hrest hg
      exact ⟨other, List.mem_cons_of_mem _ ho, hcovers⟩

/-- Row groups of one tenant each whose segments have expired. -/
theorem expired_of_segments {info : Part.PartMeta} {groups : List (List ParsedRow)}
    (htenants : info.tenants = Part.tenantSegments groups)
    (hone : ∀ group ∈ groups, ∀ r ∈ group, r.1.tenant = Part.groupTenant group)
    (hexpired : cutoffs.logPartFullyExpired info = true) {r : ParsedRow} (hr : r ∈ groups.flatten) :
    cutoffs.isExpired r.1.tenant .logs r.1.timestampNs = true := by
  obtain ⟨group, hgroup, hmem⟩ := List.mem_flatten.1 hr
  obtain ⟨segment, hsegment, htenant, hmax⟩ :=
    tiled_covers (Part.tiled_tenantSegments groups) hgroup
  have hall := List.all_eq_true.1 (Bool.and_eq_true_iff.1 hexpired).2 segment (htenants ▸ hsegment)
  rw [hone group hgroup r hmem, htenant]
  exact Cutoffs.isExpired_of_le hall ((Part.le_maxTs hmem).trans hmax)

/-- **A log part** that is decided to have expired has. -/
theorem LogWritten.expired {P : Part.Platform} {part : LogPart} {rows : List Row}
    (h : LogWritten P part rows) (hexpired : cutoffs.logPartFullyExpired part.info = true)
    {row : Row} (hrow : row ∈ rows) :
    cutoffs.isExpired row.tenant .logs row.timestampNs = true := by
  cases h with
  | batch id partition rowGroupSize hsize h =>
    obtain ⟨index, -, rfl⟩ := Option.map_eq_some_iff.1 h
    refine expired_of_segments rfl (Part.cut_rowGroupBounds hsize _).oneTenant hexpired
      (r := Part.parseRow P row) ?_
    rw [Part.flatten_rowGroupBounds hsize]
    exact List.mem_map_of_mem hrow
  | streamed id partition metadataKeys parsedKeys rowGroupSize hsize writer hpush hfinish =>
    obtain ⟨last, hlast, rfl⟩ := Option.map_eq_some_iff.1 hfinish
    obtain ⟨written, hfill, hflat, -⟩ := (Part.filling_create (P := P) metadataKeys parsedKeys
      rowGroupSize).foldlM_push hsize hpush
    obtain ⟨groups, hfill', hall, -, -⟩ := hfill.flushGroup hlast
    have hrow' : (row, (Part.StreamingPartWriter.create metadataKeys parsedKeys rowGroupSize).parsed
        P row) ∈ groups.flatten := by
      rw [hall, hflat]
      exact List.mem_append_right _ (List.mem_map_of_mem hrow)
    exact expired_of_segments hfill'.tenants hfill'.cut.oneTenant hexpired hrow'

/-! ### Traces -/

structure TraceContent {π : Type} (P : Trace.Platform π) where
  part : TracePart
  spans : List (TraceSpan π)
  /-- `write_trace_part_files`, which flush and compaction share. -/
  written : ∃ id partition rowGroupSize, 0 < rowGroupSize ∧
    Trace.writeTracePartFiles P id partition spans rowGroupSize = part

/-- The bound of a segment is one of each row group it owns. -/
theorem le_traceSegmentMax {info : Trace.TracePartMeta} {segment : Trace.TraceTenantSegment} {g : ℕ}
    {bound : Nanos} (hbound : info.rowGroupMaxTs[g]? = some bound)
    (hfirst : segment.rowGroupStart ≤ g) (hstop : g < segment.rowGroupEnd)
    (hend : segment.rowGroupEnd ≤ info.rowGroupMaxTs.length) :
    bound ≤ Cutoffs.traceSegmentMax info segment := by
  have hmem : bound ∈ (info.rowGroupMaxTs.drop segment.rowGroupStart).take
      (segment.rowGroupEnd - segment.rowGroupStart) := by
    refine List.mem_of_getElem? (i := g - segment.rowGroupStart) ?_
    rw [List.getElem?_take_of_lt (by omega), List.getElem?_drop, Nat.add_sub_cancel' hfirst, hbound]
  rw [Cutoffs.traceSegmentMax, if_pos ⟨by omega, hend⟩]
  cases hmax : ((info.rowGroupMaxTs.drop segment.rowGroupStart).take
      (segment.rowGroupEnd - segment.rowGroupStart)).max? with
  | none =>
    rw [List.max?_eq_none_iff.1 hmax] at hmem
    cases hmem
  | some hi => exact (List.max?_eq_some_iff.1 hmax).2 bound hmem

/-- **A trace part** that is decided to have expired has: every span of it has ended by then. -/
theorem TraceContent.expired {π : Type} {P : Trace.Platform π} (content : TraceContent P)
    (hexpired : cutoffs.tracePartFullyExpired content.part.info = true) {span : TraceSpan π}
    (hspan : span ∈ content.spans) :
    cutoffs.isExpired span.tenant .traces span.endTimeNs = true := by
  obtain ⟨part, spans, id, partition, rowGroupSize, hsize, rfl⟩ := content
  set groups := Trace.rowGroupBounds rowGroupSize spans with hgroups
  have hmem : span ∈ groups.flatten := by
    rw [hgroups, Trace.flatten_rowGroupBounds hsize]
    exact hspan
  obtain ⟨group, hgroup, hin⟩ := List.mem_flatten.1 hmem
  obtain ⟨g, hg⟩ := List.mem_iff_getElem?.1 hgroup
  obtain ⟨segment, hsegment, howner, hfirst, hstop, hend⟩ :=
    (Trace.tiles_traceTenantSegments groups).exists_segment hg
  have hall := List.all_eq_true.1 (Bool.and_eq_true_iff.1 hexpired).2 segment hsegment
  have hbound : (groups.map Trace.maxEnd)[g]? = some (Trace.maxEnd group) := by
    rw [List.getElem?_map, hg]
    rfl
  rw [Nat.zero_add] at hfirst hstop hend
  have hle : Trace.maxEnd group ≤ Cutoffs.traceSegmentMax
      (Trace.writeTracePartFiles P id partition spans rowGroupSize).info segment :=
    le_traceSegmentMax hbound hfirst hstop (by rwa [← List.length_map (f := Trace.maxEnd)] at hend)
  rw [Trace.tenant_of_mem_rowGroupBounds hsize hgroup span hin, howner]
  exact Cutoffs.isExpired_of_le hall ((Trace.le_maxEnd hin).trans hle)

/-! ### Metrics -/

structure SeriesContent (ν : Type) where
  part : SeriesPart ν
  rows : List (SeriesRow ν)
  /-- The streaming writer, which flush and compaction share. -/
  written : ∃ (sizing : ℕ → ℕ × ℕ) (id : String) (partition : ℤ) (bloomItems : ℕ),
    (∀ n, 0 < (sizing n).1) ∧
      Metrics.writeSeriesPart sizing id partition bloomItems rows = .ok part

/-- **A metric part** that is decided to have expired has. -/
theorem SeriesContent.expired {ν : Type} (content : SeriesContent ν)
    (hexpired : cutoffs.metricPartFullyExpired content.part.info = true) {row : SeriesRow ν}
    (hrow : row ∈ content.rows) {ts : Nanos} (hts : ts ∈ row.payload.timestamps) :
    cutoffs.isExpired row.tenant .metrics ts = true := by
  obtain ⟨sizing, id, partition, bloomItems, hsizing, hwrite⟩ := content.written
  obtain ⟨hlayout, -⟩ := Metrics.layout_writeSeriesPart hsizing hwrite
  obtain ⟨segment, hsegment, howner⟩ := hlayout.tiles.mem hrow
  have hall := List.all_eq_true.1 (Bool.and_eq_true_iff.1 hexpired).2 segment hsegment
  rw [show row.tenant = segment.tenant from howner]
  exact Cutoffs.isExpired_of_le hall (hlayout.bounds row hrow ts hts).2

/-! ### The pass -/

def logKind (P : Part.Platform) : PartKind (LogContent P) where
  id content := content.part.info.id
  fullyExpired cutoffs content := cutoffs.logPartFullyExpired content.part.info

def traceKind {π : Type} (P : Trace.Platform π) : PartKind (TraceContent P) where
  id content := content.part.info.id
  fullyExpired cutoffs content := cutoffs.tracePartFullyExpired content.part.info

def metricKind (ν : Type) : PartKind (SeriesContent ν) where
  id content := content.part.info.id
  fullyExpired cutoffs content := cutoffs.metricPartFullyExpired content.part.info

/-- A server whose shelves hold written parts, before any pass. -/
structure Server.Starts {α β γ : Type} (logKind : PartKind α) (traceKind : PartKind β)
    (metricKind : PartKind γ) (server : Server α β γ) : Prop where
  logs : server.logs.Sound logKind
  traces : server.traces.Sound traceKind
  metrics : server.metrics.Sound metricKind
  idle : server.stage = .idle

/-- What has expired is of a tenant whose policy is known. -/
theorem contains_of_isExpired {tenant : String} {signal : Signal} {ts : Nanos}
    (h : cutoffs.isExpired tenant signal ts = true) : cutoffs.policies.contains tenant = true := by
  by_contra hunknown
  rw [Bool.not_eq_true] at hunknown
  rw [Cutoffs.isExpired_unknown hunknown] at h
  cases h

/-- A timestamp of a tenant that its retention no longer keeps; the tenant has a policy. -/
def Cutoffs.Drops (cutoffs : Cutoffs) (tenant : String) (signal : Signal) (ts : Nanos) : Prop :=
  cutoffs.isExpired tenant signal ts = true ∧ cutoffs.policies.contains tenant = true

/-- Every row of a log part is dropped. -/
def LogContent.Dead {P : Part.Platform} (content : LogContent P) (cutoffs : Cutoffs) : Prop :=
  ∀ row ∈ content.rows, cutoffs.Drops row.tenant .logs row.timestampNs

/-- Every span of a trace part is dropped, by its end. -/
def TraceContent.Dead {π : Type} {P : Trace.Platform π} (content : TraceContent P)
    (cutoffs : Cutoffs) : Prop :=
  ∀ span ∈ content.spans, cutoffs.Drops span.tenant .traces span.endTimeNs

/-- Every sample of a metric part is dropped. -/
def SeriesContent.Dead {ν : Type} (content : SeriesContent ν) (cutoffs : Cutoffs) : Prop :=
  ∀ row ∈ content.rows, ∀ ts ∈ row.payload.timestamps, cutoffs.Drops row.tenant .metrics ts

variable {π ν : Type} {P : Part.Platform} {Q : Trace.Platform π}

theorem LogContent.dead {content : LogContent P}
    (h : cutoffs.logPartFullyExpired content.part.info = true) : content.Dead cutoffs := by
  intro row hrow
  have hexpired := content.written.expired h hrow
  exact ⟨hexpired, contains_of_isExpired hexpired⟩

theorem TraceContent.dead {content : TraceContent Q}
    (h : cutoffs.tracePartFullyExpired content.part.info = true) : content.Dead cutoffs := by
  intro span hspan
  have hexpired := content.expired h hspan
  exact ⟨hexpired, contains_of_isExpired hexpired⟩

theorem SeriesContent.dead {content : SeriesContent ν}
    (h : cutoffs.metricPartFullyExpired content.part.info = true) : content.Dead cutoffs := by
  intro row hrow ts hts
  have hexpired := content.expired h hrow hts
  exact ⟨hexpired, contains_of_isExpired hexpired⟩

/-- **Retention removes no live data.**  A part that is decided to have expired has no row, span or
sample that is kept still; and among whatever other tasks a pass runs, a part that one of its steps
takes out of a registry, off the disk or out of a manifest has none under the cutoffs of the pass. -/
theorem retention_keeps_live :
    (∀ cutoffs : Cutoffs,
      (∀ content : LogContent P, cutoffs.logPartFullyExpired content.part.info = true →
        content.Dead cutoffs) ∧
      (∀ content : TraceContent Q, cutoffs.tracePartFullyExpired content.part.info = true →
        content.Dead cutoffs) ∧
      ∀ content : SeriesContent ν, cutoffs.metricPartFullyExpired content.part.info = true →
        content.Dead cutoffs) ∧
    ∀ server before after events event,
      server.Starts (logKind P) (traceKind Q) (metricKind ν) →
      (retentionMachine (logKind P) (traceKind Q) (metricKind ν)).run server events = some before →
      (retentionMachine (logKind P) (traceKind Q) (metricKind ν)).step before event = some after →
      event.IsRetention →
      (∀ content, Lost (logKind P) before.logs after.logs content →
        ∃ cutoffs, before.stage.cutoffs = some cutoffs ∧ content.Dead cutoffs) ∧
      (∀ content, Lost (traceKind Q) before.traces after.traces content →
        ∃ cutoffs, before.stage.cutoffs = some cutoffs ∧ content.Dead cutoffs) ∧
      ∀ content, Lost (metricKind ν) before.metrics after.metrics content →
        ∃ cutoffs, before.stage.cutoffs = some cutoffs ∧ content.Dead cutoffs := by
  refine ⟨fun cutoffs => ⟨fun _ => LogContent.dead, fun _ => TraceContent.dead,
    fun _ => SeriesContent.dead⟩, fun server before after events event hstart hrun hstep hret => ?_⟩
  have hserver : server.Sound (logKind P) (traceKind Q) (metricKind ν) :=
    ⟨hstart.logs, hstart.traces, hstart.metrics, by rw [hstart.idle]; trivial⟩
  obtain ⟨-, htakes, hnone⟩ := (hserver.run hrun).step hstep
  cases hcutoffs : before.stage.cutoffs with
  | none =>
    obtain ⟨hlogs, htraces, hmetrics⟩ := hnone hret hcutoffs
    rw [hlogs, htraces, hmetrics]
    exact ⟨fun _ hlost => absurd hlost (not_lost_self _),
      fun _ hlost => absurd hlost (not_lost_self _), fun _ hlost => absurd hlost (not_lost_self _)⟩
  | some cutoffs =>
    obtain ⟨hlogs, htraces, hmetrics⟩ := htakes hret cutoffs hcutoffs
    exact ⟨fun content hlost => ⟨cutoffs, rfl, LogContent.dead (hlogs content hlost)⟩,
      fun content hlost => ⟨cutoffs, rfl, TraceContent.dead (htraces content hlost)⟩,
      fun content hlost => ⟨cutoffs, rfl, SeriesContent.dead (hmetrics content hlost)⟩⟩

/-- One sample of a tenant. -/
def oneSample : List (SeriesRow Unit) := [⟨"acme", ⟨[]⟩, .scalar [(Nanos.zero, ())]⟩]

def oneSampleContent : SeriesContent Unit where
  part :=
    { info :=
        { id := "uuid"
          partition := 0
          minTsNs := Nanos.zero
          maxTsNs := Nanos.zero
          seriesCount := 1
          sampleCount := 1
          tenants := [⟨"acme", 0, 1, 1⟩] }
      baseTsNs := Nanos.zero
      index := [⟨.scalar, ⟨[]⟩, 0, 0, 0⟩]
      bloomFile := .withCapacity (8, 1)
      data := some [.scalar [(Nanos.zero, ())]] }
  rows := oneSample
  written := ⟨fun _ => (8, 1), "uuid", 0, 1, fun _ => Nat.succ_pos 7, rfl⟩

/-- The tenant keeps nothing. -/
def zeroRetention : Cutoffs := ⟨⟨[("acme", ⟨.finite 0, none, none, none⟩)]⟩, Nanos.max⟩

theorem retention_keeps_live_sample :
    ∃ before after : Server (LogContent Part.plainPlatform) (TraceContent Trace.tallyPlatform)
        (SeriesContent Unit),
      (retentionMachine (logKind _) (traceKind _) (metricKind Unit)).run
        ⟨⟨[], [], [], []⟩, ⟨[], [], [], []⟩, ⟨[], [], [], []⟩, .idle⟩
        [.metrics (.write "dir" oneSampleContent), .metrics (.register "dir"),
          .decide (some zeroRetention) 100] = some before ∧
      (retentionMachine (logKind _) (traceKind _) (metricKind Unit)).step before
        (.remove false (fun _ => .removed) (fun _ => .removed) (fun _ => .removed)) = some after ∧
      before.metrics.readers ≠ [] ∧ after.metrics.readers = [] ∧
      ∃ cutoffs, before.stage.cutoffs = some cutoffs ∧ oneSampleContent.Dead cutoffs := by
  have hsound : ∀ {α : Type} (kind : PartKind α), (⟨[], [], [], []⟩ : Shelf α).Sound kind :=
    fun kind => ⟨nofun, nofun, nofun⟩
  let shelf : Shelf (SeriesContent Unit) :=
    ⟨[("uuid", ⟨"dir", oneSampleContent⟩)], [("dir", oneSampleContent)], [],
      [("dir", oneSampleContent)]⟩
  let before : Server (LogContent Part.plainPlatform) (TraceContent Trace.tallyPlatform)
      (SeriesContent Unit) :=
    ⟨⟨[], [], [], []⟩, ⟨[], [], [], []⟩, shelf, .decided zeroRetention [] [] [("uuid", "dir")]⟩
  have hexpired : (metricKind Unit).fullyExpired zeroRetention oneSampleContent = true := by decide
  have hcandidates : candidates (metricKind Unit) zeroRetention 100 shelf = [("uuid", "dir")] := by
    simp only [candidates, shelf, List.filter_cons, hexpired, if_true, List.filter_nil,
      List.map_cons, List.map_nil, List.mergeSort_singleton]
    rfl
  have hdecide : (retentionMachine (logKind Part.plainPlatform) (traceKind Trace.tallyPlatform)
      (metricKind Unit)).step ⟨⟨[], [], [], []⟩, ⟨[], [], [], []⟩, shelf, .idle⟩
        (.decide (some zeroRetention) 100) = some before := by
    have hnone : ∀ {α : Type} (kind : PartKind α),
        candidates kind zeroRetention 100 (⟨[], [], [], []⟩ : Shelf α) = [] :=
      fun kind => by simp [candidates]
    simp only [retentionMachine, Server.decide, hnone, hcandidates]
    rfl
  have hrun : (retentionMachine (logKind Part.plainPlatform) (traceKind Trace.tallyPlatform)
      (metricKind Unit)).run ⟨⟨[], [], [], []⟩, ⟨[], [], [], []⟩, ⟨[], [], [], []⟩, .idle⟩
        [.metrics (.write "dir" oneSampleContent), .metrics (.register "dir"),
          .decide (some zeroRetention) 100] = some before := by
    refine Machine.run_cons_eq_some.2 ⟨_, rfl, Machine.run_cons_eq_some.2 ⟨_, rfl, ?_⟩⟩
    exact Machine.run_cons_eq_some.2 ⟨before, hdecide, rfl⟩
  let after : Server (LogContent Part.plainPlatform) (TraceContent Trace.tallyPlatform)
      (SeriesContent Unit) :=
    ⟨⟨[], [], [], []⟩, ⟨[], [], [], []⟩, ⟨[], [], [], [("dir", oneSampleContent)]⟩, .idle⟩
  have hstep : (retentionMachine (logKind Part.plainPlatform) (traceKind Trace.tallyPlatform)
      (metricKind Unit)).step before
        (.remove false (fun _ => .removed) (fun _ => .removed) (fun _ => .removed)) =
      some after := rfl
  have hlost : Lost (metricKind Unit) before.metrics after.metrics oneSampleContent :=
    .inl ⟨_, List.mem_singleton_self _, List.not_mem_nil, rfl⟩
  refine ⟨before, after, hrun, hstep, List.cons_ne_nil _ _, rfl, ?_⟩
  exact (retention_keeps_live.2 _ before after _ _ ⟨hsound _, hsound _, hsound _, rfl⟩ hrun hstep
    trivial).2.2 oneSampleContent hlost

end Retention

end Obsy
