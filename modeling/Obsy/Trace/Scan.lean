import Mathlib.Data.Int.Basic
import Mathlib.Logic.Encodable.Basic
import Mathlib.Logic.Equiv.List
import Obsy.Trace.Store

/-!
# Trace queries

A query pins the parts it may open, has their files restored, and scans the memtable and the parts.

* `scanTraceSpans`: the scan, by trace id or by window.
* `scanTraceSpans_spec`: wherever the spans live, the answer is the accepted ones asked for.
-/

namespace Obsy

namespace Trace

open Obsy.Part (Nanos)
open Runs (exists_of_bind forall₂_of_mapM mapM_ok)

variable {π : Type}

/-! ### The scan -/

/-- What a query asks for. -/
inductive TraceScanTarget where
  | byId (traceId : String)
  | window (startNs endNs : Nanos)

/-- Whether a span is asked for. -/
def TraceScanTarget.wants (target : TraceScanTarget) (span : TraceSpan π) : Bool :=
  match target with
  | .byId traceId => span.traceId = traceId
  | .window startNs endNs => spanOverlaps span startNs endNs

namespace TraceRegistry

variable (P : Codec π)

/-- The spans of some readers, each with what is left of the cap. -/
def gather (query : TracePartReader → Option ℕ → Except String (List (TraceSpan π)))
    (readers : List TracePartReader) (scanLimit : Option ℕ) : Except String (List (TraceSpan π)) := do
  let spans ← readers.foldlM (fun (spans : List (TraceSpan π)) reader => do
    let more ← query reader (scanLimit.map (· - spans.length))
    .ok (spans ++ more)) []
  .ok (sortSpans spans)

/-- `query_trace_id`: the parts by their earliest start, less those whose filters rule it out. -/
def queryTraceId (registry : TraceRegistry) (tenant traceId : String) (scanLimit : Option ℕ) :
    Except String (List (TraceSpan π)) :=
  gather (fun reader remaining =>
      if reader.mayMatchTraceId tenant traceId then
        reader.queryTraceIdLimited P tenant traceId remaining
      else .ok [])
    ((registry.map Prod.snd).mergeSort fun a b => a.part.info.minTsNs ≤ b.part.info.minTsNs)
    scanLimit

def queryRange (registry : TraceRegistry) (tenant : String) (startNs endNs : Nanos)
    (scanLimit : Option ℕ) : Except String (List (TraceSpan π)) :=
  gather (fun reader remaining => reader.queryRangeLimited P tenant startNs endNs remaining)
    (registry.map Prod.snd) scanLimit

/-- `candidate_part_ids` and `tenant_part_ids_in_range`: the parts that a query pins. -/
def requiredParts (registry : TraceRegistry) (tenant : String) (target : TraceScanTarget) :
    List String :=
  (registry.filter fun entry =>
    match target with
    | .byId traceId => entry.2.mayMatchTraceId tenant traceId
    | .window startNs endNs => entry.2.part.info.tenantOverlapsRange tenant startNs endNs).map
      Prod.fst

/-- The files of some parts are restored from the object store, all of them or none. -/
def restore (objects : String → Option (List (List SpanRow))) (missing : List String)
    (registry : TraceRegistry) : Except String TraceRegistry :=
  if missing.all fun id => (objects id).isSome then
    .ok (registry.map fun entry =>
      if entry.1 ∈ missing then
        (entry.1, { entry.2 with part := { entry.2.part with data := objects entry.1 } })
      else entry)
  else .error "object is missing"

/-- `pin_remote_parts`, under the guard: what is required and not there is restored. -/
def pin (objects : String → Option (List (List SpanRow))) (registry : TraceRegistry)
    (tenant : String) (target : TraceScanTarget) : Except String TraceRegistry :=
  registry.restore objects (registry.missingDataIds (registry.requiredParts tenant target))

end TraceRegistry

variable (P : Codec π)

/-- The memtable first, then the parts with what is left of the cap. -/
def scanTraceSpans (memtable : TraceMemTable π) (registry : TraceRegistry) (tenant : String)
    (target : TraceScanTarget) (maxSpans : Option ℕ) : Except String (List (TraceSpan π)) := do
  let spans ← match target with
    | .byId traceId => memtable.queryTraceIdLimited tenant traceId maxSpans
    | .window startNs endNs => memtable.snapshotRangeLimited tenant startNs endNs maxSpans
  let remaining := maxSpans.map (· - spans.length)
  let partSpans ← match target with
    | .byId traceId => registry.queryTraceId P tenant traceId remaining
    | .window startNs endNs => registry.queryRange P tenant startNs endNs remaining
  .ok (sortSpans (spans ++ partSpans))

def TracePartReader.reads (reader : TracePartReader) (tenant : String) : TraceScanTarget → List ℕ
  | .byId traceId => reader.traceRowGroups tenant traceId
  | .window startNs endNs => reader.part.info.tenantRowGroupsInRange tenant startNs endNs

/-! ### Pinned parts -/

variable {P} {registry : TraceRegistry} {objects : String → Option (List (List SpanRow))}
  {groupsOf : String → List (List (TraceSpan π))} {tenant : String} {target : TraceScanTarget}

/-- A part that a scan opens is pinned. -/
theorem mem_requiredParts {entry : String × TracePartReader} (he : entry ∈ registry)
    (hreads : entry.2.reads tenant target ≠ []) :
    entry.1 ∈ registry.requiredParts tenant target := by
  refine List.mem_map.2 ⟨entry, List.mem_filter.2 ⟨he, ?_⟩, rfl⟩
  cases target with
  | byId traceId =>
    obtain ⟨g, hg⟩ := List.exists_mem_of_ne_nil _ hreads
    obtain ⟨hmem, hbloom⟩ := List.mem_filter.1 hg
    exact List.any_eq_true.2 ⟨g, hmem, hbloom⟩
  | window startNs endNs =>
    show (!_) = true
    rw [Bool.not_eq_true', Bool.eq_false_iff]
    exact fun hnil => hreads (List.isEmpty_iff.1 hnil)

/-- A registry ready for a scan: what the scan opens is there. -/
structure Ready (P : Codec π) (registry : TraceRegistry)
    (groupsOf : String → List (List (TraceSpan π))) (tenant : String) (target : TraceScanTarget) :
    Prop where
  name : ∀ entry ∈ registry, entry.2.part.info.id = entry.1
  opened : ∀ entry ∈ registry, entry.2.Opened P (groupsOf entry.1)
  data : ∀ entry ∈ registry, entry.2.reads tenant target ≠ [] →
    entry.2.part.data = some (fileOf P (groupsOf entry.1))

/-- **Pinning** makes a registry ready, whichever files the cache had dropped. -/
theorem Shelved.pin (h : Shelved P registry objects groupsOf) (tenant : String)
    (target : TraceScanTarget) :
    ∃ pinned, registry.pin objects tenant target = .ok pinned ∧
      pinned.map Prod.fst = registry.map Prod.fst ∧ Ready P pinned groupsOf tenant target ∧
      ∀ entry ∈ pinned, entry.2.reads tenant target ≠ [] →
        entry.1 ∈ registry.requiredParts tenant target := by
  let missing := registry.missingDataIds (registry.requiredParts tenant target)
  let fetch := fun entry : String × TracePartReader =>
    if entry.1 ∈ missing then
      (entry.1, { entry.2 with part := { entry.2.part with data := objects entry.1 } })
    else entry
  have hall : missing.all (fun id => (objects id).isSome) = true := by
    refine List.all_eq_true.2 fun id hid => ?_
    obtain ⟨entry, he, rfl⟩ := List.mem_map.1 hid
    rw [(h.held entry (List.mem_of_mem_filter he)).object]
    rfl
  have hpin : registry.pin objects tenant target = .ok (registry.map fetch) := if_pos hall
  have hfst : ∀ entry, (fetch entry).1 = entry.1 := fun entry => by
    simp only [fetch]
    split_ifs <;> rfl
  have hreads : ∀ entry, (fetch entry).2.reads tenant target = entry.2.reads tenant target :=
    fun entry => by
      simp only [fetch]
      split_ifs
      · cases target <;> rfl
      · rfl
  refine ⟨_, hpin, ?_, ⟨fun entry he => ?_, fun entry he => ?_, fun entry he hne => ?_⟩,
    fun entry he hne => ?_⟩
  · rw [List.map_map]
    exact List.map_congr_left fun entry _ => hfst entry
  all_goals obtain ⟨before, hbefore, rfl⟩ := List.mem_map.1 he
  · have hname := (h.held before hbefore).name
    simp only [fetch]
    split_ifs <;> exact hname
  · have hopened := (h.held before hbefore).opened
    rw [hfst]
    simp only [fetch]
    split_ifs
    · exact hopened.withData _
    · exact hopened
  · rw [hreads] at hne
    have hrequired := mem_requiredParts hbefore hne
    have hheld := h.held before hbefore
    rw [hfst]
    simp only [fetch]
    split_ifs with hmissing
    · exact hheld.object
    · refine hheld.data.resolve_left fun hnone => hmissing ?_
      refine List.mem_map.2 ⟨before, List.mem_filter.2 ⟨hbefore, ?_⟩, rfl⟩
      rw [hnone, Option.isNone_none, Bool.and_true]
      exact decide_eq_true hrequired
  · rw [hreads] at hne
    rw [hfst]
    exact mem_requiredParts hbefore hne

/-! ### The answer -/

theorem gather_spec {query : TracePartReader → Option ℕ → Except String (List (TraceSpan π))}
    {readers : List TracePartReader} {spansOf : TracePartReader → List (TraceSpan π)}
    (h : ∀ reader ∈ readers, ∃ spans, query reader none = .ok spans ∧ spans.Perm (spansOf reader)) :
    ∃ answer, TraceRegistry.gather query readers none = .ok answer ∧
      answer.Perm (readers.flatMap spansOf) := by
  have hfold : ∀ before : List (TraceSpan π), ∃ gathered,
      readers.foldlM (fun (spans : List (TraceSpan π)) reader => do
        let more ← query reader ((none : Option ℕ).map (· - spans.length))
        Except.ok (spans ++ more)) before = .ok gathered ∧
      gathered.Perm (before ++ readers.flatMap spansOf) := by
    induction readers with
    | nil => exact fun before => ⟨before, rfl, by simp⟩
    | cons reader readers ih =>
      intro before
      obtain ⟨spans, hspans, hperm⟩ := h reader List.mem_cons_self
      obtain ⟨gathered, hgathered, hall⟩ :=
        ih (fun r hr => h r (List.mem_cons_of_mem _ hr)) (before ++ spans)
      refine ⟨gathered, ?_, hall.trans ?_⟩
      · rw [List.foldlM_cons, Option.map_none, hspans]
        exact hgathered
      · rw [List.flatMap_cons, ← List.append_assoc]
        exact (hperm.append_left before).append_right _
  obtain ⟨gathered, hgathered, hperm⟩ := hfold []
  refine ⟨sortSpans gathered, ?_, (sortSpans_perm gathered).trans hperm⟩
  rw [TraceRegistry.gather, hgathered]
  rfl

/-- The spans asked for in the parts. -/
def wantedOf (groupsOf : String → List (List (TraceSpan π))) (tenant : String)
    (target : TraceScanTarget) (reader : TracePartReader) : List (TraceSpan π) :=
  (groupsOf reader.part.info.id).flatten.filter fun span =>
    span.tenant = tenant && target.wants span

theorem Ready.flatMap_wantedOf (h : Ready P registry groupsOf tenant target) :
    (registry.map Prod.snd).flatMap (wantedOf groupsOf tenant target) =
      (shelf registry groupsOf).filter fun span => span.tenant = tenant && target.wants span := by
  rw [List.flatMap_map, shelf, List.filter_flatMap]
  refine List.flatMap_congr fun entry he => ?_
  rw [wantedOf, h.name entry he]

/-- A part that is passed over has no row group to read. -/
theorem TracePartReader.queryTraceId_skip (P : Codec π) (reader : TracePartReader)
    (tenant traceId : String) (limit : Option ℕ) :
    (if reader.mayMatchTraceId tenant traceId then
      reader.queryTraceIdLimited P tenant traceId limit else .ok []) =
      reader.queryTraceIdLimited P tenant traceId limit := by
  split_ifs with hmay
  · rfl
  · have hnil : reader.traceRowGroups tenant traceId = [] := by
      refine List.filter_eq_nil_iff.2 fun g hg hbloom => hmay ?_
      exact List.any_eq_true.2 ⟨g, hg, hbloom⟩
    rw [queryTraceIdLimited, hnil]
    rfl

/-- **The parts** of a ready registry answer by id. -/
theorem Ready.queryTraceId_spec {traceId : String}
    (h : Ready P registry groupsOf tenant (.byId traceId))
    (hreads : ∀ span ∈ shelf registry groupsOf, P.Reads span) :
    ∃ answer, registry.queryTraceId P tenant traceId none = .ok answer ∧
      answer.Perm ((shelf registry groupsOf).filter fun span =>
        span.tenant = tenant && (TraceScanTarget.byId traceId).wants span) := by
  have hsorted := List.mergeSort_perm (registry.map Prod.snd)
    fun a b => a.part.info.minTsNs ≤ b.part.info.minTsNs
  have hgather : ∃ answer, registry.queryTraceId P tenant traceId none = .ok answer ∧
      answer.Perm (((registry.map Prod.snd).mergeSort
        fun a b => a.part.info.minTsNs ≤ b.part.info.minTsNs).flatMap
          (wantedOf groupsOf tenant (.byId traceId))) := by
    refine gather_spec fun reader hreader => ?_
    obtain ⟨entry, he, rfl⟩ := List.mem_map.1 (List.mem_mergeSort.1 hreader)
    rw [entry.2.queryTraceId_skip, wantedOf, h.name entry he]
    exact (h.opened entry he).queryTraceId_spec
      (fun span hs => hreads span (List.mem_flatMap.2 ⟨entry, he, hs⟩)) (h.data entry he)
  obtain ⟨answer, hanswer, hperm⟩ := hgather
  refine ⟨answer, hanswer, hperm.trans ?_⟩
  rw [← h.flatMap_wantedOf]
  exact hsorted.flatMap_right _

/-- **The parts** of a ready registry answer for a window. -/
theorem Ready.queryRange_spec {startNs endNs : Nanos}
    (h : Ready P registry groupsOf tenant (.window startNs endNs))
    (hreads : ∀ span ∈ shelf registry groupsOf, P.Reads span) :
    ∃ answer, registry.queryRange P tenant startNs endNs none = .ok answer ∧
      answer.Perm ((shelf registry groupsOf).filter fun span =>
        span.tenant = tenant && (TraceScanTarget.window startNs endNs).wants span) := by
  rw [← h.flatMap_wantedOf]
  refine gather_spec fun reader hreader => ?_
  obtain ⟨entry, he, rfl⟩ := List.mem_map.1 hreader
  rw [wantedOf, h.name entry he]
  exact (h.opened entry he).layout.queryRange_spec
    (fun span hs => hreads span (List.mem_flatMap.2 ⟨entry, he, hs⟩)) (h.data entry he)

theorem TraceMemTable.limited_none (spans : List (TraceSpan π)) :
    TraceMemTable.limited none spans = .ok spans := rfl

/-- **A scan** without a cap finds what is asked for in the memtable and in the parts. -/
theorem Ready.scanTraceSpans_spec (h : Ready P registry groupsOf tenant target)
    (hreads : ∀ span ∈ shelf registry groupsOf, P.Reads span) (memtable : TraceMemTable π) :
    ∃ answer, scanTraceSpans P memtable registry tenant target none = .ok answer ∧
      answer.Perm ((memtable.spans ++ shelf registry groupsOf).filter fun span =>
        span.tenant = tenant && target.wants span) ∧
      answer.Pairwise fun a b => answerKey a ≤ answerKey b := by
  rw [List.filter_append]
  cases target with
  | byId traceId =>
    obtain ⟨partSpans, hparts, hperm⟩ := h.queryTraceId_spec hreads
    refine ⟨sortSpans (memtable.spans.filter (fun span =>
      span.tenant = tenant && span.traceId = traceId) ++ partSpans), ?_,
      (sortSpans_perm _).trans (hperm.append_left _), pairwise_sortSpans _⟩
    simp only [scanTraceSpans, TraceMemTable.queryTraceIdLimited, TraceMemTable.limited_none,
      bind, Except.bind, Option.map_none, hparts]
  | window startNs endNs =>
    obtain ⟨partSpans, hparts, hperm⟩ := h.queryRange_spec hreads
    refine ⟨sortSpans (memtable.spans.filter (fun span =>
      span.tenant = tenant && spanOverlaps span startNs endNs) ++ partSpans), ?_,
      (sortSpans_perm _).trans (hperm.append_left _), pairwise_sortSpans _⟩
    simp only [scanTraceSpans, TraceMemTable.snapshotRangeLimited, TraceMemTable.limited_none,
      bind, Except.bind, Option.map_none, hparts]

/-- The order of a registry does not matter. -/
theorem Shelved.perm (h : Shelved P registry objects groupsOf) {registry' : TraceRegistry}
    (hp : registry'.Perm registry) : Shelved P registry' objects groupsOf :=
  ⟨(hp.map Prod.fst).nodup_iff.2 h.nodup, fun entry he => h.held entry (hp.mem_iff.1 he)⟩

/-- After any run, in any order of the registry, pinning makes the parts ready, and they and the
memtable have what was accepted. -/
theorem exists_ready_of_run {events : List (StoreEvent π)} {store : TraceStore π}
    (hrun : (traceMachine P).run TraceStore.empty events = some store)
    (hfaithful : ∀ span ∈ events.flatMap StoreEvent.accepted, P.Faithful span)
    {registry : TraceRegistry} (horder : registry.Perm store.registry) (tenant : String)
    (target : TraceScanTarget) :
    ∃ pinned groupsOf, registry.pin store.objects tenant target = .ok pinned ∧
      Ready P pinned groupsOf tenant target ∧
      (store.memtable.spans ++ shelf pinned groupsOf).Perm (events.flatMap StoreEvent.accepted) ∧
      ∀ entry ∈ pinned, entry.2.reads tenant target ≠ [] →
        entry.1 ∈ registry.requiredParts tenant target := by
  obtain ⟨groupsOf, hshelved, hperm⟩ := keeps_run keeps_empty hfaithful hrun
  rw [List.nil_append] at hperm
  obtain ⟨pinned, hpin, hids, hready, hreads⟩ := (hshelved.perm horder).pin tenant target
  refine ⟨pinned, groupsOf, hpin, hready, (List.Perm.append_left _ ?_).trans hperm, hreads⟩
  have hshelf : ∀ registry : TraceRegistry, shelf registry groupsOf =
      (registry.map Prod.fst).flatMap fun id => (groupsOf id).flatten := fun registry => by
    rw [List.flatMap_map, shelf]
  rw [hshelf, hshelf, hids]
  exact (horder.map Prod.fst).flatMap_right _

/-- **Where a span lives does not change an answer.**  After any inserts, flushes, compactions and
evictions, and in any order of the registry, the parts that a query opens are among those it pinned,
and the query returns the accepted spans it asked for, each as often as it was accepted, by start and
span id. -/
theorem scan_finds_accepted (P : Platform π) {events : List (StoreEvent π)} {store : TraceStore π}
    (hrun : (traceMachine P).run TraceStore.empty events = some store) {registry : TraceRegistry}
    (horder : registry.Perm store.registry) (tenant : String) (target : TraceScanTarget) :
    ∃ pinned answer, registry.pin store.objects tenant target = .ok pinned ∧
      (∀ entry ∈ pinned, entry.2.reads tenant target ≠ [] →
        entry.1 ∈ registry.requiredParts tenant target) ∧
      scanTraceSpans P store.memtable pinned tenant target none = .ok answer ∧
      answer.Perm ((events.flatMap StoreEvent.accepted).filter fun span =>
        span.tenant = tenant && target.wants span) ∧
      answer.Pairwise fun a b => answerKey a ≤ answerKey b := by
  obtain ⟨pinned, groupsOf, hpin, hready, hperm, hreads⟩ :=
    exists_ready_of_run hrun (fun span _ => P.faithful span) horder tenant target
  obtain ⟨answer, hanswer, hfound, hsorted⟩ :=
    hready.scanTraceSpans_spec (fun span _ => P.decode_encode span) store.memtable
  exact ⟨pinned, answer, hpin, hreads, hanswer, hfound.trans (hperm.filter _), hsorted⟩

/-! ### A run -/

/-- The fields of a span as numbers. -/
abbrev SpanNumbers := List ℕ × List ℕ × List ℕ × Nanos × Nanos

instance : Encodable Nanos := inferInstanceAs (Encodable {ns : ℤ // -2 ^ 63 ≤ ns ∧ ns < 2 ^ 63})

def spanNumbers (span : TraceSpan Unit) : SpanNumbers :=
  (span.tenant.toList.map Char.toNat, span.traceId.toList.map Char.toNat,
    span.spanId.toList.map Char.toNat, span.startTimeNs, span.endTimeNs)

def textOf (chars : List ℕ) : String := String.ofList (chars.map Char.ofNat)

theorem textOf_map (s : String) : textOf (s.toList.map Char.toNat) = s := by
  simp [textOf, Function.comp_def]

/-- A platform that writes a span as a number of strokes. -/
def tallyPlatform : Platform Unit where
  encode span := String.ofList (List.replicate (Encodable.encode (spanNumbers span)) 'x')
  decode payload :=
    match (Encodable.decode payload.length : Option SpanNumbers) with
    | some (tenant, traceId, spanId, startNs, endNs) =>
      .ok ⟨textOf tenant, textOf traceId, textOf spanId, startNs, endNs, ()⟩
    | none => .error "expected a span"
  decode_encode span := by simp [spanNumbers, textOf_map]
  sizing _ := (8, 1)
  sizing_pos _ := by decide
  compactDay day := toString day

def twoTraces : List (TraceSpan Unit) :=
  [⟨"tenant", "a", "span", .zero, .zero, ()⟩, ⟨"tenant", "b", "span", .zero, .zero, ()⟩]

theorem scan_finds_accepted_sample : ∃ store pinned answer,
    (traceMachine tallyPlatform).run TraceStore.empty
      [.insert twoTraces, .beginFlush, .commitFlush 1 fun _ => "uuid"] = some store ∧
    store.memtable.spans = [] ∧
    store.registry.pin store.objects "tenant" (.byId "a") = .ok pinned ∧
    scanTraceSpans tallyPlatform store.memtable pinned "tenant" (.byId "a") none = .ok answer ∧
    answer.Perm (twoTraces.take 1) := by
  let buffered : TraceStore Unit := ⟨⟨[], twoTraces⟩, [], fun _ => none⟩
  obtain ⟨store, hflush⟩ := buffered.flush_ok (P := tallyPlatform) one_pos (fun _ => "uuid")
    (by decide) (fun _ _ => by show 8 < 2 ^ 32; decide)
  have hnew : NewIds buffered (newIds tallyPlatform (fun _ => "uuid") twoTraces) := by
    have hday : daysOf twoTraces = [0] := by simp [daysOf, twoTraces, Part.partitionOf, Nanos.zero]
    rw [newIds, hday]
    exact ⟨List.nodup_singleton _, fun _ _ => ⟨rfl, rfl⟩⟩
  have hstep : (traceMachine tallyPlatform).step buffered (.commitFlush 1 fun _ => "uuid") =
      some store := by
    simp only [traceMachine, hflush]
    exact if_pos hnew
  have hrun : (traceMachine tallyPlatform).run TraceStore.empty
      [.insert twoTraces, .beginFlush, .commitFlush 1 fun _ => "uuid"] = some store := by
    refine Machine.run_cons_eq_some.2 ⟨_, rfl, Machine.run_cons_eq_some.2 ⟨buffered, rfl, ?_⟩⟩
    exact Machine.run_cons_eq_some.2 ⟨store, hstep, rfl⟩
  obtain ⟨pinned, answer, hpin, -, hanswer, hperm, -⟩ :=
    scan_finds_accepted tallyPlatform hrun (.refl _) "tenant" (.byId "a")
  refine ⟨store, pinned, answer, hrun, ?_, hpin, hanswer, hperm.trans (List.Perm.of_eq (by decide))⟩
  obtain ⟨parts, -, hrest⟩ := exists_of_bind hflush
  obtain ⟨readers, -, hstore⟩ := exists_of_bind hrest
  obtain rfl := Except.ok.inj hstore
  rfl

end Trace

end Obsy
