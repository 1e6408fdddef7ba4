import Obsy.Query.Traces

/-!
# What has expired of the traces

The endpoints with a window move its start to the retention floor and take the spans that overlap
what is left.  The lookup by id drops the spans that start below the floor.  A span that straddles
the floor is in the answers of the former and not in those of the latter.

* `Agree`: what a search lists is found by its id, and nothing below the floor is in an answer.
* `agree_iff`: this is so exactly when no stored span of the window straddles the floor.
-/

namespace Obsy

namespace Query

open Obsy.Part (Nanos)
open Retention (Cutoffs)
open Runs (exists_of_bind)
open Trace (Codec Content JsonLibrary Refused StoreEvent TraceRegistry TraceScanTarget TraceSpan
  TraceStore normalizeRequest spanOverlaps traceMachine)

variable {δ : Type} (J : JsonLibrary δ) (lib : Libraries) (state : TraceState δ)

/-! ### Agreement -/

/-- The window of a request. -/
def WindowEndpoint.window (endpoint : WindowEndpoint) (raw : String) :
    Except ApiError (Option (Nanos × Nanos)) := do
  let params ← endpoint.parse lib state raw
  traceWindow state params

/-- The spans from which a request is answered. -/
def WindowEndpoint.spans (endpoint : WindowEndpoint) (raw : String) :
    Except ApiError (List (TraceSpan (Content δ))) := do
  let params ← endpoint.parse lib state raw
  windowSpans state params

/-- A lookup finds a trace if it has spans of it, or more than it may return. -/
def Found (answer : Except ApiError (List (TraceSpan (Content δ)))) : Prop :=
  (∃ spans, spans ≠ [] ∧ answer = .ok spans) ∨
    ∃ most : ℕ, answer = .error (.engine s!"trace query exceeds the maximum of {most} spans")

/-- **The endpoints agree** on what has expired, for the parameters of a window. -/
structure Agree (raw : String) : Prop where
  listed : ∀ rows, tracesSearch J lib state raw = .ok rows →
    ∀ row ∈ rows, Found (traceById state row.traceId none)
  window : ∀ endpoint spans, WindowEndpoint.spans lib state endpoint raw = .ok spans →
    ∀ span ∈ spans, retained state.retentionFloorNs span
  byId : ∀ traceId spans, traceById state traceId none = .ok spans →
    ∀ span ∈ spans, retained state.retentionFloorNs span

/-! ### Rows -/

variable {J lib state} {stored : List (TraceSpan (Content δ))}

/-- A row is of a trace that matches, of which there is a span. -/
theorem mem_traceSummaries {filters : List TraceFilter} {limit : ℕ}
    {spans : List (TraceSpan (Content δ))} {row : TraceSummaryRow}
    (h : row ∈ traceSummaries J filters limit spans) :
    ∃ span ∈ spans, span.traceId = row.traceId ∧
      matchesTrace J filters (spans.filter fun s => s.traceId = span.traceId) = true := by
  have hrow := List.mem_mergeSort.1 (List.mem_of_mem_take h)
  obtain ⟨trace, htrace, hsummary⟩ := List.mem_filterMap.1 hrow
  obtain ⟨hgroup, hmatches⟩ := List.mem_filter.1 htrace
  obtain ⟨traceId, hid, rfl⟩ := List.mem_map.1 hgroup
  obtain ⟨span, hspan, rfl⟩ := List.mem_map.1 (List.mem_dedup.1 (List.mem_mergeSort.1 hid))
  refine ⟨span, hspan, ?_, hmatches⟩
  dsimp only at hsummary
  split at hsummary
  · cases hsummary
  · obtain rfl := Option.some.inj hsummary
    rfl

/-! ### Scans -/

/-- A scan that is not refused for its cap has what it asks for. -/
def Answers (scan : TraceScanTarget → Except String (List (TraceSpan (Content δ))))
    (stored : List (TraceSpan (Content δ))) : Prop :=
  ∀ target, Refused (scan target) ∨ ∃ answer, scan target = .ok answer ∧
    ∀ span, span ∈ answer ↔ span ∈ stored ∧ target.wants span = true

theorem Answers.mem_iff (h : Answers state.scan stored) {target : TraceScanTarget}
    {answer : List (TraceSpan (Content δ))} (hok : state.scan target = .ok answer)
    (span : TraceSpan (Content δ)) :
    span ∈ answer ↔ span ∈ stored ∧ target.wants span = true := by
  rcases h target with ⟨most, hrefused⟩ | ⟨found, hfound, hmem⟩
  · rw [hrefused] at hok
    cases hok
  · obtain rfl := Except.ok.inj (hfound.symm.trans hok)
    exact hmem span

/-- What a request is answered from is stored, in a window that its parameters have. -/
theorem exists_window {endpoint : WindowEndpoint} {raw : String}
    {spans : List (TraceSpan (Content δ))} (h : endpoint.spans lib state raw = .ok spans)
    {span : TraceSpan (Content δ)} (hspan : span ∈ spans) :
    ∃ startNs endNs, endpoint.window lib state raw = .ok (some (startNs, endNs)) ∧
      state.scan (.window startNs endNs) = .ok spans := by
  obtain ⟨params, hparams, h⟩ := exists_of_bind h
  obtain ⟨window, hwindow, h⟩ := exists_of_bind h
  cases window with
  | none =>
    obtain rfl := Except.ok.inj h
    cases hspan
  | some window =>
    refine ⟨window.1, window.2, ?_, Runs.of_mapError_ok h⟩
    rw [WindowEndpoint.window, hparams]
    exact hwindow

/-- A stored span above the floor is found by the id of its trace. -/
theorem found_of_retained (h : Answers state.scan stored) {span : TraceSpan (Content δ)}
    (hspan : span ∈ stored) (hid : Trace.canonicalTraceId span.traceId = .ok span.traceId)
    (hretained : retained state.retentionFloorNs span = true) :
    Found (traceById state span.traceId none) := by
  rw [traceById, if_neg (by simp), hid]
  show Found ((state.scan (.byId span.traceId)).mapError ApiError.engine >>= fun found =>
    let spans := found.filter (retained state.retentionFloorNs)
    if spans.isEmpty then _ else Except.ok spans)
  rcases h (.byId span.traceId) with ⟨most, hrefused⟩ | ⟨answer, hanswer, hmem⟩
  · rw [hrefused]
    exact .inr ⟨most, rfl⟩
  · have hkept : span ∈ answer.filter (retained state.retentionFloorNs) :=
      List.mem_filter.2 ⟨(hmem span).2 ⟨hspan, decide_eq_true rfl⟩, hretained⟩
    rw [hanswer]
    refine .inl ⟨_, List.ne_nil_of_mem hkept, if_neg ?_⟩
    rw [List.isEmpty_iff]
    exact List.ne_nil_of_mem hkept

/-- **Agreement over a scan**: no stored span of a window straddles the floor. -/
theorem Answers.agree_iff_retained (h : Answers state.scan stored)
    (hids : ∀ span ∈ stored, Trace.canonicalTraceId span.traceId = .ok span.traceId) (raw : String) :
    Agree J lib state raw ↔ ∀ endpoint startNs endNs,
      WindowEndpoint.window lib state endpoint raw = .ok (some (startNs, endNs)) →
        Refused (state.scan (.window startNs endNs)) ∨ ∀ span ∈ stored,
          spanOverlaps span startNs endNs = true → retained state.retentionFloorNs span := by
  constructor
  · intro hagree endpoint startNs endNs hwindow
    rcases h (.window startNs endNs) with hrefused | ⟨answer, hanswer, hmem⟩
    · exact .inl hrefused
    · refine .inr fun span hspan hover => ?_
      have hspans : endpoint.spans lib state raw = .ok answer := by
        obtain ⟨params, hparams, hwindow⟩ := exists_of_bind hwindow
        rw [WindowEndpoint.spans, hparams]
        show windowSpans state params = _
        rw [windowSpans, hwindow]
        show (state.scan (.window startNs endNs)).mapError ApiError.engine = _
        rw [hanswer]
        rfl
      exact hagree.window endpoint answer hspans span ((hmem span).2 ⟨hspan, hover⟩)
  · intro hcondition
    have hwindow : ∀ endpoint spans, WindowEndpoint.spans lib state endpoint raw = .ok spans →
        ∀ span ∈ spans, span ∈ stored ∧ retained state.retentionFloorNs span = true := by
      intro endpoint spans hspans span hspan
      obtain ⟨startNs, endNs, hwindow, hscan⟩ := exists_window hspans hspan
      obtain ⟨hstored, hover⟩ := (h.mem_iff hscan span).1 hspan
      rcases hcondition endpoint startNs endNs hwindow with ⟨most, hrefused⟩ | hall
      · rw [hrefused] at hscan
        cases hscan
      · exact ⟨hstored, hall span hstored hover⟩
    refine ⟨fun rows hrows row hrow => ?_, fun endpoint spans hspans span hspan =>
      (hwindow endpoint spans hspans span hspan).2, fun traceId spans hspans span hspan => ?_⟩
    · obtain ⟨params, hparams, hrows⟩ := exists_of_bind hrows
      obtain ⟨limit, -, hrows⟩ := exists_of_bind hrows
      obtain ⟨spans, hspans, hrows⟩ := exists_of_bind hrows
      obtain rfl := Except.ok.inj hrows
      obtain ⟨span, hspan, hrow, -⟩ := mem_traceSummaries hrow
      have hfrom : WindowEndpoint.search.spans lib state raw = .ok spans := by
        rw [WindowEndpoint.spans, hparams]
        exact hspans
      obtain ⟨hstored, hretained⟩ := hwindow _ _ hfrom span hspan
      rw [← hrow]
      exact found_of_retained h hstored (hids span hstored) hretained
    · rw [traceById, if_neg (by simp)] at hspans
      obtain ⟨_, -, hspans⟩ := exists_of_bind hspans
      obtain ⟨found, -, hspans⟩ := exists_of_bind hspans
      dsimp only at hspans
      split_ifs at hspans
      obtain rfl := Except.ok.inj hspans
      exact (List.mem_filter.1 hspan).2

/-- A lookup does not find a trace of which all has expired. -/
theorem not_found_of_expired {traceId : String} {answer : List (TraceSpan (Content δ))}
    (hid : Trace.canonicalTraceId traceId = .ok traceId)
    (hscan : state.scan (.byId traceId) = .ok answer)
    (hexpired : ∀ span ∈ answer, retained state.retentionFloorNs span = false) :
    ¬ Found (traceById state traceId none) := by
  have hnone : answer.filter (retained state.retentionFloorNs) = [] :=
    List.filter_eq_nil_iff.2 fun span hspan => by rw [hexpired span hspan]; decide
  rw [traceById, if_neg (by simp), hid]
  show ¬ Found ((state.scan (.byId traceId)).mapError ApiError.engine >>= fun found =>
    let spans := found.filter (retained state.retentionFloorNs)
    if spans.isEmpty then Except.error (ApiError.notFound _) else Except.ok spans)
  rw [hscan]
  show ¬ Found (if (answer.filter (retained state.retentionFloorNs)).isEmpty then
    Except.error (ApiError.notFound _) else _)
  rw [hnone, if_pos List.isEmpty_nil]
  rintro (⟨_, -, h⟩ | ⟨_, h⟩) <;> cases h

/-! ### A run -/

/-- The endpoints of an instance, for a tenant. -/
def stateOf (P : Codec (Content δ)) (store : TraceStore (Content δ)) (registry : TraceRegistry)
    (tenant : String) (maxSpans : Option ℕ) (config : TraceConfig) (cutoffs : Cutoffs) :
    TraceState δ :=
  ⟨config, cutoffs.nowNs, cutoffs.cutoffNs tenant .traces, store.answer P registry tenant maxSpans⟩

theorem answer_memtable (P : Codec (Content δ)) (memtable : Trace.TraceMemTable (Content δ))
    (objects : String → Option (List (List Trace.SpanRow))) (tenant : String)
    (target : TraceScanTarget) :
    ∃ answer, (TraceStore.mk memtable [] objects).answer P [] tenant none target = .ok answer ∧
      answer.Perm (memtable.spans.filter fun span =>
        span.tenant = tenant && target.wants span) := by
  have hready : Trace.Ready P [] (fun _ => []) tenant target :=
    ⟨fun _ h => (by cases h), fun _ h => (by cases h), fun _ h => (by cases h)⟩
  obtain ⟨answer, hanswer, hperm, -⟩ :=
    hready.scanTraceSpans_spec (fun _ h => (by cases h)) memtable
  rw [Trace.shelf, List.flatMap_nil, List.append_nil] at hperm
  exact ⟨answer, hanswer, hperm⟩

theorem inRange_ten : -2 ^ 63 ≤ (10 : ℤ) ∧ (10 : ℤ) < 2 ^ 63 := by decide

/-- Ten nanoseconds after the start of time. -/
def ten : Nanos := ⟨10, inRange_ten⟩

/-- A span from the start of time on, as it is sent. -/
def sentAcross : Trace.Span Unit where
  traceId := List.replicate 16 1
  spanId := List.replicate 8 1
  traceState := ""
  parentSpanId := []
  flags := 0
  name := "request"
  kind := 2
  startTimeUnixNano := 0
  endTimeUnixNano := 10
  attributes := []
  droppedAttributesCount := 0
  events := []
  droppedEventsCount := 0
  links := []
  droppedLinksCount := 0
  status := none

def across : TraceSpan (Content Unit) :=
  ⟨"acme", "01010101010101010101010101010101", "0101010101010101", .zero, ten,
    ⟨sentAcross, none, "", none, ""⟩⟩

/-- A library that reads the span back. -/
def acrossCodec : Codec (Content Unit) where
  encode _ := ""
  decode _ := .ok across
  sizing _ := (8, 1)
  sizing_pos _ := Nat.succ_pos 7
  compactDay day := toString day

/-- The span in the memtable. -/
def holdsAcross : TraceStore (Content Unit) := ⟨⟨[across], none⟩, [], fun _ => none⟩

/-- Five nanoseconds are kept, at the end of the span. -/
def keepsFive : Cutoffs := ⟨⟨[("acme", ⟨.finite 5, none, none, none⟩)]⟩, ten⟩

/-- A request without parameters. -/
def noParameters : Libraries where
  parseForm _ := []
  serializeForm _ := ""
  compileRegex _ := .error "unsupported"
  parseRfc3339 _ := .error "unsupported"

def noText : JsonLibrary Unit := ⟨fun _ => .null, fun _ => ""⟩

def stateAcross : TraceState Unit :=
  stateOf acrossCodec holdsAcross [] "acme" none ⟨unbounded, 1000⟩ keepsFive

theorem normalizeRequest_across :
    normalizeRequest "acme" [⟨none, [⟨none, [sentAcross], ""⟩], ""⟩] = .ok [across] := rfl

theorem run_across :
    (traceMachine acrossCodec).run TraceStore.empty [.insert [across]] = some holdsAcross := rfl

theorem spans_across : WindowEndpoint.search.spans noParameters stateAcross "" = .ok [across] := by
  obtain ⟨answer, hanswer, hperm⟩ := answer_memtable acrossCodec holdsAcross.memtable
    holdsAcross.objects "acme" (.window (Metrics.Nanos.saturating 5) ten)
  have hwanted : (holdsAcross.memtable.spans.filter fun span => span.tenant = "acme" &&
      (TraceScanTarget.window (Metrics.Nanos.saturating 5) ten).wants span) = [across] := rfl
  obtain rfl := List.perm_singleton.1 (hwanted ▸ hperm)
  show (holdsAcross.answer acrossCodec [] "acme" none
    (.window (Metrics.Nanos.saturating 5) ten)).mapError ApiError.engine = _
  exact congrArg (Except.mapError ApiError.engine) hanswer

theorem search_across : tracesSearch noText noParameters stateAcross "" =
    .ok [traceSummary across.traceId across []] := by
  have hsummaries : traceSummaries noText [] 100 [across] =
      [traceSummary across.traceId across []] := by
    simp [traceSummaries, matchingTraces, traceGroups, matchesTrace]
  have hparse : WindowEndpoint.search.parse noParameters stateAcross "" =
      .ok ⟨none, none, [], none⟩ := rfl
  obtain ⟨params, hparams, hspans⟩ := exists_of_bind spans_across
  obtain rfl := Except.ok.inj (hparse.symm.trans hparams)
  rw [tracesSearch, hparse]
  show (do
    let limit ← (parseLimit none (min 1000 maxTraceSearchLimit)).mapError ApiError.badRequest
    let spans ← windowSpans stateAcross ⟨none, none, [], none⟩
    Except.ok (traceSummaries noText [] limit spans)) = _
  rw [hspans]
  show Except.ok (traceSummaries noText [] 100 [across]) = _
  rw [hsummaries]

theorem lookup_across : ¬ Found (traceById stateAcross across.traceId none) := by
  have hid := (Trace.of_normalizeRequest normalizeRequest_across (List.mem_singleton_self _)).1
  obtain ⟨answer, hanswer, hperm⟩ := answer_memtable acrossCodec holdsAcross.memtable
    holdsAcross.objects "acme" (.byId across.traceId)
  refine not_found_of_expired hid hanswer fun span hspan => ?_
  obtain rfl := List.mem_singleton.1 (List.mem_of_mem_filter (hperm.subset hspan))
  decide

end Query

end Obsy
