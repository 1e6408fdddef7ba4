import Obsy.Query.Histogram
import Obsy.Query.Params
import Obsy.Retention.Policy
import Obsy.Trace.Cap
import Obsy.Trace.Otlp

/-!
# Trace endpoints

A search lists the traces of a window, two endpoints offer the attributes of its spans and their
values, and a trace is fetched by its id.

* `TraceFilter`, `parseTraceFilterParams`: the filters of a request.
* `tracesSearch`, `tracesAttributes`, `tracesAttributeValues`, `traceById`: the endpoints over a scan.
-/

namespace Obsy

namespace Query

open Logql (FieldOp Regex)
open Obsy.Part (Nanos)
open Trace (Content JsonLibrary TraceScanTarget TraceSpan)

variable {δ : Type} (J : JsonLibrary δ) (lib : Libraries)

/-! ### Filters -/

/-- A filter of spans. -/
inductive TraceFilter where
  | eq (key value : String)
  | neq (key value : String)
  | re (key : String) (regex : Regex)
  | nre (key : String) (regex : Regex)
  | duration (op : FieldOp) (thresholdNs : ℕ)

/-- A comparison of durations; `build_trace_filters` makes none of the other two. -/
def compareDuration (duration : ℕ) (op : FieldOp) (thresholdNs : ℕ) : Bool :=
  match op with
  | .eq => duration = thresholdNs
  | .neq => duration ≠ thresholdNs
  | .lt => duration < thresholdNs
  | .lte => duration ≤ thresholdNs
  | .gt => thresholdNs < duration
  | .gte => thresholdNs ≤ duration
  | .regex | .notRegex => false

/-- Whether a span matches; an attribute that it lacks is empty. -/
def TraceFilter.matchesSpan (filter : TraceFilter) (span : TraceSpan (Content δ)) : Bool :=
  match filter with
  | .eq key value => (span.tagValue J key).getD "" = value
  | .neq key value => (span.tagValue J key).getD "" ≠ value
  | .re key regex => regex.isMatch ((span.tagValue J key).getD "")
  | .nre key regex => !regex.isMatch ((span.tagValue J key).getD "")
  | .duration op thresholdNs => compareDuration span.durationNs op thresholdNs

def traceDurationThreshold (symbol value : String) : Except String ℕ :=
  match Logql.parseDurationNs value with
  | .error _ => .error ("invalid duration " ++ quoted value ++ " in attr filter " ++
      quoted ("duration" ++ symbol ++ value) ++ ": write a unit, like attr=duration>=250ms")
  | .ok ns =>
    if ns < 0 then .error ("invalid duration " ++ quoted value ++ " in attr filter " ++
      quoted ("duration" ++ symbol ++ value) ++ ": the duration must not be negative")
    else .ok ns.toNat

/-- The filter of an `attr` parameter. -/
def buildTraceFilter (attr : String × AttrOp × String) : Except String TraceFilter :=
  match attr with
  | (key, .compare op, value) =>
    if key ≠ "duration" then
      .error ("attr filter " ++ quoted (key ++ compareSymbol op ++ value) ++ " compares a key that " ++
        "is not duration: >=, <=, >, < apply to the duration intrinsic only, like " ++
        "attr=duration>=250ms — see docs/QUERY_API.md")
    else (traceDurationThreshold (compareSymbol op) value).map (.duration op)
  | (key, .matcher .eq, value) =>
    if key = "duration" then (traceDurationThreshold "=" value).map (.duration .eq)
    else .ok (.eq key value)
  | (key, .matcher .neq, value) =>
    if key = "duration" then (traceDurationThreshold "!=" value).map (.duration .neq)
    else .ok (.neq key value)
  | (key, .matcher .re, value) => (anchoredRegex lib value).map (.re key)
  | (key, .matcher .nre, value) => (anchoredRegex lib value).map (.nre key)

def buildTraceFilters (attrs : List (String × AttrOp × String)) : Except String (List TraceFilter) :=
  attrs.mapM (buildTraceFilter lib)

structure TraceFilterParams where
  startNs : Option Nanos
  endNs : Option Nanos
  filters : List TraceFilter
  limit : Option ℕ

def parseTraceFilterParams (raw : String) (nowNs : Nanos) (allowed : List String) :
    Except String TraceFilterParams := do
  let raw ← parseRawParams lib raw nowNs allowed
  let filters ← buildTraceFilters lib raw.attrs
  .ok ⟨raw.startNs, raw.endNs, filters, raw.limit⟩

/-! ### Windows -/

structure TraceConfig extends HistogramConfig where
  maxTraceSearchLimit : ℕ

inductive ApiError where
  | badRequest (message : String)
  | engine (message : String)
  | notFound (message : String)
deriving DecidableEq

inductive WindowEndpoint where
  | search
  | attributes
  | attributeValues

def WindowEndpoint.params : WindowEndpoint → List String
  | .search => traceSearchParams
  | .attributes => traceAttributeKeysParams
  | .attributeValues => traceAttributeValuesParams

/-- What a request runs against: the configuration, the instant, the floor of its tenant, and what a
scan finds of the tenant.  Slots, memory and time are left out: a request that they refuse has no
answer. -/
structure TraceState (δ : Type) where
  config : TraceConfig
  nowNs : Nanos
  retentionFloorNs : Option Nanos
  scan : TraceScanTarget → Except String (List (TraceSpan (Content δ)))

variable (state : TraceState δ)

/-- `trace_window`: nothing is left of it if the floor is behind its end. -/
def traceWindow (params : TraceFilterParams) : Except ApiError (Option (Nanos × Nanos)) := do
  let range : HistogramParams := ⟨params.startNs, params.endNs, none⟩
  let endNs := range.rangeEnd state.nowNs
  let startNs := range.rangeStart state.config.toHistogramConfig state.nowNs
  (validateQueryRange state.config.toHistogramConfig startNs endNs).mapError .badRequest
  let startNs := clampToRetention startNs state.retentionFloorNs
  .ok (if endNs < startNs then none else some (startNs, endNs))

def windowSpans (params : TraceFilterParams) : Except ApiError (List (TraceSpan (Content δ))) := do
  match ← traceWindow state params with
  | none => .ok []
  | some (startNs, endNs) => (state.scan (.window startNs endNs)).mapError .engine

def WindowEndpoint.parse (endpoint : WindowEndpoint) (raw : String) :
    Except ApiError TraceFilterParams :=
  (parseTraceFilterParams lib raw state.nowNs endpoint.params).mapError .badRequest

/-! ### Traces -/

def traceGroups (spans : List (TraceSpan (Content δ))) :
    List (String × List (TraceSpan (Content δ))) :=
  ((spans.map TraceSpan.traceId).dedup.mergeSort (· ≤ ·)).map fun traceId =>
    (traceId, spans.filter fun span => span.traceId = traceId)

/-- Whether every filter is matched by a span of the trace. -/
def matchesTrace (filters : List TraceFilter) (spans : List (TraceSpan (Content δ))) : Bool :=
  filters.all fun filter => spans.any (filter.matchesSpan J)

def matchingTraces (filters : List TraceFilter) (spans : List (TraceSpan (Content δ))) :
    List (String × List (TraceSpan (Content δ))) :=
  (traceGroups spans).filter fun trace => matchesTrace J filters trace.2

structure TraceSummaryRow where
  traceId : String
  rootService : String
  rootName : String
  startNs : Nanos
  endNs : Nanos
  durationNs : Nanos
  spanCount : ℕ

/-- The summary of a trace, from its first span and the others. -/
def traceSummary (traceId : String) (first : TraceSpan (Content δ))
    (others : List (TraceSpan (Content δ))) : TraceSummaryRow :=
  let spans := first :: others
  let root := (spans.find? fun span => span.span.span.parentSpanId.isEmpty).getD first
  let endNs := (spans.map TraceSpan.endTimeNs).max?.getD root.endTimeNs
  { traceId
    rootService := root.serviceName.getD ""
    rootName := root.span.span.name
    startNs := first.startTimeNs
    endNs
    durationNs := Metrics.Nanos.saturating (endNs.1 - first.startTimeNs.1)
    spanCount := spans.length }

/-- `trace_summaries_ndjson`: the traces that match, newest first. -/
def traceSummaries (filters : List TraceFilter) (limit : ℕ) (spans : List (TraceSpan (Content δ))) :
    List TraceSummaryRow :=
  let summaries := (matchingTraces J filters spans).filterMap fun trace =>
    match trace.2 with
    | [] => none
    | first :: others => some (traceSummary trace.1 first others)
  (summaries.mergeSort fun a b => b.startNs ≤ a.startNs).take limit

/-! ### Endpoints -/

def maxTraceSearchLimit : ℕ := 1000

def parseLimit (limit : Option ℕ) (maxLimit : ℕ) : Except String ℕ :=
  if maxLimit < limit.getD 100 then
    .error ("query limit exceeds the maximum of " ++ toString maxLimit)
  else .ok (limit.getD 100)

def tracesSearch (raw : String) : Except ApiError (List TraceSummaryRow) := do
  let params ← WindowEndpoint.search.parse lib state raw
  let limit ← (parseLimit params.limit
    (min state.config.maxTraceSearchLimit maxTraceSearchLimit)).mapError .badRequest
  let spans ← windowSpans state params
  .ok (traceSummaries J params.filters limit spans)

/-- The texts of a `BTreeSet`. -/
def textSet (texts : List String) : List String := texts.dedup.mergeSort (· ≤ ·)

/-- The keys of some spans: the intrinsics, if there is a span, and those of its attributes. -/
def traceKeys (spans : List (TraceSpan (Content δ))) : List String :=
  textSet ((if spans.isEmpty then [] else ["duration", "name", "status"]) ++
    spans.flatMap fun span =>
      (if span.serviceName.isSome then ["service.name"] else []) ++
        span.span.span.attributes.map Prod.fst ++
        (span.span.resource.elim [] fun resource => resource.attributes.map Prod.fst))

def tracesAttributes (raw : String) : Except ApiError (List String) := do
  let params ← WindowEndpoint.attributes.parse lib state raw
  let spans ← windowSpans state params
  .ok (traceKeys spans)

def traceValues (key : String) (filters : List TraceFilter)
    (spans : List (TraceSpan (Content δ))) : List String :=
  textSet ((matchingTraces J filters spans).flatMap fun trace =>
    trace.2.filterMap fun span => span.tagValue J key)

def tracesAttributeValues (key raw : String) : Except ApiError (List String) := do
  let params ← WindowEndpoint.attributeValues.parse lib state raw
  let spans ← windowSpans state params
  .ok (traceValues J key params.filters spans)

/-- Whether a span starts above the floor. -/
def retained (retentionFloorNs : Option Nanos) (span : TraceSpan (Content δ)) : Bool :=
  retentionFloorNs.all (· ≤ span.startTimeNs)

def traceById (traceId : String) (raw : Option String) :
    Except ApiError (List (TraceSpan (Content δ))) := do
  if raw.any fun text => !text.isEmpty then
    .error (.badRequest ("the trace-by-id endpoint takes no parameters: GET " ++
      "/signy/api/v1/traces/\x7btrace_id\x7d returns every span retention still holds — see " ++
      "docs/QUERY_API.md"))
  else do
    let traceId ← (Trace.canonicalTraceId traceId).mapError .badRequest
    let found ← (state.scan (.byId traceId)).mapError .engine
    let spans := found.filter (retained state.retentionFloorNs)
    if spans.isEmpty then
      .error (.notFound ("trace " ++ traceId ++ " was not found: no spans remain above the tenant's " ++
        "retention floor — it may have expired or never existed here"))
    else .ok spans

end Query

end Obsy
