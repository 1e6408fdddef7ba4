import Obsy.Logql.Values
import Obsy.Runs.Fallible
import Obsy.Trace.Part

/-!
# Spans as they are sent

An OTLP request brings spans under a scope and a resource.  A span is accepted by its ids and times;
its attributes, its events and its links may hold anything.

* `AnyValue`: the recursive value of an attribute.
* `normalizeRequest`: the spans of a request, as they are stored.
* `tagValue`: the lookup by name of the intrinsics, the attributes and the resource.
* `of_normalizeRequest`: a stored trace id is read as itself, and a span ends after its start.
-/

namespace Obsy

namespace Trace

open Obsy.Part (Nanos)
open Runs (exists_of_bind)

/-! ### Values -/

/-- The value of an attribute; the type of a double is a parameter. -/
inductive AnyValue (δ : Type) where
  /-- A value that is not set. -/
  | absent
  | string (value : String)
  | bool (value : Bool)
  | int (value : Nanos)
  | double (value : δ)
  | array (values : List (AnyValue δ))
  | kvlist (values : List (String × Option (AnyValue δ)))
  | bytes (value : List UInt8)

/-- An attribute. -/
abbrev KeyValue (δ : Type) := String × Option (AnyValue δ)

structure Resource (δ : Type) where
  attributes : List (KeyValue δ)
  droppedAttributesCount : ℕ

structure InstrumentationScope (δ : Type) where
  name : String
  version : String
  attributes : List (KeyValue δ)
  droppedAttributesCount : ℕ

structure SpanEvent (δ : Type) where
  timeUnixNano : ℕ
  name : String
  attributes : List (KeyValue δ)
  droppedAttributesCount : ℕ

structure SpanLink (δ : Type) where
  traceId : List UInt8
  spanId : List UInt8
  traceState : String
  attributes : List (KeyValue δ)
  droppedAttributesCount : ℕ
  flags : ℕ

structure SpanStatus where
  message : String
  code : ℤ

structure Span (δ : Type) where
  traceId : List UInt8
  spanId : List UInt8
  traceState : String
  parentSpanId : List UInt8
  flags : ℕ
  name : String
  kind : ℤ
  startTimeUnixNano : ℕ
  endTimeUnixNano : ℕ
  attributes : List (KeyValue δ)
  droppedAttributesCount : ℕ
  events : List (SpanEvent δ)
  droppedEventsCount : ℕ
  links : List (SpanLink δ)
  droppedLinksCount : ℕ
  status : Option SpanStatus

structure ScopeSpans (δ : Type) where
  scope : Option (InstrumentationScope δ)
  spans : List (Span δ)
  schemaUrl : String

structure ResourceSpans (δ : Type) where
  resource : Option (Resource δ)
  scopeSpans : List (ScopeSpans δ)
  schemaUrl : String

/-- `ExportTraceServiceRequest`. -/
abbrev TraceRequest (δ : Type) := List (ResourceSpans δ)

/-- What is stored of a span beside its ids and times. -/
structure Content (δ : Type) where
  span : Span δ
  resource : Option (Resource δ)
  resourceSchemaUrl : String
  scope : Option (InstrumentationScope δ)
  scopeSchemaUrl : String

variable {δ : Type}

/-! ### Acceptance -/

inductive TraceError where
  | emptyRequest
  | invalidTraceId
  | invalidSpanId
  | invalidParentSpanId
  | timestampOutOfRange
  | endBeforeStart
deriving DecidableEq

def TraceError.text : TraceError → String
  | .emptyRequest => "trace request contains no spans"
  | .invalidTraceId => "trace_id must be exactly 16 non-zero bytes"
  | .invalidSpanId => "span_id must be exactly 8 non-zero bytes"
  | .invalidParentSpanId => "parent_span_id must be empty or exactly 8 non-zero bytes"
  | .timestampOutOfRange => "span timestamp is outside the supported range"
  | .endBeforeStart => "span end_time must not precede start_time"

def traceIdBytes : ℕ := 16

def spanIdBytes : ℕ := 8

def tenantAttribute : String := "tenant.id"

/-- Two hexadecimal digits for each byte. -/
def hexChars (bytes : List UInt8) : List Char :=
  bytes.flatMap fun byte => [Nat.digitChar (byte.toNat / 16), Nat.digitChar (byte.toNat % 16)]

def normalizeId (bytes : List UInt8) (expectedLen : ℕ) (error : TraceError) :
    Except TraceError String :=
  if bytes.length ≠ expectedLen ∨ bytes.all (· = 0) then .error error
  else .ok (String.ofList (hexChars bytes))

theorem inRange_of_lt {n : ℕ} (h : n < 2 ^ 63) : -2 ^ 63 ≤ (n : ℤ) ∧ (n : ℤ) < 2 ^ 63 := by omega

/-- `i64::try_from`. -/
def timeOf (unixNano : ℕ) : Except TraceError Nanos :=
  if h : unixNano < 2 ^ 63 then .ok ⟨unixNano, inRange_of_lt h⟩ else .error .timestampOutOfRange

def normalizeSpan (tenant : String) (span : Span δ) (resource : Option (Resource δ))
    (resourceSchemaUrl : String) (scope : Option (InstrumentationScope δ)) (scopeSchemaUrl : String) :
    Except TraceError (TraceSpan (Content δ)) := do
  let traceId ← normalizeId span.traceId traceIdBytes .invalidTraceId
  let spanId ← normalizeId span.spanId spanIdBytes .invalidSpanId
  let _ ← (if span.parentSpanId.isEmpty then .ok ""
    else normalizeId span.parentSpanId spanIdBytes .invalidParentSpanId)
  let startTimeNs ← timeOf span.startTimeUnixNano
  let endTimeNs ← timeOf span.endTimeUnixNano
  if endTimeNs < startTimeNs then .error .endBeforeStart
  else .ok ⟨tenant, traceId, spanId, startTimeNs, endTimeNs,
    ⟨span, resource, resourceSchemaUrl, scope, scopeSchemaUrl⟩⟩

/-- The resource, less the attribute that names the tenant. -/
def Resource.withoutTenant (resource : Resource δ) : Resource δ :=
  { resource with attributes := resource.attributes.filter fun pair => pair.1 ≠ tenantAttribute }

def normalizeRequest (tenant : String) (request : TraceRequest δ) :
    Except TraceError (List (TraceSpan (Content δ))) := do
  let spans ← request.mapM fun resourceSpans =>
    resourceSpans.scopeSpans.mapM fun scopeSpans =>
      scopeSpans.spans.mapM fun span =>
        normalizeSpan tenant span (resourceSpans.resource.map Resource.withoutTenant)
          resourceSpans.schemaUrl scopeSpans.scope scopeSpans.schemaUrl
  if spans.flatten.flatten.isEmpty then .error .emptyRequest else .ok spans.flatten.flatten

/-! ### Ids in requests -/

/-- `char::to_digit`, of base 16. -/
def hexDigit (c : Char) : Option ℕ :=
  if c.isDigit then some (c.toNat - '0'.toNat)
  else if 'a' ≤ c ∧ c ≤ 'f' then some (c.toNat - 'a'.toNat + 10)
  else if 'A' ≤ c ∧ c ≤ 'F' then some (c.toNat - 'A'.toNat + 10)
  else none

/-- The bytes of pairs of digits; a character that is left over is dropped. -/
def hexBytes : List Char → Option (List UInt8)
  | high :: low :: rest => do
    let highDigit ← hexDigit high
    let lowDigit ← hexDigit low
    let bytes ← hexBytes rest
    some (UInt8.ofNat (highDigit * 16 + lowDigit) :: bytes)
  | _ => some []

/-- `canonical_trace_id`: the id of a path as it is stored. -/
def canonicalTraceId (input : String) : Except String String :=
  let trimmed := String.ofList (Logql.trim input.toList)
  if trimmed.utf8ByteSize ≠ traceIdBytes * 2 then
    .error "trace ID must contain exactly 32 hexadecimal characters"
  else
    match hexBytes trimmed.toList with
    | none => .error "trace ID must contain only hexadecimal characters"
    | some bytes => (normalizeId bytes traceIdBytes .invalidTraceId).mapError TraceError.text

theorem hexDigit_digitChar : ∀ n < 16, hexDigit (Nat.digitChar n) = some n := by decide

theorem hexBytes_hexChars (bytes : List UInt8) : hexBytes (hexChars bytes) = some bytes := by
  induction bytes with
  | nil => rfl
  | cons byte bytes ih =>
    have hbyte := byte.toNat_lt
    have hhigh := hexDigit_digitChar (byte.toNat / 16) (by omega)
    have hlow := hexDigit_digitChar (byte.toNat % 16) (by omega)
    have hsame : byte.toNat / 16 * 16 + byte.toNat % 16 = byte.toNat := by omega
    show hexBytes (_ :: _ :: hexChars bytes) = _
    rw [hexBytes, hhigh, hlow, ih]
    simp only [Option.bind_eq_bind, Option.bind_some, hsame, UInt8.ofNat_toNat]

theorem digitChar_plain : ∀ n < 16, Logql.isWhitespace (Nat.digitChar n) = false ∧
    (Nat.digitChar n).utf8Size = 1 := by decide

theorem mem_hexChars {bytes : List UInt8} {c : Char} (h : c ∈ hexChars bytes) :
    ∃ n < 16, c = Nat.digitChar n := by
  obtain ⟨byte, -, hc⟩ := List.mem_flatMap.1 h
  have hbyte := byte.toNat_lt
  rcases List.mem_cons.1 hc with rfl | hc
  · exact ⟨_, by omega, rfl⟩
  · rw [List.mem_singleton.1 hc]
    exact ⟨_, by omega, rfl⟩

/-- Characters of one byte are as many as the bytes of their text. -/
theorem utf8ByteSize_ofList {chars : List Char} (h : ∀ c ∈ chars, c.utf8Size = 1) :
    (String.ofList chars).utf8ByteSize = chars.length := by
  induction chars with
  | nil => rfl
  | cons c chars ih =>
    rw [String.ofList_cons, String.utf8ByteSize_append, String.utf8ByteSize_singleton,
      h c List.mem_cons_self, ih fun d hd => h d (List.mem_cons_of_mem _ hd), List.length_cons,
      Nat.add_comm]

theorem length_hexChars (bytes : List UInt8) : (hexChars bytes).length = bytes.length * 2 := by
  simp [hexChars]

/-- **A stored trace id** is read as itself. -/
theorem canonicalTraceId_of_normalizeId {bytes : List UInt8} {id : String} {error : TraceError}
    (h : normalizeId bytes traceIdBytes error = .ok id) : canonicalTraceId id = .ok id := by
  rw [normalizeId] at h
  split_ifs at h with hbad
  obtain rfl := Except.ok.inj h
  have hplain : ∀ c ∈ hexChars bytes, Logql.isWhitespace c = false ∧ c.utf8Size = 1 := by
    intro c hc
    obtain ⟨n, hn, rfl⟩ := mem_hexChars hc
    exact digitChar_plain n hn
  have hlength : bytes.length = traceIdBytes := not_not.1 (not_or.1 hbad).1
  have hsize : (String.ofList (hexChars bytes)).utf8ByteSize = traceIdBytes * 2 := by
    rw [utf8ByteSize_ofList fun c hc => (hplain c hc).2, length_hexChars, hlength]
  rw [canonicalTraceId, String.toList_ofList, Logql.trim_of_plain fun c hc => (hplain c hc).1]
  simp only [hsize, String.toList_ofList, hexBytes_hexChars, normalizeId, hbad]
  rfl

/-- An accepted span was sent. -/
theorem exists_normalizeSpan {tenant : String} {request : TraceRequest δ}
    {spans : List (TraceSpan (Content δ))} (h : normalizeRequest tenant request = .ok spans)
    {span : TraceSpan (Content δ)} (hspan : span ∈ spans) :
    ∃ sent resource resourceSchemaUrl scope scopeSchemaUrl,
      normalizeSpan tenant sent resource resourceSchemaUrl scope scopeSchemaUrl = .ok span := by
  obtain ⟨nested, hnested, h⟩ := exists_of_bind h
  split_ifs at h
  obtain rfl := Except.ok.inj h
  obtain ⟨inner, hinner, hspan⟩ := List.mem_flatten.1 hspan
  obtain ⟨perScope, hperScope, hinner⟩ := List.mem_flatten.1 hinner
  obtain ⟨resourceSpans, -, hresource⟩ := Runs.exists_of_mem_mapM hnested hperScope
  obtain ⟨scopeSpans, -, hscope⟩ := Runs.exists_of_mem_mapM hresource hinner
  obtain ⟨sent, -, hsent⟩ := Runs.exists_of_mem_mapM hscope hspan
  exact ⟨sent, _, _, _, _, hsent⟩

/-- What is checked of an accepted span: its trace id is read as itself, and it ends after its
start. -/
theorem of_normalizeRequest {tenant : String} {request : TraceRequest δ}
    {spans : List (TraceSpan (Content δ))} (h : normalizeRequest tenant request = .ok spans)
    {span : TraceSpan (Content δ)} (hspan : span ∈ spans) :
    canonicalTraceId span.traceId = .ok span.traceId ∧ span.startTimeNs ≤ span.endTimeNs := by
  obtain ⟨sent, _, _, _, _, hsent⟩ := exists_normalizeSpan h hspan
  obtain ⟨traceId, hid, hsent⟩ := exists_of_bind hsent
  obtain ⟨spanId, -, hsent⟩ := exists_of_bind hsent
  obtain ⟨_, -, hsent⟩ := exists_of_bind hsent
  obtain ⟨startTimeNs, -, hsent⟩ := exists_of_bind hsent
  obtain ⟨endTimeNs, -, hsent⟩ := exists_of_bind hsent
  split_ifs at hsent with hlt
  obtain rfl := Except.ok.inj hsent
  exact ⟨canonicalTraceId_of_normalizeId hid, not_lt.1 hlt⟩

/-! ### Lookups -/

inductive Json where
  | null
  | bool (value : Bool)
  | number (text : String)
  | string (value : String)
  | array (values : List Json)
  | object (fields : List (String × Json))

/-- What the code takes from the JSON library: the form of a value, and its compact text. -/
structure JsonLibrary (δ : Type) where
  toJson : AnyValue δ → Json
  text : Json → String

/-- `json_scalar_string`. -/
def jsonScalarString (J : JsonLibrary δ) : Json → Option String
  | .object fields =>
    match fields.lookup "stringValue", fields.lookup "boolValue", fields.lookup "intValue",
        fields.lookup "doubleValue" with
    | some (.string value), _, _, _ => some value
    | _, some (.bool value), _, _ => some (toString value)
    | _, _, some (.string value), _ => some value
    | _, _, _, some value => some (J.text value)
    | _, _, _, _ => none
  | _ => none

/-- The first attribute of a name, if it has a value. -/
def attributeValue (attributes : List (KeyValue δ)) (name : String) : Option (AnyValue δ) :=
  (attributes.find? fun pair => pair.1 = name).bind Prod.snd

def anyValueString : AnyValue δ → Option String
  | .string value => some value
  | _ => none

namespace TraceSpan

variable (J : JsonLibrary δ) (span : TraceSpan (Content δ))

/-- `duration_ns`, an unsigned number of 64 bits. -/
def durationNs : ℕ :=
  if span.startTimeNs ≤ span.endTimeNs then (span.endTimeNs.1 - span.startTimeNs.1).toNat
  else 2 ^ 64 - 1

/-- The service of the resource; one that is no text is empty. -/
def serviceName : Option String :=
  span.span.resource.bind fun resource =>
    (resource.attributes.find? fun pair => pair.1 = "service.name").map fun pair =>
      (pair.2.bind anyValueString).getD ""

def statusText : String :=
  match span.span.span.status.map SpanStatus.code with
  | some 1 => "ok"
  | some 2 => "error"
  | _ => "unset"

/-- `tag_value`. -/
def tagValue (name : String) : Option String :=
  if name = "name" then some span.span.span.name
  else if name = "duration" then some (toString span.durationNs)
  else if name = "status" then some span.statusText
  else if name = "service.name" then span.serviceName
  else
    match attributeValue span.span.span.attributes name with
    | some value => jsonScalarString J (J.toJson value)
    | none => span.span.resource.bind fun resource =>
      (attributeValue resource.attributes name).bind fun value =>
        jsonScalarString J (J.toJson value)

end TraceSpan

end Trace

end Obsy
