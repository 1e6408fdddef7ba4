import Obsy.Logql.Pipeline
import Obsy.Metrics.Part
import Obsy.Runs.Fallible

/-!
# Request parameters

The endpoints of logs and traces have one grammar for their parameters.  A deletion keeps the filters
of its request as a text of this grammar, and reads them back when it is submitted and whenever the
process starts.

* `parseFilterParams`: the parameters of a log endpoint.
* `canonicalFilterQuery`, `parseSelector`: the text that is kept of a deletion, and how it is read.
* `eq_of_splitAttr`: what an `attr` filter is split into is what it is put together from.
* `selector_reads_back`: a text that is kept is read as the filters that were submitted.
-/

namespace Obsy

namespace Query

open Logql (LabelMatcher LineFilter LogQuery MatcherOp FieldOp PipelineStage Regex)
open Obsy.Part (Nanos)
open Runs (exists_of_bind exists_of_map)

/-! ### Endpoints -/

def deleteParams : List String :=
  ["start", "end", "attr", "contains", "not_contains", "regex", "not_regex"]

/-- Those of a deletion without its times, which are kept as numbers. -/
def deleteFilterParams : List String := ["attr", "contains", "not_contains", "regex", "not_regex"]

def traceSearchParams : List String := ["start", "end", "attr", "limit"]

def traceAttributeKeysParams : List String := ["start", "end"]

def traceAttributeValuesParams : List String := ["start", "end", "attr"]

/-- What the code takes from other libraries. -/
structure Libraries where
  /-- `url::form_urlencoded`. -/
  parseForm : String → List (String × String)
  serializeForm : List (String × String) → String
  /-- What an expression matches, or why it is none. -/
  compileRegex : String → Except String (String → Bool)
  /-- `chrono`, which may read a time that has no nanoseconds in 64 bits. -/
  parseRfc3339 : String → Except String (Option Nanos)

variable (lib : Libraries)

/-! ### Times -/

/-- A part of a text that is quoted in a message. -/
def quoted (text : String) : String := "'" ++ text ++ "'"

def durationErrorText : Logql.DurationError → String
  | .empty => "empty duration"
  | .invalid => "invalid duration"
  | .outOfRange => "duration is out of range"

/-- `str::parse` of an unsigned number of 64 bits. -/
def parseU64 (s : List Char) : Option ℕ :=
  let digits := if s.head? = some '+' then s.tail else s
  if digits.isEmpty || !digits.all Char.isDigit then none
  else if Logql.digitsValue digits < 2 ^ 64 then some (Logql.digitsValue digits) else none

/-- An `i64`, if it is one. -/
def toNanos (ns : ℤ) : Option Nanos := if h : -2 ^ 63 ≤ ns ∧ ns < 2 ^ 63 then some ⟨ns, h⟩ else none

/-- A number of seconds in nanoseconds, if it is a whole number of them. -/
def decimalSecondsToNs (input : String) : Option Nanos := do
  let decimal ← Logql.Decimal.parse input
  let shift := 9 - decimal.scale
  -- the power and the product are checked `i128`
  let power : ℤ := 10 ^ shift.natAbs
  guard (power < 2 ^ 127)
  if 0 ≤ shift then do
    guard (-2 ^ 127 ≤ decimal.coefficient * power ∧ decimal.coefficient * power < 2 ^ 127)
    toNanos (decimal.coefficient * power)
  else do
    guard (decimal.coefficient % power = 0)
    toNanos (decimal.coefficient / power)

/-- The unit of a number of seconds or parts of them, by its digits. -/
def timestampUnit (digits : ℕ) : Option ℤ :=
  if 1 ≤ digits ∧ digits ≤ 10 then some 1000000000
  else if digits = 13 then some 1000000
  else if digits = 16 then some 1000
  else if digits = 19 then some 1
  else none

def parseTimeNs (input : String) : Except String Nanos :=
  let text := Logql.trim input.toList
  let s := String.ofList text
  let digits := if text.head? = some '-' then text.tail else text
  if text.isEmpty then .error "empty timestamp"
  else if !digits.isEmpty && digits.all Char.isDigit then
    match Logql.parseI64 text with
    | none => .error ("invalid timestamp " ++ quoted s ++ ": number too " ++
        (if text.head? = some '-' then "small" else "large") ++ " to fit in target type")
    | some n =>
      match timestampUnit digits.length with
      | none => .error ("unsupported numeric timestamp precision (expected seconds, milliseconds, " ++
          "microseconds, or nanoseconds): " ++ quoted s)
      | some unit => (toNanos (n * unit)).elim
          (.error ("timestamp " ++ quoted s ++ " is out of range")) .ok
  else if text.any (['.', 'e', 'E'].contains ·) &&
      text.all (fun c => c.isDigit || ['.', 'e', 'E', '+', '-'].contains c) then
    (decimalSecondsToNs s).elim (.error ("invalid decimal Unix timestamp " ++ quoted s ++
      ": expected finite seconds with nanosecond precision")) .ok
  else
    match lib.parseRfc3339 s with
    | .error e => .error ("invalid RFC3339 timestamp " ++ quoted s ++ ": " ++ e)
    | .ok none => .error ("timestamp " ++ quoted s ++ " out of range")
    | .ok (some ns) => .ok ns

/-- A time, or a duration before now, which a unit tells from a negative number. -/
def parseTimeOrRelativeNs (input : String) (nowNs : Nanos) : Except String Nanos :=
  let trimmed := Logql.trim input.toList
  let rest := trimmed.tail
  if trimmed.head? = some '-' && rest.any (fun c => c.isAlpha) &&
      !rest.any (['e', 'E'].contains ·) then
    match Logql.parseDurationNs (String.ofList rest) with
    | .ok duration => .ok (Metrics.Nanos.saturating (nowNs.1 - duration))
    | .error e => .error ("invalid relative time " ++ quoted (String.ofList trimmed) ++ ": " ++
        durationErrorText e)
  else parseTimeNs lib (String.ofList trimmed)

/-! ### Attribute filters -/

/-- A matcher, or a comparison, of which there are four. -/
inductive AttrOp where
  | matcher (op : MatcherOp)
  | compare (op : FieldOp)
deriving DecidableEq

def matcherSymbol : MatcherOp → String
  | .eq => "="
  | .neq => "!="
  | .re => "=~"
  | .nre => "!~"

/-- `compare_symbol`; the other operators are no comparisons. -/
def compareSymbol : FieldOp → String
  | .gte => ">="
  | .lte => "<="
  | .gt => ">"
  | .lt => "<"
  | _ => ""

/-- The operator at the head of a text, and what is behind it. -/
def attrOpAt : List Char → Option (AttrOp × List Char)
  | '!' :: '=' :: rest => some (.matcher .neq, rest)
  | '!' :: '~' :: rest => some (.matcher .nre, rest)
  | '=' :: '~' :: rest => some (.matcher .re, rest)
  | '=' :: rest => some (.matcher .eq, rest)
  | '>' :: '=' :: rest => some (.compare .gte, rest)
  | '>' :: rest => some (.compare .gt, rest)
  | '<' :: '=' :: rest => some (.compare .lte, rest)
  | '<' :: rest => some (.compare .lt, rest)
  | _ => none

/-- The first operator, with what is before it and behind it. -/
def findAttrOp : List Char → Option (List Char × AttrOp × List Char)
  | [] => none
  | c :: rest =>
    match attrOpAt (c :: rest) with
    | some (op, value) => some ([], op, value)
    | none => (findAttrOp rest).map fun found => (c :: found.1, found.2)

def splitAttr (input : String) : Except String (String × AttrOp × String) :=
  match findAttrOp input.toList with
  | none => .error ("attr filter " ++ quoted input ++ " has no operator: write attr=key=value " ++
      "(also !=, =~, !~, and >=, <=, >, < on the trace endpoints)")
  | some ([], _, _) =>
    .error ("attr filter " ++ quoted input ++ " has an empty key: write attr=key=value")
  | some (key, op, value) => .ok (String.ofList key, op, String.ofList value)

/-! ### The loop -/

/-- What the loop collects.  The parameters of the metric endpoints, which those of logs and traces
refuse as unknown, are left out. -/
structure RawParams where
  startNs : Option Nanos
  endNs : Option Nanos
  limit : Option ℕ
  direction : Option String
  bucketNs : Option ℤ
  delaySeconds : Option ℕ
  attrs : List (String × AttrOp × String)
  lineFilters : List LineFilter
  parseStages : List PipelineStage

def RawParams.empty : RawParams := ⟨none, none, none, none, none, none, [], [], []⟩

def setOnce {α : Type} (name : String) (slot : Option α) (value : α) : Except String (Option α) :=
  if slot.isSome then .error ("parameter " ++ quoted name ++ " was given more than once")
  else .ok (some value)

/-- `Regex::new`: an expression keeps its text. -/
def newRegex (pattern : String) : Except String Regex := (lib.compileRegex pattern).map (⟨pattern, ·⟩)

def lineRegex (param value : String) : Except String Regex :=
  (newRegex lib value).mapError fun e => "invalid " ++ param ++ " regex " ++ quoted value ++ ": " ++ e

def anchoredRegex (value : String) : Except String Regex :=
  (newRegex lib ("^(?:" ++ value ++ ")$")).mapError fun e =>
    "invalid regular expression " ++ quoted value ++ ": " ++ e

/-- The value of `parse`. -/
def parseStage : String → Except String PipelineStage
  | "json" => .ok .json
  | "logfmt" => .ok .logfmt
  | other => .error ("invalid parse value " ++ quoted other ++ ": expected json or logfmt")

/-- `discriminant`, of the stages that `parse` names. -/
def sameStage : PipelineStage → PipelineStage → Bool
  | .json, .json | .logfmt, .logfmt => true
  | _, _ => false

/-- `bucket` and the durations of metrics. -/
def positiveBucket (value : String) : Except String ℤ :=
  match Logql.parseDurationNs value with
  | .error e => .error ("invalid bucket " ++ quoted value ++ ": " ++ durationErrorText e)
  | .ok parsed =>
    if parsed ≤ 0 then
      .error ("invalid bucket " ++ quoted value ++ ": the width must be positive, like bucket=30s")
    else .ok parsed

def applyParam (nowNs : Nanos) (allowed : List String) (raw : RawParams) (pair : String × String) :
    Except String RawParams :=
  let (key, value) := pair
  if !allowed.contains key then
    .error ("unknown parameter " ++ quoted key ++ ": this endpoint accepts " ++
      ", ".intercalate allowed ++ " — see docs/QUERY_API.md")
  else
    match key with
    | "start" => do
      let ns ← parseTimeOrRelativeNs lib value nowNs
      let startNs ← setOnce "start" raw.startNs ns
      .ok { raw with startNs }
    | "end" => do
      let ns ← parseTimeOrRelativeNs lib value nowNs
      let endNs ← setOnce "end" raw.endNs ns
      .ok { raw with endNs }
    | "limit" => do
      let parsed ← (parseU64 value.toList).elim
        (.error ("invalid limit " ++ quoted value ++ ": expected a non-negative integer")) .ok
      let limit ← setOnce "limit" raw.limit parsed
      .ok { raw with limit }
    | "direction" => do
      let direction ← setOnce "direction" raw.direction value
      .ok { raw with direction }
    | "bucket" => do
      let parsed ← positiveBucket value
      let bucketNs ← setOnce "bucket" raw.bucketNs parsed
      .ok { raw with bucketNs }
    | "delay" => do
      let parsed ← (parseU64 value.toList).elim
        (.error ("invalid delay " ++ quoted value ++ ": expected whole seconds, like delay=2")) .ok
      let delaySeconds ← setOnce "delay" raw.delaySeconds parsed
      .ok { raw with delaySeconds }
    | "attr" => do
      let attr ← splitAttr value
      .ok { raw with attrs := raw.attrs ++ [attr] }
    | "contains" => .ok { raw with lineFilters := raw.lineFilters ++ [.contains value] }
    | "not_contains" => .ok { raw with lineFilters := raw.lineFilters ++ [.notContains value] }
    | "regex" => do
      let re ← lineRegex lib "regex" value
      .ok { raw with lineFilters := raw.lineFilters ++ [.regex re] }
    | "not_regex" => do
      let re ← lineRegex lib "not_regex" value
      .ok { raw with lineFilters := raw.lineFilters ++ [.notRegex re] }
    | "parse" => do
      let stage ← parseStage value
      if raw.parseStages.any fun existing => sameStage existing stage then
        .error ("parse=" ++ value ++ " was given more than once")
      else .ok { raw with parseStages := raw.parseStages ++ [stage] }
    | _ => .error "every allowed parameter is matched above"

def parseRawParams (raw : String) (nowNs : Nanos) (allowed : List String) : Except String RawParams :=
  (lib.parseForm raw).foldlM (applyParam lib nowNs allowed) .empty

/-! ### Log queries -/

/-- `LabelMatcher::new`. -/
def newLabelMatcher (name : String) (op : MatcherOp) (value : String) : Except String LabelMatcher :=
  match op with
  | .eq | .neq => .ok ⟨name, op, value, none⟩
  | .re | .nre => do
    let regex ← anchoredRegex lib value
    .ok ⟨name, op, value, some regex⟩

def logAttr (attr : String × AttrOp × String) : Except String (String × MatcherOp × String) :=
  match attr with
  | (name, .matcher op, value) => .ok (name, op, value)
  | (name, .compare op, value) =>
    .error ("attr filter " ++ quoted (name ++ compareSymbol op ++ value) ++
      " uses a comparison: log filters support =, !=, =~, !~ — duration comparisons belong to the " ++
      "trace endpoints, see docs/QUERY_API.md")

/-- A filter on a field that a parser may have extracted. -/
def fieldFilter (attr : String × MatcherOp × String) : Except String PipelineStage :=
  match attr with
  | (name, .eq, value) => .ok (.field ⟨name, .eq, .string value⟩)
  | (name, .neq, value) => .ok (.field ⟨name, .neq, .string value⟩)
  | (name, .re, value) => (anchoredRegex lib value).map fun re => .field ⟨name, .regex, .regex re⟩
  | (name, .nre, value) =>
    (anchoredRegex lib value).map fun re => .field ⟨name, .notRegex, .regex re⟩

def buildLogQuery (attrs : List (String × AttrOp × String)) (lineFilters : List LineFilter)
    (parseStages : List PipelineStage) : Except String LogQuery := do
  let attrs ← attrs.mapM logAttr
  if parseStages.isEmpty then do
    let matchers ← attrs.mapM fun attr => newLabelMatcher lib attr.1 attr.2.1 attr.2.2
    .ok ⟨matchers, lineFilters, []⟩
  else do
    let fields ← attrs.mapM (fieldFilter lib)
    .ok ⟨[], lineFilters, parseStages ++ fields⟩

/-- `parse_direction`: whether the answer is oldest first. -/
def parseDirection : Option String → Except String Bool
  | none => .ok false
  | some value =>
    let lower := String.ofList (value.toList.map Char.toLower)
    if lower = "forward" then .ok true
    else if lower = "backward" then .ok false
    else .error ("invalid direction " ++ quoted value ++ ": expected 'forward' or 'backward'")

structure FilterParams where
  startNs : Option Nanos
  endNs : Option Nanos
  query : LogQuery
  limit : Option ℕ
  forward : Bool
  bucketNs : Option ℤ
  delaySeconds : Option ℕ

def parseFilterParams (raw : String) (nowNs : Nanos) (allowed : List String) :
    Except String FilterParams := do
  let raw ← parseRawParams lib raw nowNs allowed
  let forward ← parseDirection raw.direction
  let query ← buildLogQuery lib raw.attrs raw.lineFilters raw.parseStages
  .ok ⟨raw.startNs, raw.endNs, query, raw.limit, forward, raw.bucketNs, raw.delaySeconds⟩

/-! ### What is kept of a deletion -/

/-- The parameter of a line filter. -/
def linePair : LineFilter → String × String
  | .contains value => ("contains", value)
  | .notContains value => ("not_contains", value)
  | .regex re => ("regex", re.pattern)
  | .notRegex re => ("not_regex", re.pattern)

/-- The parameters of the filters of a query. -/
def filterPairs (query : LogQuery) : List (String × String) :=
  (query.matchers.map fun m => ("attr", m.name ++ matcherSymbol m.op ++ m.value)) ++
    query.lineFilters.map linePair

def canonicalFilterQuery (query : LogQuery) : String := lib.serializeForm (filterPairs query)

/-- `parse_selector`, of what is kept. -/
def parseSelector (query : String) : Except String LogQuery := do
  let params ← parseFilterParams lib query .zero deleteFilterParams
  if params.query.matchers.isEmpty then
    .error "a delete query must name at least one attr filter, like attr=app=api"
  else .ok params.query

/-! ### Splitting -/

def AttrOp.symbol : AttrOp → String
  | .matcher op => matcherSymbol op
  | .compare op => compareSymbol op

theorem eq_of_attrOpAt {input value : List Char} {op : AttrOp}
    (h : attrOpAt input = some (op, value)) : input = op.symbol.toList ++ value := by
  unfold attrOpAt at h
  split at h <;> first
    | cases h
      rfl
    | cases h

theorem eq_of_findAttrOp {input key value : List Char} {op : AttrOp}
    (h : findAttrOp input = some (key, op, value)) : input = key ++ op.symbol.toList ++ value := by
  induction input generalizing key with
  | nil => cases h
  | cons c rest ih =>
    rw [findAttrOp] at h
    split at h
    case h_1 hop =>
      obtain ⟨rfl, hrest⟩ := Prod.mk.inj (Option.some.inj h)
      obtain ⟨rfl, rfl⟩ := Prod.mk.inj hrest
      exact eq_of_attrOpAt hop
    case h_2 =>
      obtain ⟨⟨before, behind⟩, hfound, heq⟩ := Option.map_eq_some_iff.1 h
      obtain ⟨rfl, rfl⟩ := Prod.mk.inj heq
      rw [List.cons_append, List.cons_append, ← ih hfound]

/-- **What a filter is split into** is what it is put together from. -/
theorem eq_of_splitAttr {input key value : String} {op : AttrOp}
    (h : splitAttr input = .ok (key, op, value)) : key ++ op.symbol ++ value = input := by
  rw [splitAttr] at h
  split at h
  · cases h
  · cases h
  · rename_i hfound
    obtain ⟨rfl, hrest⟩ := Prod.mk.inj (Except.ok.inj h)
    obtain ⟨rfl, rfl⟩ := Prod.mk.inj hrest
    apply String.toList_injective
    rw [String.toList_append, String.toList_append, String.toList_ofList, String.toList_ofList]
    exact (eq_of_findAttrOp hfound).symm

/-! ### Filters that read back -/

/-- A matcher is read back from what is written of it. -/
def MatcherReads (m : LabelMatcher) : Prop :=
  splitAttr (m.name ++ matcherSymbol m.op ++ m.value) = .ok (m.name, .matcher m.op, m.value) ∧
    newLabelMatcher lib m.name m.op m.value = .ok m

/-- The expression of a line filter is the compiled form of its text. -/
def LineFilterReads : LineFilter → Prop
  | .contains _ | .notContains _ => True
  | .regex re => lineRegex lib "regex" re.pattern = .ok re
  | .notRegex re => lineRegex lib "not_regex" re.pattern = .ok re

/-- What a deletion's parameters are collected to: no stage, and filters that read back. -/
structure RawParams.Reads (raw : RawParams) : Prop where
  attrs : ∀ attr ∈ raw.attrs, ∃ input, splitAttr input = .ok attr
  lineFilters : ∀ filter ∈ raw.lineFilters, LineFilterReads lib filter
  stages : raw.parseStages = []

variable {lib}

theorem pattern_of_lineRegex {param value : String} {re : Regex}
    (h : lineRegex lib param value = .ok re) : re.pattern = value := by
  obtain ⟨_, -, rfl⟩ := exists_of_map (Runs.of_mapError_ok h)
  rfl

theorem forall_mem_concat {α : Type} {p : α → Prop} {items : List α} {item : α}
    (h : ∀ x ∈ items, p x) (hitem : p item) : ∀ x ∈ items ++ [item], p x := by
  intro x hx
  rcases List.mem_append.1 hx with hx | hx
  · exact h x hx
  · rwa [List.mem_singleton.1 hx]

theorem RawParams.Reads.applyParam {nowNs : Nanos} {raw raw' : RawParams} {pair : String × String}
    (h : raw.Reads lib) (happly : applyParam lib nowNs deleteParams raw pair = .ok raw') :
    raw'.Reads lib := by
  unfold Query.applyParam at happly
  obtain ⟨key, value⟩ := pair
  dsimp only at happly
  split at happly
  · cases happly
  · rename_i hallowed
    have hmem : key ∈ deleteParams := by simpa using hallowed
    rcases List.mem_cons.1 hmem with rfl | hmem
    · obtain ⟨_, -, happly⟩ := exists_of_bind happly
      obtain ⟨_, -, happly⟩ := exists_of_bind happly
      obtain rfl := Except.ok.inj happly
      exact ⟨h.attrs, h.lineFilters, h.stages⟩
    rcases List.mem_cons.1 hmem with rfl | hmem
    · obtain ⟨_, -, happly⟩ := exists_of_bind happly
      obtain ⟨_, -, happly⟩ := exists_of_bind happly
      obtain rfl := Except.ok.inj happly
      exact ⟨h.attrs, h.lineFilters, h.stages⟩
    rcases List.mem_cons.1 hmem with rfl | hmem
    · obtain ⟨attr, hsplit, happly⟩ := exists_of_bind happly
      obtain rfl := Except.ok.inj happly
      exact ⟨forall_mem_concat h.attrs ⟨value, hsplit⟩, h.lineFilters, h.stages⟩
    rcases List.mem_cons.1 hmem with rfl | hmem
    · obtain rfl := Except.ok.inj happly
      exact ⟨h.attrs, forall_mem_concat h.lineFilters trivial, h.stages⟩
    rcases List.mem_cons.1 hmem with rfl | hmem
    · obtain rfl := Except.ok.inj happly
      exact ⟨h.attrs, forall_mem_concat h.lineFilters trivial, h.stages⟩
    rcases List.mem_cons.1 hmem with rfl | hmem
    · obtain ⟨re, hre, happly⟩ := exists_of_bind happly
      obtain rfl := Except.ok.inj happly
      refine ⟨h.attrs, forall_mem_concat h.lineFilters ?_, h.stages⟩
      rw [LineFilterReads, pattern_of_lineRegex hre]
      exact hre
    · obtain rfl := List.mem_singleton.1 hmem
      obtain ⟨re, hre, happly⟩ := exists_of_bind happly
      obtain rfl := Except.ok.inj happly
      refine ⟨h.attrs, forall_mem_concat h.lineFilters ?_, h.stages⟩
      rw [LineFilterReads, pattern_of_lineRegex hre]
      exact hre

theorem RawParams.reads_of_parse {raw : String} {nowNs : Nanos} {params : RawParams}
    (h : parseRawParams lib raw nowNs deleteParams = .ok params) : params.Reads lib :=
  Runs.foldlM_induction (P := RawParams.Reads lib) (fun _ _ _ _ hreads => hreads.applyParam)
    ⟨fun _ hmem => (by cases hmem), fun _ hmem => (by cases hmem), rfl⟩ h

/-! ### What is kept is read back -/

/-- A matcher as it is split. -/
def attrOf (m : LabelMatcher) : String × AttrOp × String := (m.name, .matcher m.op, m.value)

theorem attr_of_newLabelMatcher {name value : String} {op : MatcherOp} {m : LabelMatcher}
    (h : newLabelMatcher lib name op value = .ok m) : m.name = name ∧ m.op = op ∧ m.value = value := by
  cases op with
  | eq | neq =>
    obtain rfl := Except.ok.inj h
    exact ⟨rfl, rfl, rfl⟩
  | re | nre =>
    obtain ⟨_, -, h⟩ := exists_of_bind h
    obtain rfl := Except.ok.inj h
    exact ⟨rfl, rfl, rfl⟩

/-- The query of filters that read back is of such filters. -/
theorem RawParams.Reads.buildLogQuery {raw : RawParams} {query : LogQuery} (h : raw.Reads lib)
    (hbuild : buildLogQuery lib raw.attrs raw.lineFilters raw.parseStages = .ok query) :
    (∀ m ∈ query.matchers, MatcherReads lib m) ∧ query.lineFilters = raw.lineFilters ∧
      query.stages = [] := by
  obtain ⟨attrs, hattrs, hbuild⟩ := exists_of_bind hbuild
  rw [if_pos (by rw [h.stages]; rfl)] at hbuild
  obtain ⟨matchers, hmatchers, hbuild⟩ := exists_of_bind hbuild
  obtain rfl := Except.ok.inj hbuild
  refine ⟨fun m hm => ?_, rfl, rfl⟩
  obtain ⟨⟨name, op, value⟩, hattr, hnew⟩ := Runs.exists_of_mem_mapM hmatchers hm
  obtain ⟨submitted, hsubmitted, hlog⟩ := Runs.exists_of_mem_mapM hattrs hattr
  obtain ⟨input, hinput⟩ := h.attrs submitted hsubmitted
  obtain ⟨rfl, rfl, rfl⟩ := attr_of_newLabelMatcher hnew
  obtain ⟨key, found, text⟩ := submitted
  cases found with
  | compare _ => cases hlog
  | matcher found =>
    obtain ⟨rfl, hrest⟩ := Prod.mk.inj (Except.ok.inj hlog)
    obtain ⟨rfl, rfl⟩ := Prod.mk.inj hrest
    refine ⟨?_, hnew⟩
    -- the text that is written is the one that was split
    have hsame := eq_of_splitAttr hinput
    rw [AttrOp.symbol] at hsame
    rw [hsame, hinput]

theorem foldlM_matchers {nowNs : Nanos} {matchers : List LabelMatcher}
    (h : ∀ m ∈ matchers, MatcherReads lib m) (raw : RawParams) :
    (matchers.map fun m => ("attr", m.name ++ matcherSymbol m.op ++ m.value)).foldlM
      (applyParam lib nowNs deleteFilterParams) raw =
        .ok { raw with attrs := raw.attrs ++ matchers.map attrOf } := by
  induction matchers generalizing raw with
  | nil => simp [pure, Except.pure]
  | cons m matchers ih =>
    have hfirst : applyParam lib nowNs deleteFilterParams raw
        ("attr", m.name ++ matcherSymbol m.op ++ m.value) =
          .ok { raw with attrs := raw.attrs ++ [attrOf m] } := by
      have hsplit := (h m List.mem_cons_self).1
      rw [applyParam, if_neg (by decide)]
      simp only [hsplit]
      rfl
    rw [List.map_cons, List.foldlM_cons, hfirst]
    refine (ih (fun other hother => h other (List.mem_cons_of_mem _ hother)) _).trans ?_
    rw [List.append_assoc]
    rfl

theorem applyParam_linePair {nowNs : Nanos} {filter : LineFilter} (h : LineFilterReads lib filter)
    (raw : RawParams) : applyParam lib nowNs deleteFilterParams raw (linePair filter) =
      .ok { raw with lineFilters := raw.lineFilters ++ [filter] } := by
  cases filter with
  | contains value | notContains value => rfl
  | regex re | notRegex re =>
    rw [linePair, applyParam, if_neg (by decide)]
    rw [LineFilterReads] at h
    simp only [h]
    rfl

theorem foldlM_lineFilters {nowNs : Nanos} {filters : List LineFilter}
    (h : ∀ filter ∈ filters, LineFilterReads lib filter) (raw : RawParams) :
    (filters.map linePair).foldlM (applyParam lib nowNs deleteFilterParams) raw =
      .ok { raw with lineFilters := raw.lineFilters ++ filters } := by
  induction filters generalizing raw with
  | nil => simp [pure, Except.pure]
  | cons filter filters ih =>
    rw [List.map_cons, List.foldlM_cons, applyParam_linePair (h filter List.mem_cons_self)]
    refine (ih (fun other hother => h other (List.mem_cons_of_mem _ hother)) _).trans ?_
    rw [List.append_assoc]
    rfl

/-- A query of filters that read back is read from what is kept of it. -/
theorem parseFilterParams_canonical {query : LogQuery}
    (hmatchers : ∀ m ∈ query.matchers, MatcherReads lib m)
    (hlines : ∀ filter ∈ query.lineFilters, LineFilterReads lib filter) (hstages : query.stages = [])
    (hround : lib.parseForm (canonicalFilterQuery lib query) = filterPairs query) (nowNs : Nanos) :
    parseFilterParams lib (canonicalFilterQuery lib query) nowNs deleteFilterParams =
      .ok ⟨none, none, query, none, false, none, none⟩ := by
  have hraw : parseRawParams lib (canonicalFilterQuery lib query) nowNs deleteFilterParams =
      .ok ⟨none, none, none, none, none, none, query.matchers.map attrOf, query.lineFilters, []⟩ := by
    rw [parseRawParams, hround, filterPairs, List.foldlM_append, foldlM_matchers hmatchers]
    exact foldlM_lineFilters hlines _
  have hattrs : (query.matchers.map attrOf).mapM logAttr =
      .ok (query.matchers.map fun m => (m.name, m.op, m.value)) := by
    have h := @Runs.mapM_map_of_ok _ _ _ logAttr
      (fun attr => (attr.1, AttrOp.matcher attr.2.1, attr.2.2))
      (query.matchers.map fun m => (m.name, m.op, m.value)) (fun _ _ => rfl)
    rw [List.map_map] at h
    exact h
  have hnew : (query.matchers.map fun m => (m.name, m.op, m.value)).mapM
      (fun attr => newLabelMatcher lib attr.1 attr.2.1 attr.2.2) = .ok query.matchers :=
    Runs.mapM_map_of_ok fun m hm => (hmatchers m hm).2
  have hbuild : buildLogQuery lib (query.matchers.map attrOf) query.lineFilters [] = .ok query := by
    obtain ⟨matchers, lineFilters, stages⟩ := query
    obtain rfl : stages = [] := hstages
    simp only [buildLogQuery, hattrs, bind, Except.bind, List.isEmpty_nil, if_true, hnew]
  simp only [parseFilterParams, hraw, bind, Except.bind, parseDirection, hbuild]

/-- **A selector that is kept means what was submitted.**  Its text is read as the same matchers and
line filters in the same order, and they give the same text. -/
theorem selector_reads_back {raw : String} {nowNs : Nanos} {params : FilterParams}
    (h : parseFilterParams lib raw nowNs deleteParams = .ok params)
    (hround : lib.parseForm (canonicalFilterQuery lib params.query) = filterPairs params.query)
    (later : Nanos) :
    ∃ kept, parseFilterParams lib (canonicalFilterQuery lib params.query) later deleteFilterParams =
        .ok kept ∧
      kept.query.matchers = params.query.matchers ∧
      kept.query.lineFilters = params.query.lineFilters ∧
      canonicalFilterQuery lib kept.query = canonicalFilterQuery lib params.query ∧
      (params.query.matchers ≠ [] →
        parseSelector lib (canonicalFilterQuery lib params.query) = .ok params.query) := by
  obtain ⟨collected, hcollected, h⟩ := exists_of_bind h
  obtain ⟨forward, -, h⟩ := exists_of_bind h
  obtain ⟨query, hquery, h⟩ := exists_of_bind h
  obtain rfl := Except.ok.inj h
  have hreads := RawParams.reads_of_parse hcollected
  obtain ⟨hmatchers, hlines, hstages⟩ := hreads.buildLogQuery hquery
  have hkept := parseFilterParams_canonical hmatchers (fun filter hfilter =>
    hreads.lineFilters filter (hlines ▸ hfilter)) hstages hround
  refine ⟨_, hkept later, rfl, rfl, rfl, fun hsome => ?_⟩
  rw [parseSelector, hkept]
  simp only [bind, Except.bind, List.isEmpty_iff, hsome, if_false]

/-- The libraries on one text: the filter `app=api` as a parameter. -/
def oneFilter : Libraries where
  parseForm raw := if raw = "attr=app%3Dapi" then [("attr", "app=api")] else []
  serializeForm pairs := if pairs = [("attr", "app=api")] then "attr=app%3Dapi" else ""
  compileRegex _ := .error "unsupported"
  parseRfc3339 _ := .error "unsupported"

theorem selector_reads_back_one : ∃ params kept,
    parseFilterParams oneFilter "attr=app%3Dapi" .zero deleteParams = .ok params ∧
      parseFilterParams oneFilter (canonicalFilterQuery oneFilter params.query) .zero
        deleteFilterParams = .ok kept ∧
      kept.query.matchers = params.query.matchers := by
  have hparse : parseFilterParams oneFilter "attr=app%3Dapi" .zero deleteParams =
      .ok ⟨none, none, ⟨[⟨"app", .eq, "api", none⟩], [], []⟩, none, false, none, none⟩ := rfl
  obtain ⟨kept, hkept, hmatchers, -⟩ := selector_reads_back hparse rfl .zero
  exact ⟨_, kept, hparse, hkept, hmatchers⟩

end Query

end Obsy
