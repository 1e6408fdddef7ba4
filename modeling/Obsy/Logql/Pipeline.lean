import Mathlib.Data.List.Infix
import Obsy.Logql.Values

/-!
# The pipeline of a log query

A query accepts an entry if its matchers, its line filters and its stages do; the stages read
fields out of the line and filter on them.  Equality filters are also handed to the storage, as
predicates a part can be asked about without reading its rows.

* `LogQuery.processEntry`: what a query makes of an entry.
* `LogQuery.exactFieldPredicates`: the equality filters, as the storage gets them.
* `Supplied`: where the value of a field comes from.
* `exactFieldPredicates_hold`: an accepted entry satisfies every predicate of the query.
-/

namespace Obsy

namespace Logql

open Obsy.Part (Pairs LogEntry)

/-! ### Queries -/

/-- A compiled regular expression: its text and what it matches. -/
structure Regex where
  pattern : String
  isMatch : String → Bool

inductive MatcherOp where
  | eq
  | neq
  | re
  | nre
deriving DecidableEq

/-- A statement about an attribute of the row. -/
structure LabelMatcher where
  name : String
  op : MatcherOp
  value : String
  /-- The expression of `re` and `nre`. -/
  regex : Option Regex

/-- An absent attribute is matched as an empty one. -/
def LabelMatcher.matches (m : LabelMatcher) (fields : Assoc String) : Bool :=
  let actual := (fields.lookup m.name).getD ""
  match m.op with
  | .eq => actual == m.value
  | .neq => actual != m.value
  | .re => m.regex.any (·.isMatch actual)
  | .nre => m.regex.all fun re => !re.isMatch actual

inductive LineFilter where
  | contains (needle : String)
  | notContains (needle : String)
  | regex (re : Regex)
  | notRegex (re : Regex)

/-- `str::contains`. -/
def containsText (line needle : String) : Bool := decide (needle.toList <:+: line.toList)

def LineFilter.matches (line : String) : LineFilter → Bool
  | .contains needle => containsText line needle
  | .notContains needle => !containsText line needle
  | .regex re => re.isMatch line
  | .notRegex re => !re.isMatch line

inductive FieldOp where
  | eq
  | neq
  | regex
  | notRegex
  | lt
  | lte
  | gt
  | gte
deriving DecidableEq

inductive FieldValue where
  | string (value : String)
  | regex (re : Regex)
  | number (value : Decimal)
  | duration (ns : ℤ)

/-- A statement about a field of the entry. -/
structure FieldFilter where
  name : String
  op : FieldOp
  value : FieldValue

/-- What an operator says about an order; a regular expression is none. -/
def FieldOp.accepts (op : FieldOp) (order : Ordering) : Bool :=
  match op with
  | .eq => order == .eq
  | .neq => order != .eq
  | .lt => order == .lt
  | .lte => order != .gt
  | .gt => order == .gt
  | .gte => order != .lt
  | .regex | .notRegex => false

/-- An absent field is filtered as an empty one. -/
def FieldFilter.matches (filter : FieldFilter) (fields : Assoc String) : Bool :=
  let actual := (fields.lookup filter.name).getD ""
  match filter.op, filter.value with
  | .eq, .string expected => actual == expected
  | .neq, .string expected => actual != expected
  | .regex, .regex re => re.isMatch actual
  | .notRegex, .regex re => !re.isMatch actual
  | op, .number expected => (Decimal.parse actual).any fun actual => op.accepts (actual.cmp expected)
  | op, .duration expected =>
    (parseDurationNs actual).toOption.any fun actual => op.accepts (compare actual expected)
  | _, _ => false

inductive PipelineStage where
  | line (filter : LineFilter)
  | json
  | logfmt
  | field (filter : FieldFilter)

structure LogQuery where
  matchers : List LabelMatcher
  lineFilters : List LineFilter
  stages : List PipelineStage

def parserErrorField : String := "__error__"

def parserErrorDetailsField : String := "__error_details__"

/-! ### Running the pipeline -/

/-- The fields of an entry before any parser: its metadata, the first value of each name. -/
def initialFields (metadata : Pairs) : FieldSet :=
  metadata.foldl (fun set p =>
    ⟨if (set.fields.lookup p.1).isSome then set.fields else put p.1 p.2 set.fields,
      observeExtractedName set.nextSuffix p.1⟩) ⟨[], []⟩

/-- Enters what a parser extracted; metadata of the same name outranks it. -/
def mergeExtracted (shadowedByMetadata : List String) (set : FieldSet) (extracted : Pairs) :
    FieldSet :=
  extracted.foldl (fun set p =>
    if p.1 ∈ shadowedByMetadata then set else insertExtractedWithCounter set p.1 p.2) set

/-- Marks the entry as one a parser could not read. -/
def setParserError (set : FieldSet) (error details : String) : FieldSet :=
  { set with
    fields := put parserErrorDetailsField details (put parserErrorField error set.fields) }

variable (parseJson : String → Option JsonValue)

/-- One stage, or `none` where it rejects the entry. -/
def runStage (precomputedJson : Option Pairs) (line : String) (shadowedByMetadata : List String)
    (set : FieldSet) : PipelineStage → Option FieldSet
  | .line filter => if filter.matches line then some set else none
  | .json =>
    match precomputedJson.or (extractJson parseJson line) with
    | some extracted => some (mergeExtracted shadowedByMetadata set extracted)
    | none => some (setParserError set "JSONParserErr" "line is not valid JSON")
  | .logfmt =>
    match extractLogfmt line with
    | some extracted => some (mergeExtracted shadowedByMetadata set extracted)
    | none => some (setParserError set "LogfmtParserErr" "line is not valid logfmt")
  | .field filter => if filter.matches set.fields then some set else none

/-- `process_entry_with_precomputed_json`: the entry with the fields of the pipeline as its
metadata, or `none` where the query rejects it. -/
def LogQuery.processEntry (query : LogQuery) (precomputedJson : Option Pairs) (entry : LogEntry) :
    Option LogEntry :=
  let initial := initialFields entry.structuredMetadata
  if query.matchers.all fun m => m.matches initial.fields then
    (query.stages.foldlM (runStage parseJson precomputedJson entry.line
      (entry.structuredMetadata.map Prod.fst)) initial).map fun set =>
        { entry with structuredMetadata := set.fields }
  else none

/-! ### What the storage is asked -/

/-- An equality over the metadata of a row or the fields of its line. -/
structure ExactFieldPredicate where
  name : String
  value : String
  /-- A parser before it may have produced the field. -/
  mayBeExtracted : Bool
  /-- `value` is a canonical number or duration. -/
  canonical : Bool
  /-- No parser but `json` can have produced the field. -/
  jsonOnlyExtraction : Bool
deriving DecidableEq

/-- The predicate of a field filter, if it is one the storage can be asked. -/
def fieldPredicate (parserSeen jsonOnly : Bool) (filter : FieldFilter) :
    Option ExactFieldPredicate :=
  if filter.op = .eq ∧ filter.name ≠ parserErrorField ∧ filter.name ≠ parserErrorDetailsField ∧
      (!parserSeen || !mayBeSynthesizedExtractedName filter.name) then
    match filter.value with
    | .string value => some ⟨filter.name, value, parserSeen, false, parserSeen && jsonOnly⟩
    | .number value =>
      some ⟨filter.name, value.canonicalString, parserSeen, true, parserSeen && jsonOnly⟩
    | .duration value => some ⟨filter.name, toString value, parserSeen, true, parserSeen && jsonOnly⟩
    | .regex _ => none
  else none

/-- The predicates of the stages after a parser was seen or not, and only `json` or not. -/
def stagePredicates : Bool → Bool → List PipelineStage → List ExactFieldPredicate
  | _, _, [] => []
  | _, jsonOnly, .json :: stages => stagePredicates true jsonOnly stages
  | _, _, .logfmt :: stages => stagePredicates true false stages
  | parserSeen, jsonOnly, .field filter :: stages =>
    (fieldPredicate parserSeen jsonOnly filter).toList ++ stagePredicates parserSeen jsonOnly stages
  | parserSeen, jsonOnly, .line _ :: stages => stagePredicates parserSeen jsonOnly stages

/-- The predicate of a selector equality. -/
def matcherPredicate (m : LabelMatcher) : Option ExactFieldPredicate :=
  if m.op = .eq ∧ m.value ≠ "" then some ⟨m.name, m.value, false, false, false⟩ else none

def LogQuery.exactFieldPredicates (query : LogQuery) : List ExactFieldPredicate :=
  query.matchers.filterMap matcherPredicate ++ stagePredicates false true query.stages

/-! ### Where a value comes from -/

/-- A field of an entry can have a value: from its metadata or, where that does not name the
field, from the parsers that were seen. -/
def Supplied (metadata : Pairs) (line : String) (parserSeen jsonOnly : Bool)
    (name actual : String) : Prop :=
  metadata.lookup name = some actual ∨
    parserSeen = true ∧ metadata.lookup name = none ∧
      ((∃ fields, extractJson parseJson line = some fields ∧ fields.lookup name = some actual) ∨
        jsonOnly = false ∧
          ∃ fields, extractLogfmt line = some fields ∧ fields.lookup name = some actual)

/-- An entry has a field that satisfies the predicate.  An empty value says nothing, since an
absent field counts as empty. -/
def ExactFieldPredicate.HoldsOn (p : ExactFieldPredicate) (metadata : Pairs) (line : String) :
    Prop :=
  p.value ≠ "" → ∃ actual,
    Supplied parseJson metadata line p.mayBeExtracted p.jsonOnlyExtraction p.name actual ∧
      if p.canonical then p.value ∈ canonicalIndexValues actual else p.value = actual

/-- The fields the stages have come to so far, by their names: no suffix, no parser error. -/
def Origin (metadata : Pairs) (line : String) (parserSeen jsonOnly : Bool) (set : FieldSet) :
    Prop :=
  ∀ name, (parserSeen = true → mayBeSynthesizedExtractedName name = false ∧
      name ≠ parserErrorField ∧ name ≠ parserErrorDetailsField) →
    ∀ actual, set.fields.lookup name = some actual →
      Supplied parseJson metadata line parserSeen jsonOnly name actual

variable {parseJson} {metadata : Pairs} {line : String}

theorem lookup_foldl_initial (metadata : Pairs) (set : FieldSet) (name : String) :
    (metadata.foldl (fun set p =>
      (⟨if (set.fields.lookup p.1).isSome then set.fields else put p.1 p.2 set.fields,
        observeExtractedName set.nextSuffix p.1⟩ : FieldSet)) set).fields.lookup name
      = (set.fields.lookup name).or (metadata.lookup name) := by
  induction metadata generalizing set with
  | nil => simp
  | cons p metadata ih =>
    obtain ⟨key, value⟩ := p
    rw [List.foldl_cons, ih, lookup_cons_ite]
    dsimp only
    by_cases h : name = key
    · subst h
      cases hl : set.fields.lookup name <;> simp [hl]
    · rw [if_neg h]
      split
      · rfl
      · rw [lookup_put_of_ne _ _ h]

theorem lookup_initialFields (metadata : Pairs) (name : String) :
    (initialFields metadata).fields.lookup name = metadata.lookup name := by
  rw [initialFields, lookup_foldl_initial]
  rfl

/-- An extracted field stands under its own name where that was free. -/
theorem lookup_mergeExtracted {name : String} (hn : mayBeSynthesizedExtractedName name = false)
    (shadowed : List String) (set : FieldSet) (extracted : Pairs) :
    (mergeExtracted shadowed set extracted).fields.lookup name =
      if name ∈ shadowed then set.fields.lookup name
      else (set.fields.lookup name).or (extracted.lookup name) := by
  induction extracted generalizing set with
  | nil => simp [mergeExtracted]
  | cons p extracted ih =>
    obtain ⟨key, value⟩ := p
    have hstep : mergeExtracted shadowed set ((key, value) :: extracted) = mergeExtracted shadowed
        (if key ∈ shadowed then set else insertExtractedWithCounter set key value) extracted := rfl
    rw [hstep, ih]
    by_cases hkey : key ∈ shadowed
    · rw [if_pos hkey]
      by_cases hname : name ∈ shadowed
      · rw [if_pos hname, if_pos hname]
      · have hne : name ≠ key := fun h => hname (h ▸ hkey)
        rw [if_neg hname, if_neg hname, lookup_cons_ite, if_neg hne]
    · rw [if_neg hkey, lookup_insertExtracted hn, lookup_cons_ite]
      by_cases hname : name ∈ shadowed
      · have hne : name ≠ key := fun h => hkey (h ▸ hname)
        rw [if_pos hname, if_pos hname, if_neg fun h => hne h.1]
      · rw [if_neg hname, if_neg hname]
        by_cases h : name = key
        · subst h
          cases hl : set.fields.lookup name <;> simp
        · rw [if_neg fun hc => h hc.1, if_neg h]

theorem mem_map_fst_iff {name : String} :
    name ∈ metadata.map Prod.fst ↔ metadata.lookup name ≠ none := by
  rw [ne_eq, List.lookup_eq_none_iff]
  push Not
  constructor
  · intro h
    obtain ⟨p, hp, rfl⟩ := List.mem_map.1 h
    exact ⟨p, hp, by simp⟩
  · rintro ⟨p, hp, he⟩
    exact List.mem_map.2 ⟨p, hp, by simpa using Eq.symm (by simpa using he)⟩

theorem origin_initialFields :
    Origin parseJson metadata line false true (initialFields metadata) := by
  intro name _ actual h
  rw [lookup_initialFields] at h
  exact .inl h

theorem Supplied.mono {seen seen' only only' : Bool} {name actual : String}
    (h : Supplied parseJson metadata line seen only name actual)
    (hseen : seen = true → seen' = true) (honly : only = false → only' = false) :
    Supplied parseJson metadata line seen' only' name actual := by
  rcases h with h | ⟨hs, hm, hj | ⟨ho, hl⟩⟩
  · exact .inl h
  · exact .inr ⟨hseen hs, hm, .inl hj⟩
  · exact .inr ⟨hseen hs, hm, .inr ⟨honly ho, hl⟩⟩

/-- A parser keeps the origin of the fields, adding its own. -/
theorem Origin.mergeExtracted {seen only only' : Bool} {set : FieldSet}
    (h : Origin parseJson metadata line seen only set) {extracted : Pairs}
    (honly : only = false → only' = false)
    (hfrom : ∀ name actual, extracted.lookup name = some actual → metadata.lookup name = none →
      Supplied parseJson metadata line true only' name actual) :
    Origin parseJson metadata line true only'
      (mergeExtracted (metadata.map Prod.fst) set extracted) := by
  intro name hname actual hl
  obtain ⟨hsyn, herr⟩ := hname rfl
  rw [lookup_mergeExtracted hsyn] at hl
  have hold : ∀ actual, set.fields.lookup name = some actual →
      Supplied parseJson metadata line true only' name actual := fun actual hset =>
    (h name (fun _ => ⟨hsyn, herr⟩) actual hset).mono (fun _ => rfl) honly
  split at hl
  case isTrue => exact hold actual hl
  case isFalse hshadow =>
    cases hset : set.fields.lookup name with
    | some old =>
      rw [hset] at hl
      exact hold actual (by rw [hset]; exact hl)
    | none =>
      rw [hset, Option.none_or] at hl
      refine hfrom name actual hl ?_
      rw [mem_map_fst_iff] at hshadow
      exact not_not.1 hshadow

theorem Origin.setParserError {seen only only' : Bool} {set : FieldSet}
    (h : Origin parseJson metadata line seen only set) (honly : only = false → only' = false)
    (error details : String) :
    Origin parseJson metadata line true only' (setParserError set error details) := by
  intro name hname actual hl
  obtain ⟨hsyn, herr, hdetails⟩ := hname rfl
  rw [Logql.setParserError, lookup_put_of_ne _ _ hdetails, lookup_put_of_ne _ _ herr] at hl
  exact (h name (fun _ => ⟨hsyn, herr, hdetails⟩) actual hl).mono (fun _ => rfl) honly

theorem fieldPredicate_holds {seen only : Bool} {set : FieldSet}
    (h : Origin parseJson metadata line seen only set) {filter : FieldFilter}
    (hm : filter.matches set.fields = true) {p : ExactFieldPredicate}
    (hp : fieldPredicate seen only filter = some p) : p.HoldsOn parseJson metadata line := by
  intro hne
  rw [fieldPredicate] at hp
  split at hp
  case isFalse => cases hp
  case isTrue hc =>
    obtain ⟨hop, herr, hdetails, hsyn⟩ := hc
    have horigin : ∀ actual, set.fields.lookup filter.name = some actual →
        Supplied parseJson metadata line seen (seen && only) filter.name actual := by
      intro actual hl
      refine (h filter.name ?_ actual hl).mono id fun ho => by rw [ho, Bool.and_false]
      intro hs
      refine ⟨?_, herr, hdetails⟩
      simpa [hs] using hsyn
    rw [FieldFilter.matches, hop] at hm
    -- the value that was compared is that of a field, for an absent one does not match
    have hactual : ∀ actual, (set.fields.lookup filter.name).getD "" = actual → actual ≠ "" →
        set.fields.lookup filter.name = some actual := by
      intro actual hget hempty
      cases hl : set.fields.lookup filter.name with
      | none => rw [hl] at hget; exact absurd hget.symm hempty
      | some value => rw [hl] at hget; exact congrArg some hget
    cases hv : filter.value with
    | regex re => rw [hv] at hp; cases hp
    | string value =>
      rw [hv] at hp hm
      obtain rfl := Option.some.inj hp
      have hget : (set.fields.lookup filter.name).getD "" = value := by simpa using hm
      exact ⟨value, horigin value (hactual value hget hne), by simp⟩
    | number value =>
      rw [hv] at hp hm
      obtain rfl := Option.some.inj hp
      obtain ⟨d, hd, hcmp⟩ := (Option.any_eq_true _ _).1 hm
      have heq : d = value := Decimal.eq_of_cmp (by simpa [FieldOp.accepts] using hcmp)
      set actual := (set.fields.lookup filter.name).getD "" with hget
      have hempty : actual ≠ "" := by
        intro he
        rw [he, Decimal.parse_empty] at hd
        cases hd
      refine ⟨actual, horigin actual (hactual actual hget.symm hempty), ?_⟩
      rw [if_pos rfl, mem_canonicalIndexValues]
      exact .inr (.inl ⟨d, hd, by rw [heq]⟩)
    | duration ns =>
      rw [hv] at hp hm
      obtain rfl := Option.some.inj hp
      obtain ⟨n, hn, hcmp⟩ := (Option.any_eq_true _ _).1 hm
      have heq : n = ns := by simpa [FieldOp.accepts, compare_eq_iff_eq] using hcmp
      set actual := (set.fields.lookup filter.name).getD "" with hget
      have hok : parseDurationNs actual = .ok n := by
        cases hparse : parseDurationNs actual with
        | error e => rw [hparse] at hn; cases hn
        | ok m => rw [hparse] at hn; exact congrArg _ (Option.some.inj hn)
      have hempty : actual ≠ "" := by
        intro he
        rw [he, parseDurationNs_empty] at hok
        cases hok
      refine ⟨actual, horigin actual (hactual actual hget.symm hempty), ?_⟩
      rw [if_pos rfl, mem_canonicalIndexValues]
      exact .inr (.inr ⟨n, hok, by rw [heq]⟩)

/-- Stages that accept have their predicates hold. -/
theorem stagePredicates_hold {stages : List PipelineStage} {seen only : Bool} {set last : FieldSet}
    (h : Origin parseJson metadata line seen only set)
    (hrun : stages.foldlM (runStage parseJson none line (metadata.map Prod.fst)) set = some last)
    {p : ExactFieldPredicate} (hp : p ∈ stagePredicates seen only stages) :
    p.HoldsOn parseJson metadata line := by
  induction stages generalizing seen only set with
  | nil => cases hp
  | cons stage stages ih =>
    rw [List.foldlM_cons, Option.bind_eq_bind, Option.bind_eq_some_iff] at hrun
    obtain ⟨next, hstage, hrest⟩ := hrun
    cases stage with
    | line filter =>
      rw [runStage] at hstage
      split at hstage
      case isTrue => exact ih (Option.some.inj hstage ▸ h) hrest hp
      case isFalse => cases hstage
    | json =>
      rw [runStage, Option.none_or] at hstage
      cases hx : extractJson parseJson line with
      | some extracted =>
        rw [hx] at hstage
        refine ih (Option.some.inj hstage ▸ h.mergeExtracted id ?_) hrest hp
        exact fun name actual hl hm => .inr ⟨rfl, hm, .inl ⟨extracted, hx, hl⟩⟩
      | none =>
        rw [hx] at hstage
        exact ih (Option.some.inj hstage ▸ h.setParserError id _ _) hrest hp
    | logfmt =>
      rw [runStage] at hstage
      cases hx : extractLogfmt line with
      | some extracted =>
        rw [hx] at hstage
        refine ih (Option.some.inj hstage ▸ h.mergeExtracted (fun _ => rfl) ?_) hrest hp
        exact fun name actual hl hm => .inr ⟨rfl, hm, .inr ⟨rfl, extracted, hx, hl⟩⟩
      | none =>
        rw [hx] at hstage
        exact ih (Option.some.inj hstage ▸ h.setParserError (fun _ => rfl) _ _) hrest hp
    | field filter =>
      rw [runStage] at hstage
      split at hstage
      case isTrue hm =>
        rcases List.mem_append.1 hp with hp | hp
        · exact fieldPredicate_holds h hm (Option.mem_toList.1 hp)
        · exact ih (Option.some.inj hstage ▸ h) hrest hp
      case isFalse => cases hstage

/-- An accepted entry satisfies every predicate the storage is asked about. -/
theorem exactFieldPredicates_hold {query : LogQuery} {entry out : LogEntry}
    (h : query.processEntry parseJson none entry = some out) {p : ExactFieldPredicate}
    (hp : p ∈ query.exactFieldPredicates) :
    p.HoldsOn parseJson entry.structuredMetadata entry.line := by
  rw [LogQuery.processEntry] at h
  split at h
  case isFalse => cases h
  case isTrue hmatchers =>
    obtain ⟨last, hrun, -⟩ := Option.map_eq_some_iff.1 h
    rcases List.mem_append.1 hp with hp | hp
    · obtain ⟨m, hmem, hm⟩ := List.mem_filterMap.1 hp
      have haccept := List.all_eq_true.1 hmatchers m hmem
      rw [matcherPredicate] at hm
      split at hm
      case isFalse => cases hm
      case isTrue hc =>
        obtain rfl := Option.some.inj hm
        intro hne
        rw [LabelMatcher.matches, hc.1, lookup_initialFields] at haccept
        refine ⟨m.value, .inl ?_, by simp⟩
        cases hl : entry.structuredMetadata.lookup m.name with
        | none => rw [hl] at haccept; exact absurd (by simpa using haccept) (Ne.symm hc.2)
        | some value => rw [hl] at haccept; exact congrArg some (by simpa using haccept)
    · exact stagePredicates_hold origin_initialFields hrun hp

end Logql

end Obsy
