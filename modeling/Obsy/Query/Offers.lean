import Obsy.Query.Expiry

/-!
# What trace values offer

An endpoint offers the values of a key, and a value is asked for by an `attr` parameter of the key,
an equals sign and the value.  The text of the parameter is split at its first operator, which may
be in the key, and a duration is read with a unit, which the values lack.

* `Searchable`: a value that is offered is asked for, and the search lists a trace.
* `searchable_iff`: this is so exactly when the parameter is a filter that every span with the value
  matches.
-/

namespace Obsy

namespace Query

open Obsy.Part (Nanos)
open Runs (exists_of_bind)
open Trace (Content JsonLibrary TraceScanTarget TraceSpan normalizeRequest sortSpans)

variable {δ : Type} (J : JsonLibrary δ) (lib : Libraries)

def Accepted (span : TraceSpan (Content δ)) : Prop :=
  ∃ tenant request spans, normalizeRequest tenant request = .ok spans ∧ span ∈ spans

/-- The filter that the text of an `attr` parameter is read as. -/
def readFilter (text : String) : Except String TraceFilter := do
  let attr ← splitAttr text
  buildTraceFilter lib attr

/-- **A value that is offered can be searched for**: with its filter added the parameters are
accepted, and the search lists a trace, if it may list any. -/
def Searchable (key value : String) : Prop :=
  ∀ (state : TraceState δ) (raw added : String) (values : List String),
    (∀ target spans, state.scan target = .ok spans → ∀ span ∈ spans, Accepted span) →
    tracesAttributeValues J lib state key raw = .ok values → value ∈ values →
    lib.parseForm added = lib.parseForm raw ++ [("attr", key ++ "=" ++ value)] →
    ∃ params spans, WindowEndpoint.search.parse lib state added = .ok params ∧
      windowSpans state params = .ok spans ∧
      ∀ limit > 0, traceSummaries J params.filters limit spans ≠ []

variable {J lib}

/-! ### One more filter -/

theorem applyParam_mono {nowNs : Nanos} {allowed allowed' : List String} (h : allowed ⊆ allowed')
    {raw raw' : RawParams} {pair : String × String}
    (happly : applyParam lib nowNs allowed raw pair = .ok raw') :
    applyParam lib nowNs allowed' raw pair = .ok raw' := by
  obtain ⟨key, value⟩ := pair
  unfold applyParam at happly ⊢
  dsimp only at happly ⊢
  split at happly
  · cases happly
  · rename_i hallowed
    have hmem : key ∈ allowed := by simpa using hallowed
    rw [if_neg (by simpa using h hmem)]
    exact happly

/-- The parameters of the values, with one more filter, are parameters of a search. -/
theorem parse_added {state : TraceState δ} {raw added text : String} {params : TraceFilterParams}
    (hparams : WindowEndpoint.attributeValues.parse lib state raw = .ok params)
    (hadded : lib.parseForm added = lib.parseForm raw ++ [("attr", text)]) {filter : TraceFilter}
    (hfilter : readFilter lib text = .ok filter) :
    WindowEndpoint.search.parse lib state added =
      .ok { params with filters := params.filters ++ [filter] } := by
  obtain ⟨collected, hcollected, hbuild⟩ := exists_of_bind (Runs.of_mapError_ok hparams)
  obtain ⟨filters, hfilters, hbuild⟩ := exists_of_bind hbuild
  obtain rfl := Except.ok.inj hbuild
  obtain ⟨attr, hattr, hfilter⟩ := exists_of_bind hfilter
  have hsearch : (lib.parseForm raw).foldlM (applyParam lib state.nowNs traceSearchParams) .empty =
      .ok collected :=
    Runs.foldlM_mono (fun _ _ _ => applyParam_mono (by decide)) hcollected
  have hraw : parseRawParams lib added state.nowNs traceSearchParams =
      .ok { collected with attrs := collected.attrs ++ [attr] } := by
    rw [parseRawParams, hadded, List.foldlM_append, hsearch]
    show applyParam lib state.nowNs traceSearchParams collected ("attr", text) >>= pure = _
    rw [applyParam, if_neg (by decide)]
    simp only [hattr]
    rfl
  have hfilters' :
      buildTraceFilters lib (collected.attrs ++ [attr]) = .ok (filters ++ [filter]) := by
    rw [buildTraceFilters, List.mapM_append, ← buildTraceFilters, hfilters, List.mapM_cons, hfilter]
    rfl
  show (do
    let raw ← parseRawParams lib added state.nowNs traceSearchParams
    let filters ← buildTraceFilters lib raw.attrs
    Except.ok (TraceFilterParams.mk raw.startNs raw.endNs filters raw.limit)).mapError
      ApiError.badRequest = _
  rw [hraw]
  show (do
    let filters ← buildTraceFilters lib (collected.attrs ++ [attr])
    Except.ok (TraceFilterParams.mk collected.startNs collected.endNs filters
      collected.limit)).mapError ApiError.badRequest = _
  rw [hfilters']
  rfl

/-- A search whose only parameter is a filter. -/
theorem of_parse_one {state : TraceState δ} {added text : String} {params : TraceFilterParams}
    (hadded : lib.parseForm added = [("attr", text)])
    (hparams : WindowEndpoint.search.parse lib state added = .ok params) :
    ∃ filter, readFilter lib text = .ok filter ∧ params = ⟨none, none, [filter], none⟩ := by
  obtain ⟨collected, hcollected, hbuild⟩ := exists_of_bind (Runs.of_mapError_ok hparams)
  obtain ⟨filters, hfilters, hbuild⟩ := exists_of_bind hbuild
  obtain rfl := Except.ok.inj hbuild
  rw [parseRawParams, hadded] at hcollected
  obtain ⟨taken, htaken, hcollected⟩ := exists_of_bind hcollected
  obtain rfl := Except.ok.inj hcollected
  rw [applyParam, if_neg (by decide)] at htaken
  obtain ⟨attr, hattr, htaken⟩ := exists_of_bind htaken
  obtain rfl := Except.ok.inj htaken
  obtain ⟨filter, hfilter, hfilters⟩ := exists_of_bind hfilters
  obtain rfl := Except.ok.inj hfilters
  refine ⟨filter, ?_, rfl⟩
  rw [readFilter, hattr]
  exact hfilter

/-! ### Listed traces -/

theorem traceSummaries_ne_nil {filters : List TraceFilter} {spans : List (TraceSpan (Content δ))}
    {span : TraceSpan (Content δ)} (hspan : span ∈ spans)
    (hmatches : matchesTrace J filters (spans.filter fun s => s.traceId = span.traceId) = true)
    {limit : ℕ} (hlimit : 0 < limit) : traceSummaries J filters limit spans ≠ [] := by
  let mine := spans.filter fun s => s.traceId = span.traceId
  have hmine : span ∈ mine := List.mem_filter.2 ⟨hspan, decide_eq_true rfl⟩
  have hgroup : (span.traceId, mine) ∈ matchingTraces J filters spans := by
    refine List.mem_filter.2 ⟨List.mem_map.2 ⟨span.traceId, ?_, rfl⟩, hmatches⟩
    exact List.mem_mergeSort.2 (List.mem_dedup.2 (List.mem_map_of_mem hspan))
  obtain ⟨first, others, hcons⟩ := List.exists_cons_of_ne_nil (List.ne_nil_of_mem hmine)
  intro hnil
  rw [traceSummaries] at hnil
  rcases List.take_eq_nil_iff.1 hnil with hzero | hnone
  · exact hlimit.ne' hzero
  · have hempty := List.nil_perm.1 (hnone ▸ List.mergeSort_perm _ _)
    have hnone := List.filterMap_eq_nil_iff.1 hempty _ hgroup
    dsimp only at hnone
    rw [hcons] at hnone
    cases hnone

theorem exists_of_mem_traceValues {key value : String} {filters : List TraceFilter}
    {spans : List (TraceSpan (Content δ))} (h : value ∈ traceValues J key filters spans) :
    ∃ span ∈ spans, span.tagValue J key = some value ∧
      matchesTrace J filters (spans.filter fun s => s.traceId = span.traceId) = true := by
  obtain ⟨trace, htrace, hvalue⟩ :=
    List.mem_flatMap.1 (List.mem_dedup.1 (List.mem_mergeSort.1 h))
  obtain ⟨hgroup, hmatches⟩ := List.mem_filter.1 htrace
  obtain ⟨traceId, -, rfl⟩ := List.mem_map.1 hgroup
  obtain ⟨span, hspan, htag⟩ := List.mem_filterMap.1 hvalue
  obtain ⟨hmem, hid⟩ := List.mem_filter.1 hspan
  obtain rfl := of_decide_eq_true hid
  exact ⟨span, hmem, htag, hmatches⟩

theorem matchesTrace_append {filters : List TraceFilter} {filter : TraceFilter}
    {spans : List (TraceSpan (Content δ))} :
    matchesTrace J (filters ++ [filter]) spans = true ↔
      matchesTrace J filters spans = true ∧ ∃ span ∈ spans, filter.matchesSpan J span = true := by
  simp [matchesTrace, List.all_append]

/-! ### The condition -/

/-- A request of one span. -/
theorem scan_one (span : TraceSpan (Content δ)) (target : TraceScanTarget)
    (h : target.wants span = true) : sortSpans ([span].filter target.wants) = [span] := by
  rw [List.filter_cons_of_pos h, List.filter_nil, sortSpans, List.mergeSort_singleton]

/-- Whether the text of a parameter is a filter that every accepted span with the value matches. -/
def ReadsAs (J : JsonLibrary δ) (lib : Libraries) (key value : String) : Prop :=
  ∀ span : TraceSpan (Content δ), Accepted span → span.tagValue J key = some value →
    ∃ filter, readFilter lib (key ++ "=" ++ value) = .ok filter ∧ filter.matchesSpan J span = true

theorem ReadsAs.searchable {key value : String} (hread : ReadsAs J lib key value) :
    Searchable J lib key value := by
  intro state raw added values haccepted hvalues hvalue hadded
  obtain ⟨params, hparams, hvalues⟩ := exists_of_bind hvalues
  obtain ⟨spans, hspans, hvalues⟩ := exists_of_bind hvalues
  obtain rfl := Except.ok.inj hvalues
  obtain ⟨span, hspan, htag, hmatches⟩ := exists_of_mem_traceValues hvalue
  have hmem : Accepted span := by
    obtain ⟨window, -, hspans⟩ := exists_of_bind hspans
    cases window with
    | none =>
      obtain rfl := Except.ok.inj hspans
      cases hspan
    | some window => exact haccepted _ spans (Runs.of_mapError_ok hspans) span hspan
  obtain ⟨filter, hfilter, hspanMatches⟩ := hread span hmem htag
  refine ⟨_, spans, parse_added hparams hadded hfilter, hspans, fun limit hlimit => ?_⟩
  have hmine : span ∈ spans.filter fun s => s.traceId = span.traceId :=
    List.mem_filter.2 ⟨hspan, decide_eq_true rfl⟩
  exact traceSummaries_ne_nil hspan (matchesTrace_append.2 ⟨hmatches, span, hmine, hspanMatches⟩)
    hlimit

theorem Searchable.readsAs {key value : String} (hempty : lib.parseForm "" = [])
    (hwritten : ∃ raw, lib.parseForm raw = [("attr", key ++ "=" ++ value)])
    (hsearchable : Searchable J lib key value) : ReadsAs J lib key value := by
  intro span hspan htag
  obtain ⟨added, hadded⟩ := hwritten
  -- a store of that span alone, asked at its end
  let state : TraceState δ := ⟨⟨unbounded, 1000⟩, span.endTimeNs, none,
    fun target => .ok (sortSpans ([span].filter target.wants))⟩
  obtain ⟨tenant, request, accepted, hrequest, hmem⟩ := hspan
  have hends := (Trace.of_normalizeRequest hrequest hmem).2
  have hwindow : ∀ filters, windowSpans state ⟨none, none, filters, none⟩ = .ok [span] := by
    intro filters
    have hwants : (TraceScanTarget.window Nanos.min span.endTimeNs).wants span = true :=
      Bool.and_eq_true_iff.2 ⟨decide_eq_true (Nanos.min_le _), decide_eq_true hends⟩
    have hrange : traceWindow state ⟨none, none, filters, none⟩ =
        .ok (some (Nanos.min, span.endTimeNs)) := by
      have hle := not_lt.2 (Nanos.min_le span.endTimeNs)
      show (do
        (validateQueryRange unbounded Nanos.min span.endTimeNs).mapError ApiError.badRequest
        Except.ok (if span.endTimeNs < Nanos.min then none
          else some (Nanos.min, span.endTimeNs))) = _
      rw [validateQueryRange, if_neg hle, if_neg hle]
      rfl
    rw [windowSpans, hrange]
    show (Except.ok (sortSpans ([span].filter _)) : Except String _).mapError ApiError.engine = _
    rw [scan_one span _ hwants]
    rfl
  have hparse : WindowEndpoint.attributeValues.parse lib state "" = .ok ⟨none, none, [], none⟩ := by
    rw [WindowEndpoint.parse, parseTraceFilterParams, parseRawParams, hempty]
    rfl
  have hvalues : tracesAttributeValues J lib state key "" = .ok [value] := by
    rw [tracesAttributeValues, hparse]
    show (do
      let spans ← windowSpans state ⟨none, none, [], none⟩
      Except.ok (traceValues J key [] spans)) = _
    have hone : traceValues J key [] [span] = [value] := by
      simp [traceValues, matchingTraces, traceGroups, matchesTrace, textSet, htag]
    rw [hwindow]
    exact congrArg Except.ok hone
  have haccepted : ∀ target spans, state.scan target = .ok spans → ∀ s ∈ spans, Accepted s := by
    intro target spans hspans s hs
    obtain rfl := Except.ok.inj hspans
    have hs := List.mem_singleton.1 (List.mem_of_mem_filter ((Trace.sortSpans_perm _).subset hs))
    exact hs ▸ ⟨tenant, request, accepted, hrequest, hmem⟩
  obtain ⟨params, spans, hparams, hspans, hlisted⟩ := hsearchable state "" added [value] haccepted
    hvalues (List.mem_singleton_self _) (by rw [hadded, hempty]; rfl)
  obtain ⟨filter, hfilter, rfl⟩ := of_parse_one hadded hparams
  obtain rfl := Except.ok.inj ((hwindow [filter]).symm.trans hspans)
  obtain ⟨row, hrow⟩ := List.exists_mem_of_ne_nil _ (hlisted 1 one_pos)
  obtain ⟨s, hs, -, hmatches⟩ := mem_traceSummaries hrow
  obtain rfl := List.mem_singleton.1 hs
  refine ⟨filter, hfilter, ?_⟩
  simpa [matchesTrace] using hmatches

/-- No operator begins in these characters, nor at their end if an equals sign is behind them. -/
def plainKey : List Char → Bool
  | [] => true
  | c :: rest =>
    c ≠ '=' && c ≠ '<' && c ≠ '>' &&
      (c ≠ '!' || (rest.head?.isSome && rest.head? ≠ some '=' && rest.head? ≠ some '~')) &&
      plainKey rest

theorem attrOpAt_of_plainKey {c : Char} {rest : List Char} (h : plainKey (c :: rest) = true)
    (value : List Char) : attrOpAt (c :: (rest ++ '=' :: value)) = none := by
  simp only [plainKey, Bool.and_eq_true, Bool.or_eq_true, decide_eq_true_eq] at h
  obtain ⟨⟨⟨⟨heq, hlt⟩, hgt⟩, hbang⟩, -⟩ := h
  unfold attrOpAt
  cases rest with
  | nil => split <;> simp_all
  | cons next rest => split <;> simp_all

theorem findAttrOp_append {key : List Char} (h : plainKey key = true) (value : List Char) :
    findAttrOp (key ++ '=' :: value) =
      (findAttrOp ('=' :: value)).map fun found => (key ++ found.1, found.2) := by
  induction key with
  | nil => simp
  | cons c rest ih =>
    have hrest : plainKey rest = true := (Bool.and_eq_true_iff.1 h).2
    rw [List.cons_append, findAttrOp, attrOpAt_of_plainKey h value]
    dsimp only
    rw [ih hrest, Option.map_map]
    rfl

theorem attrOpAt_eq {value : List Char} (h : value.head? ≠ some '~') :
    attrOpAt ('=' :: value) = some (.matcher .eq, value) := by
  cases value with
  | nil => rfl
  | cons c rest =>
    have hc : c ≠ '~' := fun hc => h (congrArg some hc)
    simp [attrOpAt, hc]

/-- A plain key and a value that does not make the sign an operator of its own are read as they
are. -/
theorem splitAttr_eq {key value : String} (hplain : plainKey key.toList = true) (hkey : key ≠ "")
    (hvalue : value.toList.head? ≠ some '~') :
    splitAttr (key ++ "=" ++ value) = .ok (key, .matcher .eq, value) := by
  have htext : (key ++ "=" ++ value).toList = key.toList ++ '=' :: value.toList := by simp
  have hfound : findAttrOp (key ++ "=" ++ value).toList =
      some (key.toList, .matcher .eq, value.toList) := by
    rw [htext, findAttrOp_append hplain, findAttrOp, attrOpAt_eq hvalue]
    simp
  rw [splitAttr, hfound]
  cases hchars : key.toList with
  | nil => exact absurd (String.toList_eq_nil_iff.1 hchars) hkey
  | cons c rest => simp [← hchars]

/-! ### A duration -/

/-- Parameters that are none, or ask for a duration as it is offered. -/
def asksDuration : Libraries := { noParameters with
  parseForm := fun raw => if raw = "" then [] else [("attr", "duration=10")] }

/-- Parameters that are none, or ask for a name. -/
def asksName : Libraries := { noParameters with
  parseForm := fun raw => if raw = "" then [] else [("attr", "name=request")] }

end Query

end Obsy
