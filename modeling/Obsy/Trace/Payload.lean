import Obsy.Trace.Otlp
import Obsy.Trace.Scan

/-!
# Spans read back

A part has a span as a text of the JSON library, which writes a double that is no number as null,
and does not read null as a double.  Such a span is flushed, and is in a part that fails the reads
that reach it.

* `Content.finite`: every double of a span is a number, at whatever depth.
* `ReadsBack`: scans find what was accepted, and compactions read their inputs.
* `reads_back_iff`: this is so exactly when every span that has left the memtable is finite.
-/

namespace Obsy

namespace Trace

open Obsy.Part (Nanos)
open Runs (exists_of_bind mapM_ok)

/-! ### Doubles -/

section

variable {δ : Type} (isFinite : δ → Bool)

mutual

/-- Whether every double of a value is a number. -/
def AnyValue.finite : AnyValue δ → Bool
  | .double value => isFinite value
  | .array values => finiteValues values
  | .kvlist values => finiteAttributes values
  | .absent | .string _ | .bool _ | .int _ | .bytes _ => true

def finiteValues : List (AnyValue δ) → Bool
  | [] => true
  | value :: values => value.finite && finiteValues values

def finiteOption : Option (AnyValue δ) → Bool
  | none => true
  | some value => value.finite

def finiteAttribute : KeyValue δ → Bool
  | (_, value) => finiteOption value

def finiteAttributes : List (KeyValue δ) → Bool
  | [] => true
  | pair :: pairs => finiteAttribute pair && finiteAttributes pairs

end

/-- Whether every double of a span is a number: of its attributes, its events, its links, its
resource and its scope. -/
def Content.finite (content : Content δ) : Bool :=
  finiteAttributes isFinite content.span.attributes &&
    content.span.events.all (finiteAttributes isFinite ·.attributes) &&
    content.span.links.all (finiteAttributes isFinite ·.attributes) &&
    content.resource.all (finiteAttributes isFinite ·.attributes) &&
    content.scope.all (finiteAttributes isFinite ·.attributes)

/-- What the JSON library does with spans: null stands for a double that is no number, and is
refused where a double belongs; everything else is read back. -/
structure Codec.WritesNull (P : Codec (Content δ)) (spans : List (TraceSpan (Content δ))) :
    Prop where
  reads : ∀ span ∈ spans, span.span.finite isFinite = true → P.Reads span
  refuses : ∀ span ∈ spans, span.span.finite isFinite = false →
    ∃ error, P.decode (P.encode span) = .error error

variable {isFinite} {P : Codec (Content δ)} {spans : List (TraceSpan (Content δ))}

theorem Codec.WritesNull.reads_iff (h : P.WritesNull isFinite spans) {span : TraceSpan (Content δ)}
    (hspan : span ∈ spans) : P.Reads span ↔ span.span.finite isFinite = true := by
  refine ⟨fun hread => ?_, h.reads span hspan⟩
  by_contra hinfinite
  obtain ⟨error, herror⟩ := h.refuses span hspan (Bool.eq_false_iff.2 hinfinite)
  rw [Codec.Reads, herror] at hread
  cases hread

theorem Codec.WritesNull.faithful (h : P.WritesNull isFinite spans) :
    ∀ span ∈ spans, P.Faithful span := by
  intro span hspan
  cases hfinite : span.span.finite isFinite with
  | true => exact (h.reads span hspan hfinite).faithful
  | false =>
    obtain ⟨error, herror⟩ := h.refuses span hspan hfinite
    intro other hother
    rw [herror] at hother
    cases hother

end

/-! ### Reading back -/

variable {π : Type}

/-- The rows of the files of some parts. -/
def rowsOf (inputs : List TracePartReader) : List SpanRow :=
  inputs.flatMap fun reader => (reader.part.data.getD []).flatten

/-- **What was accepted reads back**: by id and by window, in any order of the registry, and in a
compaction of parts whose files are there, row by row. -/
structure ReadsBack (P : Codec π) (store : TraceStore π) (accepted : List (TraceSpan π)) :
    Prop where
  scan : ∀ registry : TraceRegistry, registry.Perm store.registry → ∀ tenant target,
    ∃ pinned answer, registry.pin store.objects tenant target = .ok pinned ∧
      scanTraceSpans P store.memtable pinned tenant target none = .ok answer ∧
      answer.Perm (accepted.filter fun span => span.tenant = tenant && target.wants span)
  compaction : ∀ (ids : List String) inputs, ids.Nodup → ids.mapM store.registry.get = some inputs →
    (∀ reader ∈ inputs, reader.part.data.isSome) →
    ∃ spans, readAllSpans P inputs = .ok spans ∧ (spans.map (spanRow P)).Perm (rowsOf inputs) ∧
      spans.Subperm accepted

variable {P : Codec π} {store : TraceStore π} {registry : TraceRegistry}
  {objects : String → Option (List (List SpanRow))} {groupsOf : String → List (List (TraceSpan π))}

/-! ### What a scan has read -/

theorem exists_of_gather {query : TracePartReader → Option ℕ → Except String (List (TraceSpan π))}
    {readers : List TracePartReader} {answer : List (TraceSpan π)}
    (hok : TraceRegistry.gather query readers none = .ok answer) :
    ∀ reader ∈ readers, ∃ spans, query reader none = .ok spans := by
  obtain ⟨gathered, hgathered, -⟩ := exists_of_bind hok
  clear hok
  generalize ([] : List (TraceSpan π)) = before at hgathered
  induction readers generalizing before with
  | nil => exact fun _ hreader => (by cases hreader)
  | cons first readers ih =>
    obtain ⟨next, hnext, hrest⟩ := exists_of_bind hgathered
    obtain ⟨more, hmore, -⟩ := exists_of_bind hnext
    intro reader hreader
    rcases List.mem_cons.1 hreader with rfl | hreader
    · exact ⟨more, hmore⟩
    · exact ih _ hrest reader hreader

/-- A lookup by id that succeeds has read the text of every span of the trace. -/
theorem Ready.reads_of_queryTraceId {tenant traceId : String} {answer : List (TraceSpan π)}
    (h : Ready P registry groupsOf tenant (.byId traceId))
    (hfaithful : ∀ span ∈ shelf registry groupsOf, P.Faithful span)
    (hok : registry.queryTraceId P tenant traceId none = .ok answer) {span : TraceSpan π}
    (hspan : span ∈ shelf registry groupsOf) (htenant : span.tenant = tenant)
    (hid : span.traceId = traceId) : P.Reads span := by
  subst htenant hid
  obtain ⟨entry, he, hmem⟩ := List.mem_flatMap.1 hspan
  obtain ⟨group, hgroup, hmem⟩ := List.mem_flatten.1 hmem
  obtain ⟨g, hg⟩ := List.mem_iff_getElem?.1 hgroup
  have hopened := h.opened entry he
  -- its row group is read, since the filter has its id
  have hread : g ∈ entry.2.traceRowGroups span.tenant span.traceId :=
    hopened.mem_traceRowGroups hg hmem
  obtain ⟨spans, hspans⟩ := exists_of_gather hok entry.2
    (List.mem_mergeSort.2 (List.mem_map_of_mem he))
  rw [entry.2.queryTraceId_skip] at hspans
  have hchosen := hopened.layout.chosen_filter span.tenant (entry.2.bloomContains span.traceId)
  have hmine : ∀ span ∈ (groupsOf entry.1).flatten, P.Faithful span := fun span hs =>
    hfaithful span (List.mem_flatMap.2 ⟨entry, he, hs⟩)
  have hdata := h.data entry he (List.ne_nil_of_mem hread)
  refine (hopened.layout.querySelected_of_ok hchosen hmine (.inr hdata) hspans).2 span ?_
  refine List.mem_filter.2 ⟨List.mem_flatMap.2 ⟨g, hread, ?_⟩, by simp⟩
  rwa [List.getD_eq_getElem?_getD, hg]

theorem queryTraceId_of_scan {memtable : TraceMemTable π} {tenant traceId : String}
    {answer : List (TraceSpan π)}
    (hok : scanTraceSpans P memtable registry tenant (.byId traceId) none = .ok answer) :
    ∃ spans, registry.queryTraceId P tenant traceId none = .ok spans := by
  obtain ⟨found, -, hok⟩ := exists_of_bind hok
  obtain ⟨spans, hspans, -⟩ := exists_of_bind hok
  exact ⟨spans, hspans⟩

/-! ### What a compaction reads -/

theorem Layout.queryAll_ok {reader : TracePartReader} {groups : List (List (TraceSpan π))}
    (h : Layout P reader.part groups) (hreads : ∀ span ∈ groups.flatten, P.Reads span)
    (hdata : reader.part.data = some (fileOf P groups)) (tenant : String) :
    ∃ spans, reader.queryAllLimited P tenant none = .ok spans :=
  ⟨_, h.querySelected_spec (h.chosen_all tenant) hreads none fun _ => hdata⟩

theorem Shelved.forall₂_inputs (h : Shelved P registry objects groupsOf) {ids : List String}
    {inputs : List TracePartReader} (hinputs : ids.mapM registry.get = some inputs)
    (hdata : ∀ reader ∈ inputs, reader.part.data.isSome) :
    List.Forall₂ (fun id reader => (id, reader) ∈ registry ∧
      reader.part.data = some (fileOf P (groupsOf id))) ids inputs := by
  have hget := Runs.forall₂_of_mapM_some hinputs
  clear hinputs
  induction hget with
  | nil => exact .nil
  | cons hfirst _ ih =>
    have hmem := mem_of_lookup hfirst
    refine .cons ⟨hmem, (h.held _ hmem).data.resolve_left fun hnone => ?_⟩
      (ih fun reader hr => hdata reader (List.mem_cons_of_mem _ hr))
    have hsome := hdata _ List.mem_cons_self
    rw [hnone] at hsome
    cases hsome

/-- **A compaction** of parts whose texts are read reads all of their rows. -/
theorem Shelved.readAllSpans_ok (h : Shelved P registry objects groupsOf)
    (hreads : ∀ span ∈ shelf registry groupsOf, P.Reads span) {ids : List String}
    {inputs : List TracePartReader} (hinputs : ids.mapM registry.get = some inputs)
    (hdata : ∀ reader ∈ inputs, reader.part.data.isSome) :
    ∃ spans, readAllSpans P inputs = .ok spans ∧ (spans.map (spanRow P)).Perm (rowsOf inputs) := by
  have hall := h.forall₂_inputs hinputs hdata
  have hinput : ∀ reader ∈ inputs, ∃ spans, (do
      let spans ← reader.part.info.tenants.mapM fun segment =>
        reader.queryAllLimited P segment.tenant none
      Except.ok spans.flatten) = Except.ok spans := by
    intro reader hreader
    obtain ⟨id, -, hmem, hfile⟩ := Runs.exists_left hall hreader
    obtain ⟨spans, hspans⟩ := mapM_ok fun (segment : TraceTenantSegment) _ =>
      (h.held _ hmem).opened.layout.queryAll_ok (fun span hs =>
        hreads span (List.mem_flatMap.2 ⟨_, hmem, hs⟩)) hfile segment.tenant
    exact ⟨spans.flatten, by rw [hspans]; rfl⟩
  obtain ⟨spans, hspans⟩ := mapM_ok hinput
  have hok : readAllSpans P inputs = .ok spans.flatten := by
    rw [readAllSpans, hspans]
    rfl
  have hrows : rowsOf inputs = (ids.flatMap fun id => (groupsOf id).flatten).map (spanRow P) := by
    clear hinput hspans hok hinputs hdata
    induction hall with
    | nil => rfl
    | cons hfirst _ ih =>
      rw [rowsOf, List.flatMap_cons, ← rowsOf, ih, hfirst.2, List.flatMap_cons, List.map_append,
        fileOf, Option.getD_some, List.map_flatten]
  refine ⟨_, hok, ?_⟩
  rw [hrows]
  exact (h.readAllSpans_perm (fun span hs => (hreads span hs).faithful) hinputs hok).map _

/-! ### A run -/

section

variable {δ : Type} {isFinite : δ → Bool} {P : Codec (Content δ)} {store : TraceStore (Content δ)}

section

variable {events : List (StoreEvent (Content δ))} {flushed : List (TraceSpan (Content δ))}
  (hrun : (traceMachine P).run TraceStore.empty events = some store)
  (hnull : P.WritesNull isFinite (events.flatMap StoreEvent.accepted))
  (hflushed : (store.memtable.spans ++ flushed).Perm (events.flatMap StoreEvent.accepted))

include hrun hnull hflushed

/-- A span that has left the memtable fails the lookups of its trace if it is not finite. -/
theorem ReadsBack.finite (h : ReadsBack P store (events.flatMap StoreEvent.accepted)) :
    ∀ span ∈ flushed, span.span.finite isFinite = true := by
  intro span hspan
  obtain ⟨pinned, answer, hpin, hanswer, -⟩ :=
    h.scan store.registry (.refl _) span.tenant (.byId span.traceId)
  obtain ⟨pinned', groupsOf, hpin', hready, hperm, -⟩ :=
    exists_ready_of_run hrun hnull.faithful (.refl _) span.tenant (.byId span.traceId)
  obtain rfl := Except.ok.inj (hpin.symm.trans hpin')
  have hshelf : (shelf pinned groupsOf).Perm flushed :=
    (List.perm_append_left_iff _).1 (hperm.trans hflushed.symm)
  have hfaithful : ∀ other ∈ shelf pinned groupsOf, P.Faithful other := fun other ho =>
    hnull.faithful other (hperm.subset (List.mem_append_right _ ho))
  obtain ⟨spans, hspans⟩ := queryTraceId_of_scan hanswer
  have hread : P.Reads span :=
    hready.reads_of_queryTraceId hfaithful hspans (hshelf.symm.subset hspan) rfl rfl
  exact (hnull.reads_iff (hflushed.subset (List.mem_append_right _ hspan))).1 hread

/-- Finite spans read back, from the parts as from the memtable. -/
theorem readsBack_of_finite (hfinite : ∀ span ∈ flushed, span.span.finite isFinite = true) :
    ReadsBack P store (events.flatMap StoreEvent.accepted) := by
  have hreads : ∀ span ∈ flushed, P.Reads span := fun span hs =>
    hnull.reads span (hflushed.subset (List.mem_append_right _ hs)) (hfinite span hs)
  constructor
  · intro registry horder tenant target
    obtain ⟨pinned, groupsOf, hpin, hready, hperm, -⟩ :=
      exists_ready_of_run hrun hnull.faithful horder tenant target
    have hshelf : (shelf pinned groupsOf).Perm flushed :=
      (List.perm_append_left_iff _).1 (hperm.trans hflushed.symm)
    obtain ⟨answer, hanswer, hfound, -⟩ := hready.scanTraceSpans_spec
      (fun span hs => hreads span (hshelf.subset hs)) store.memtable
    exact ⟨pinned, answer, hpin, hanswer, hfound.trans (hperm.filter _)⟩
  · intro ids inputs hnodup hinputs hdata
    obtain ⟨groupsOf, hshelved, hperm⟩ := keeps_run keeps_empty hnull.faithful hrun
    have hshelf : (shelf store.registry groupsOf).Perm flushed :=
      (List.perm_append_left_iff _).1 (hperm.trans hflushed.symm)
    have hread : ∀ span ∈ shelf store.registry groupsOf, P.Reads span := fun span hs =>
      hreads span (hshelf.subset hs)
    obtain ⟨spans, hspans, hrows⟩ := hshelved.readAllSpans_ok hread hinputs hdata
    -- what is read is what the shelf has under the ids
    have htaken := (hshelved.readAllSpans_perm (fun span hs => (hread span hs).faithful) hinputs
      hspans).trans (hshelved.shelf_filter_perm hnodup hinputs).symm
    have hshelved' : spans.Subperm (shelf store.registry groupsOf) :=
      htaken.subperm.trans ((List.sublist_append_left _ _).subperm.trans
        (shelf_split_perm store.registry groupsOf ids).subperm)
    exact ⟨spans, hspans, hrows, hshelved'.trans (hshelf.subperm.trans
      ((List.sublist_append_right _ _).subperm.trans hflushed.subperm))⟩

end

end

/-! ### A double that is no number -/

def sentDouble (finite : Bool) : Span Bool where
  traceId := List.replicate 16 1
  spanId := List.replicate 8 1
  traceState := ""
  parentSpanId := []
  flags := 0
  name := "request"
  kind := 2
  startTimeUnixNano := 0
  endTimeUnixNano := 0
  attributes := [("ratio", some (.array [.double finite]))]
  droppedAttributesCount := 0
  events := []
  droppedEventsCount := 0
  links := []
  droppedLinksCount := 0
  status := none

def storedDouble (finite : Bool) : TraceSpan (Content Bool) :=
  ⟨"acme", "01010101010101010101010101010101", "0101010101010101", .zero, .zero,
    ⟨sentDouble finite, none, "", none, ""⟩⟩

theorem eight_pos (_ : ℕ) : 0 < ((8, 1) : ℕ × ℕ).1 := Nat.succ_pos 7

/-- The texts of the two spans. -/
def doubleCodec : Codec (Content Bool) where
  encode span := if span.span.finite id then "1.5" else "null"
  decode
    | "null" => .error "invalid type: null, expected f64"
    | _ => .ok (storedDouble true)
  sizing _ := (8, 1)
  sizing_pos := eight_pos
  compactDay day := toString day

theorem normalizeRequest_double (finite : Bool) :
    normalizeRequest "acme" [⟨none, [⟨none, [sentDouble finite], ""⟩], ""⟩] =
      .ok [storedDouble finite] := rfl

theorem writesNull_double (finite : Bool) : doubleCodec.WritesNull id [storedDouble finite] := by
  refine ⟨fun span hspan hfinite => ?_, fun span hspan hinfinite => ?_⟩
  all_goals obtain rfl := List.mem_singleton.1 hspan
  all_goals cases finite
  · cases hfinite
  · rfl
  · exact ⟨_, rfl⟩
  · cases hinfinite

/-- What happens: the span is accepted, and flushed. -/
def flushDouble (finite : Bool) : List (StoreEvent (Content Bool)) :=
  [.insert [storedDouble finite], .beginFlush, .commitFlush 1 fun _ => "uuid"]

theorem run_double (finite : Bool) : ∃ store,
    (traceMachine doubleCodec).run TraceStore.empty (flushDouble finite) = some store ∧
      store.memtable.spans = [] := by
  let buffered : TraceStore (Content Bool) := ⟨⟨[], [storedDouble finite]⟩, [], fun _ => none⟩
  obtain ⟨store, hflush⟩ := buffered.flush_ok (P := doubleCodec) one_pos (fun _ => "uuid")
    (show 1 < 2 ^ 32 by decide) (fun _ _ => by show 8 < 2 ^ 32; decide)
  have hnew : NewIds buffered (newIds doubleCodec (fun _ => "uuid") [storedDouble finite]) := by
    have hday : daysOf [storedDouble finite] = [0] := by
      simp [daysOf, storedDouble, Part.partitionOf, Nanos.zero]
    rw [newIds, hday]
    exact ⟨List.nodup_singleton _, fun _ _ => ⟨rfl, rfl⟩⟩
  have hstep : (traceMachine doubleCodec).step buffered (.commitFlush 1 fun _ => "uuid") =
      some store := by
    simp only [traceMachine, hflush]
    exact if_pos hnew
  refine ⟨store, Machine.run_cons_eq_some.2 ⟨_, rfl, Machine.run_cons_eq_some.2 ⟨buffered, rfl,
    Machine.run_cons_eq_some.2 ⟨store, hstep, rfl⟩⟩⟩, ?_⟩
  obtain ⟨parts, -, hrest⟩ := exists_of_bind hflush
  obtain ⟨readers, -, hstore⟩ := exists_of_bind hrest
  obtain rfl := Except.ok.inj hstore
  rfl

theorem perm_flushed {store : TraceStore (Content Bool)} (hempty : store.memtable.spans = [])
    (finite : Bool) : (store.memtable.spans ++ [storedDouble finite]).Perm
      ((flushDouble finite).flatMap StoreEvent.accepted) := by
  rw [hempty]
  exact .refl _

end Trace

end Obsy
