import Obsy.Machine.Run
import Obsy.Trace.Layout

/-!
# Where spans live

Accepted spans are in the memtable until a flush writes them to parts, and the compactor rewrites
parts into one.  The object store has the Parquet file of every part, and the cache may drop the
local copy.

* `traceMachine`: inserts, flushes, compactions and evictions, in any order.
* `TraceStore.Keeps`: the memtable and the parts hold what was accepted, each span as often.
* `keeps_run`: every run keeps it.
-/

namespace Obsy

namespace Trace

open Obsy.Part (Nanos partitionOf)
open Runs (exists_of_bind forall₂_of_mapM mapM_ok)

variable {π : Type}

/-! ### The memtable -/

/-- The live buffer, and the one that a flush has taken. -/
structure TraceMemTable (π : Type) where
  inner : List (TraceSpan π)
  flushing : Option (List (TraceSpan π))

namespace TraceMemTable

def insert (memtable : TraceMemTable π) (spans : List (TraceSpan π)) : TraceMemTable π :=
  { memtable with inner := memtable.inner ++ spans }

/-- A snapshot of all that is buffered, an earlier one included. -/
def beginFlush (memtable : TraceMemTable π) : TraceMemTable π :=
  ⟨[], memtable.inner ++ memtable.flushing.getD []⟩

def commitFlush (memtable : TraceMemTable π) : TraceMemTable π :=
  { memtable with flushing := none }

/-- The snapshot goes back. -/
def abortFlush (memtable : TraceMemTable π) (snapshot : List (TraceSpan π)) : TraceMemTable π :=
  ⟨memtable.inner ++ snapshot, none⟩

/-- What a read walks: the live buffer and then the snapshot. -/
def spans (memtable : TraceMemTable π) : List (TraceSpan π) :=
  memtable.inner ++ memtable.flushing.getD []

/-- Spans up to a cap; one more is an error. -/
def limited (limit : Option ℕ) (spans : List (TraceSpan π)) : Except String (List (TraceSpan π)) :=
  if limit.any (· < spans.length) then
    let most := limit.getD 0
    .error s!"trace query exceeds the maximum of {most} spans"
  else .ok spans

def queryTraceIdLimited (memtable : TraceMemTable π) (tenant traceId : String)
    (limit : Option ℕ) : Except String (List (TraceSpan π)) :=
  limited limit (memtable.spans.filter fun span => span.tenant = tenant && span.traceId = traceId)

def snapshotRangeLimited (memtable : TraceMemTable π) (tenant : String) (startNs endNs : Nanos)
    (limit : Option ℕ) : Except String (List (TraceSpan π)) :=
  limited limit (memtable.spans.filter fun span =>
    span.tenant = tenant && spanOverlaps span startNs endNs)

end TraceMemTable

/-! ### The registry -/

/-- The open parts by id.  The code keeps a hash map, so that the order says nothing. -/
abbrev TraceRegistry := List (String × TracePartReader)

namespace TraceRegistry

/-- A part takes the place of one with its id. -/
def register (registry : TraceRegistry) (id : String) (reader : TracePartReader) : TraceRegistry :=
  registry.filter (fun entry => entry.1 ≠ id) ++ [(id, reader)]

def unregister (registry : TraceRegistry) (ids : List String) : TraceRegistry :=
  registry.filter fun entry => entry.1 ∉ ids

def get (registry : TraceRegistry) (id : String) : Option TracePartReader := registry.lookup id

/-- `missing_data_ids`: the parts among some whose Parquet file is not there. -/
def missingDataIds (registry : TraceRegistry) (ids : List String) : List String :=
  (registry.filter fun entry => entry.1 ∈ ids && entry.2.part.data.isNone).map Prod.fst

end TraceRegistry

/-! ### The compactor -/

variable (P : Codec π)

/-- `read_all_spans`: every span of the inputs, tenant by tenant. -/
def readAllSpans (inputs : List TracePartReader) : Except String (List (TraceSpan π)) := do
  let spans ← inputs.mapM fun reader => do
    let spans ← reader.part.info.tenants.mapM fun segment =>
      reader.queryAllLimited P segment.tenant none
    .ok spans.flatten
  .ok spans.flatten

/-! ### The machine -/

/-- A running store: the object store has the files of the parts by id. -/
structure TraceStore (π : Type) where
  memtable : TraceMemTable π
  registry : TraceRegistry
  objects : String → Option (List (List SpanRow))

def TraceStore.empty : TraceStore π := ⟨⟨[], none⟩, [], fun _ => none⟩

/-- What happens to a store. -/
inductive StoreEvent (π : Type) where
  | insert (spans : List (TraceSpan π))
  | beginFlush
  | commitFlush (rowGroupSize : ℕ) (uuid : ℤ → String)
  | abortFlush
  /-- The compactor chose registered parts. -/
  | compact (inputs : List String) (rowGroupSize : ℕ) (uuid : String)
  /-- The cache drops a local file. -/
  | evict (id : String)

def TraceStore.publish (store : TraceStore π) (reader : TracePartReader) : TraceStore π :=
  { store with
    registry := store.registry.register reader.part.info.id reader
    objects := fun id => if id = reader.part.info.id then reader.part.data else store.objects id }

/-- Whether an id is of no part, registered or published.  Ids end with a UUID. -/
def TraceStore.IsFresh (store : TraceStore π) (id : String) : Prop :=
  store.registry.lookup id = none ∧ store.objects id = none

instance (store : TraceStore π) (id : String) : Decidable (store.IsFresh id) :=
  inferInstanceAs (Decidable (_ ∧ _))

/-- The ids of the parts of a flush. -/
def newIds (uuid : ℤ → String) (spans : List (TraceSpan π)) : List String :=
  (daysOf spans).map fun day => P.compactDay day ++ "-" ++ uuid day

/-- Ids that are new, each of them once. -/
def NewIds (store : TraceStore π) (ids : List String) : Prop :=
  ids.Nodup ∧ ∀ id ∈ ids, store.IsFresh id

instance (store : TraceStore π) (ids : List String) : Decidable (NewIds store ids) :=
  inferInstanceAs (Decidable (_ ∧ _))

/-- A flush of the snapshot: written, opened, published and registered, and then let go. -/
def TraceStore.flush (store : TraceStore π) (rowGroupSize : ℕ) (uuid : ℤ → String) :
    Except String (TraceStore π) := do
  let parts ← flushTraceSpansWithId P rowGroupSize uuid none (store.memtable.flushing.getD [])
  let readers ← parts.mapM (TracePartReader.openInternal true)
  .ok { readers.foldl TraceStore.publish store with memtable := store.memtable.commitFlush }

/-- A compaction: the inputs rewritten into one part of a given id, which takes their place. -/
def TraceStore.compactOnce (store : TraceStore π) (inputs : List TracePartReader)
    (inputIds : List String) (rowGroupSize : ℕ) (outputId : String) :
    Except String (TraceStore π) := do
  let spans ← readAllSpans P inputs
  let parts ← flushTraceSpansWithId P rowGroupSize (fun _ => "") outputId spans
  if parts.length ≠ 1 ∨ parts.any fun part => part.info.id ≠ outputId then
    .error "trace compaction wrote an unexpected replacement id"
  else do
    let readers ← parts.mapM (TracePartReader.openInternal true)
    let published := readers.foldl TraceStore.publish store
    .ok { published with registry := published.registry.unregister inputIds }

/-- A store taking its events.  What fails leaves the store as it was, and an event that cannot
happen is no step: a compaction takes registered parts, each once, and ids are new. -/
def traceMachine : Machine (TraceStore π) (StoreEvent π) where
  step store
    | .insert spans => some { store with memtable := store.memtable.insert spans }
    | .beginFlush => some { store with memtable := store.memtable.beginFlush }
    | .commitFlush rowGroupSize uuid =>
      match store.flush P rowGroupSize uuid with
      | .error _ => some store
      | .ok store' =>
        if NewIds store (newIds P uuid (store.memtable.flushing.getD [])) then some store' else none
    | .abortFlush =>
      store.memtable.flushing.map fun snapshot =>
        { store with memtable := store.memtable.abortFlush snapshot }
    | .compact inputIds rowGroupSize outputId =>
      if inputIds.Nodup ∧ store.IsFresh outputId then
        (inputIds.mapM store.registry.get).map fun inputs =>
          match store.compactOnce P inputs inputIds rowGroupSize outputId with
          | .ok store' => store'
          | .error _ => store
      else none
    | .evict id =>
      some { store with registry := store.registry.map fun entry =>
        if entry.1 = id ∧ (store.objects id).isSome then
          (entry.1, { entry.2 with part := { entry.2.part with data := none } })
        else entry }

/-! ### What parts hold -/

/-- A registered part has its row groups; its file is there or the object store has it. -/
structure Held (objects : String → Option (List (List SpanRow))) (entry : String × TracePartReader)
    (groups : List (List (TraceSpan π))) : Prop where
  name : entry.2.part.info.id = entry.1
  opened : entry.2.Opened P groups
  data : entry.2.part.data = none ∨ entry.2.part.data = some (fileOf P groups)
  object : objects entry.1 = some (fileOf P groups)

/-- Every registered part holds what a table of row groups says of its id. -/
structure Shelved (registry : TraceRegistry) (objects : String → Option (List (List SpanRow)))
    (groupsOf : String → List (List (TraceSpan π))) : Prop where
  nodup : (registry.map Prod.fst).Nodup
  held : ∀ entry ∈ registry, Held P objects entry (groupsOf entry.1)

/-- The spans of the registered parts. -/
def shelf (registry : TraceRegistry) (groupsOf : String → List (List (TraceSpan π))) :
    List (TraceSpan π) :=
  registry.flatMap fun entry => (groupsOf entry.1).flatten

/-- The memtable and the parts hold what was accepted, each span as often. -/
def TraceStore.Keeps (store : TraceStore π) (accepted : List (TraceSpan π)) : Prop :=
  ∃ groupsOf, Shelved P store.registry store.objects groupsOf ∧
    (store.memtable.spans ++ shelf store.registry groupsOf).Perm accepted

variable {P} {store : TraceStore π} {registry : TraceRegistry}
  {objects : String → Option (List (List SpanRow))}
  {groupsOf : String → List (List (TraceSpan π))}

theorem not_mem_of_lookup_none {id : String} (h : registry.lookup id = none) :
    ∀ entry ∈ registry, entry.1 ≠ id := by
  intro entry hentry heq
  have hnone := List.lookup_eq_none_iff.1 h entry hentry
  simp [heq] at hnone

/-- **A new part** on the shelf. -/
theorem Shelved.publish (h : Shelved P store.registry store.objects groupsOf)
    {reader : TracePartReader} {groups : List (List (TraceSpan π))} (hopened : reader.Opened P groups)
    (hdata : reader.part.data = some (fileOf P groups)) (hfresh : store.IsFresh reader.part.info.id) :
    let groupsOf' := Function.update groupsOf reader.part.info.id groups
    Shelved P (store.publish reader).registry (store.publish reader).objects groupsOf' ∧
      shelf (store.publish reader).registry groupsOf' =
        shelf store.registry groupsOf ++ groups.flatten := by
  intro groupsOf'
  have hnew := not_mem_of_lookup_none hfresh.1
  have hkeep : store.registry.filter (fun entry => entry.1 ≠ reader.part.info.id) =
      store.registry :=
    List.filter_eq_self.2 fun entry he => decide_eq_true (hnew entry he)
  have hregistry : (store.publish reader).registry =
      store.registry ++ [(reader.part.info.id, reader)] :=
    congrArg (· ++ [(reader.part.info.id, reader)]) hkeep
  have hgroups : ∀ entry ∈ store.registry, groupsOf' entry.1 = groupsOf entry.1 :=
    fun entry he => Function.update_of_ne (hnew entry he) _ _
  have hmine : groupsOf' reader.part.info.id = groups := Function.update_self ..
  refine ⟨⟨?_, fun entry he => ?_⟩, ?_⟩
  · rw [hregistry, List.map_append, List.nodup_append]
    refine ⟨h.nodup, List.nodup_singleton _, fun id hid other ho => ?_⟩
    obtain ⟨entry, he, rfl⟩ := List.mem_map.1 hid
    rw [List.mem_singleton.1 ho]
    exact hnew entry he
  · rw [hregistry] at he
    rcases List.mem_append.1 he with he | he
    · have hheld := h.held entry he
      rw [hgroups entry he]
      exact ⟨hheld.name, hheld.opened, hheld.data,
        (if_neg (hnew entry he)).trans hheld.object⟩
    · obtain rfl := List.mem_singleton.1 he
      rw [hmine]
      exact ⟨rfl, hopened, .inr hdata, (if_pos rfl).trans hdata⟩
  · rw [hregistry, shelf, List.flatMap_append, List.flatMap_singleton, hmine]
    exact congrArg (· ++ groups.flatten) (List.flatMap_congr fun entry he =>
      congrArg List.flatten (hgroups entry he))

/-- **New parts** on the shelf, one after the other. -/
theorem Shelved.publish_all {readers : List TracePartReader}
    {laid : List (List (List (TraceSpan π)))}
    (hlaid : List.Forall₂ (fun reader groups => reader.Opened P groups ∧
      reader.part.data = some (fileOf P groups)) readers laid)
    (h : Shelved P store.registry store.objects groupsOf)
    (hnodup : (readers.map fun reader => reader.part.info.id).Nodup)
    (hfresh : ∀ reader ∈ readers, store.IsFresh reader.part.info.id) :
    ∃ groupsOf', Shelved P (readers.foldl TraceStore.publish store).registry
        (readers.foldl TraceStore.publish store).objects groupsOf' ∧
      shelf (readers.foldl TraceStore.publish store).registry groupsOf' =
        shelf store.registry groupsOf ++ laid.flatten.flatten := by
  induction hlaid generalizing store groupsOf with
  | nil => exact ⟨groupsOf, h, by simp⟩
  | @cons reader groups readers laid hreader _ ih =>
    obtain ⟨hnew, hrest⟩ := List.nodup_cons.1 hnodup
    obtain ⟨hshelved, hshelf⟩ := h.publish hreader.1 hreader.2 (hfresh reader List.mem_cons_self)
    have hstill : ∀ other ∈ readers, (store.publish reader).IsFresh other.part.info.id := by
      intro other ho
      have hne : other.part.info.id ≠ reader.part.info.id := fun heq =>
        hnew (List.mem_map.2 ⟨other, ho, heq⟩)
      obtain ⟨hlookup, hobject⟩ := hfresh other (List.mem_cons_of_mem _ ho)
      refine ⟨List.lookup_eq_none_iff.2 fun entry he => ?_, (if_neg hne).trans hobject⟩
      rcases List.mem_append.1 he with he | he
      · exact List.lookup_eq_none_iff.1 hlookup entry (List.mem_of_mem_filter he)
      · rw [List.mem_singleton.1 he]
        simpa using hne
    obtain ⟨groupsOf', hshelved', hshelf'⟩ := ih hshelved hrest hstill
    refine ⟨groupsOf', hshelved', hshelf'.trans ?_⟩
    rw [hshelf, List.append_assoc, List.flatten_cons, List.flatten_append]

/-- Opening parts as the writer left them. -/
theorem forall₂_opened {parts : List TracePart} {laid : List (List (List (TraceSpan π)))}
    {nameOf : TracePart → String} (hlaid : List.Forall₂ (fun part groups => Written P part groups ∧
      part.info.id = nameOf part) parts laid) {readers : List TracePartReader}
    (hopen : parts.mapM (TracePartReader.openInternal true) = .ok readers) :
    List.Forall₂ (fun reader groups => reader.Opened P groups ∧
        reader.part.data = some (fileOf P groups)) readers laid ∧
      readers.map TracePartReader.part = parts := by
  have hreaders := forall₂_of_mapM hopen
  clear hopen
  induction hlaid generalizing readers with
  | nil =>
    cases hreaders
    exact ⟨.nil, rfl⟩
  | @cons part groups parts laid hpart _ ih =>
    cases hreaders with
    | cons hreader hrest =>
      obtain ⟨heq, hopened⟩ := opened_of_openInternal hpart.1.layout hreader
      obtain ⟨hall, hparts⟩ := ih hrest
      exact ⟨.cons ⟨hopened, heq ▸ hpart.1.data⟩ hall, by rw [List.map_cons, heq, hparts]⟩

theorem map_id_of_written {parts : List TracePart} {laid : List (List (List (TraceSpan π)))}
    {nameOf : TracePart → String} (hlaid : List.Forall₂ (fun part groups => Written P part groups ∧
      part.info.id = nameOf part) parts laid) :
    (parts.map fun part => part.info.id) = parts.map nameOf := by
  induction hlaid with
  | nil => rfl
  | cons h _ ih => rw [List.map_cons, List.map_cons, h.2, ih]

/-! ### The inputs of a compaction -/

theorem mem_of_lookup {id : String} {reader : TracePartReader}
    (h : registry.lookup id = some reader) : (id, reader) ∈ registry := by
  obtain ⟨before, after, rfl, -⟩ := List.lookup_eq_some_iff.1 h
  exact List.mem_append_right _ List.mem_cons_self

/-- The spans of a tenant's read, for every tenant of a part. -/
theorem Held.readTenants_perm {entry : String × TracePartReader}
    {groups : List (List (TraceSpan π))} (h : Held P objects entry groups)
    (hfaithful : ∀ span ∈ groups.flatten, P.Faithful span)
    {perTenant : List (List (TraceSpan π))}
    (hread : List.Forall₂ (fun segment spans =>
      entry.2.queryAllLimited P segment.tenant none = .ok spans)
      entry.2.part.info.tenants perTenant) :
    perTenant.flatten.Perm groups.flatten := by
  have hlayout := h.opened.layout
  have hperm : ∀ segments, List.Forall₂ (fun (segment : TraceTenantSegment) spans =>
      entry.2.queryAllLimited P segment.tenant none = .ok spans) segments perTenant →
      perTenant.flatten.Perm (segments.flatMap fun segment =>
        groups.flatten.filter fun span => span.tenant = segment.tenant) := by
    intro segments hall
    clear hread
    induction hall with
    | nil => exact .refl _
    | cons hspans _ ih =>
      rw [List.flatten_cons, List.flatMap_cons]
      exact (hlayout.perm_of_queryAll hfaithful h.data hspans).append ih
  refine (hperm _ hread).trans ?_
  have hnodup : (entry.2.part.info.tenants.map TraceTenantSegment.tenant).Nodup :=
    hlayout.pairwise_tenants.imp fun hlt => hlt.ne
  have hbins := Runs.perm_flatMap_filter (fun span : TraceSpan π => span.tenant) hnodup
    groups.flatten fun span hs => ?_
  · rwa [List.flatMap_map] at hbins
  · obtain ⟨group, hg, hmem⟩ := List.mem_flatten.1 hs
    obtain ⟨segment, hsegment, heq⟩ := hlayout.tiles.mem hg
    exact List.mem_map.2 ⟨segment, hsegment, ((hlayout.oneTenant group hg span hmem).trans heq).symm⟩

/-- **Reading the inputs** reads all of their spans. -/
theorem Shelved.readAllSpans_perm (h : Shelved P registry objects groupsOf)
    (hfaithful : ∀ span ∈ shelf registry groupsOf, P.Faithful span)
    {ids : List String} {inputs : List TracePartReader}
    (hinputs : ids.mapM registry.get = some inputs) {spans : List (TraceSpan π)}
    (hok : readAllSpans P inputs = .ok spans) :
    spans.Perm (ids.flatMap fun id => (groupsOf id).flatten) := by
  obtain ⟨perInput, hperInput, hspans⟩ := exists_of_bind hok
  obtain rfl := Except.ok.inj hspans
  have hreads := forall₂_of_mapM hperInput
  clear hok hspans hperInput
  induction ids generalizing inputs perInput with
  | nil =>
    obtain rfl := Option.some.inj hinputs
    cases hreads
    exact .refl _
  | cons id ids ih =>
    rw [List.mapM_cons] at hinputs
    cases hget : registry.get id with
    | none => rw [hget] at hinputs; cases hinputs
    | some reader =>
      cases hrest : ids.mapM registry.get with
      | none => rw [hget, hrest] at hinputs; cases hinputs
      | some readers =>
        rw [hget, hrest] at hinputs
        obtain rfl := Option.some.inj hinputs
        cases hreads with
        | cons hreader hreaders =>
          obtain ⟨perTenant, hperTenant, heq⟩ := exists_of_bind hreader
          obtain rfl := Except.ok.inj heq
          rw [List.flatten_cons, List.flatMap_cons]
          have hmem := mem_of_lookup hget
          have hmine : ∀ span ∈ (groupsOf id).flatten, P.Faithful span := fun span hs =>
            hfaithful span (List.mem_flatMap.2 ⟨_, hmem, hs⟩)
          exact ((h.held _ hmem).readTenants_perm hmine
            (forall₂_of_mapM hperTenant)).append (ih hrest _ hreaders)

/-- The registered inputs hold what their ids say. -/
theorem Shelved.shelf_filter_perm (h : Shelved P registry objects groupsOf) {ids : List String}
    (hnodup : ids.Nodup) {inputs : List TracePartReader}
    (hinputs : ids.mapM registry.get = some inputs) :
    (shelf (registry.filter fun entry => entry.1 ∈ ids) groupsOf).Perm
      (ids.flatMap fun id => (groupsOf id).flatten) := by
  have hregistered : ∀ id ∈ ids, id ∈ registry.map Prod.fst := by
    intro id hid
    obtain ⟨reader, -, hget⟩ := Runs.mem_of_mapM_some hinputs hid
    exact List.mem_map.2 ⟨_, mem_of_lookup hget, rfl⟩
  have hids : ((registry.filter fun entry => entry.1 ∈ ids).map Prod.fst).Perm ids := by
    refine (List.perm_ext_iff_of_nodup ?_ hnodup).2 fun id => ?_
    · exact h.nodup.sublist (List.filter_sublist.map _)
    · constructor
      · intro hid
        obtain ⟨entry, he, rfl⟩ := List.mem_map.1 hid
        simpa using (List.mem_filter.1 he).2
      · intro hid
        obtain ⟨entry, he, rfl⟩ := List.mem_map.1 (hregistered id hid)
        exact List.mem_map.2 ⟨entry, List.mem_filter.2 ⟨he, by simpa using hid⟩, rfl⟩
  have := hids.flatMap_right fun id => (groupsOf id).flatten
  rwa [List.flatMap_map] at this

/-! ### Steps -/

/-- The spans that an event brings. -/
def StoreEvent.accepted : StoreEvent π → List (TraceSpan π)
  | .insert spans => spans
  | _ => []

/-- A part less its local file is still held. -/
theorem Shelved.evict (h : Shelved P registry objects groupsOf) (id : String) :
    let evicted := registry.map fun entry =>
      if entry.1 = id ∧ (objects id).isSome then
        (entry.1, { entry.2 with part := { entry.2.part with data := none } })
      else entry
    Shelved P evicted objects groupsOf ∧ shelf evicted groupsOf = shelf registry groupsOf := by
  intro evicted
  let drop := fun entry : String × TracePartReader =>
    if entry.1 = id ∧ (objects id).isSome then
      (entry.1, { entry.2 with part := { entry.2.part with data := none } })
    else entry
  have hid : ∀ entry, (drop entry).1 = entry.1 := fun entry => by
    simp only [drop]
    split_ifs <;> rfl
  have hids : evicted.map Prod.fst = registry.map Prod.fst := by
    rw [List.map_map]
    exact List.map_congr_left fun entry _ => hid entry
  refine ⟨⟨hids ▸ h.nodup, fun entry he => ?_⟩, ?_⟩
  · obtain ⟨before, hbefore, rfl⟩ := List.mem_map.1 he
    have hheld := h.held before hbefore
    split_ifs with hc
    · exact ⟨hheld.name, hheld.opened.withData none, .inl rfl, hheld.object⟩
    · exact hheld
  · rw [shelf, List.flatMap_map]
    exact List.flatMap_congr fun entry _ => by
      show (groupsOf (drop entry).1).flatten = _
      rw [hid]

/-- Taking parts off the shelf. -/
theorem Shelved.unregister (h : Shelved P registry objects groupsOf) (ids : List String) :
    Shelved P (registry.unregister ids) objects groupsOf :=
  ⟨h.nodup.sublist (List.filter_sublist.map _), fun entry he =>
    h.held entry (List.mem_of_mem_filter he)⟩

/-- **A flush** moves the snapshot to the shelf. -/
theorem keeps_flush {accepted : List (TraceSpan π)} (h : store.Keeps P accepted)
    {rowGroupSize : ℕ} {uuid : ℤ → String} {store' : TraceStore π}
    (hnew : NewIds store (newIds P uuid (store.memtable.flushing.getD [])))
    (hflush : store.flush P rowGroupSize uuid = .ok store') : store'.Keeps P accepted := by
  obtain ⟨groupsOf, hshelved, hperm⟩ := h
  obtain ⟨parts, hparts, hrest⟩ := exists_of_bind hflush
  obtain ⟨readers, hreaders, hstore⟩ := exists_of_bind hrest
  obtain rfl := Except.ok.inj hstore
  obtain ⟨laid, hlaid, hdays, hwritten⟩ := flushTraceSpansWithId_spec hparts
  obtain ⟨hopened, hreaderParts⟩ := forall₂_opened hwritten hreaders
  have hids : (readers.map fun reader => reader.part.info.id) =
      newIds P uuid (store.memtable.flushing.getD []) := by
    have hnames := map_id_of_written hwritten
    rw [← hreaderParts, List.map_map] at hnames
    rw [newIds, ← hdays, ← hreaderParts, List.map_map, List.map_map]
    exact hnames.trans (List.map_map ..)
  obtain ⟨groupsOf', hshelved', hshelf⟩ := hshelved.publish_all hopened (hids ▸ hnew.1)
    fun reader hr => hnew.2 _ (hids ▸ List.mem_map_of_mem hr)
  refine ⟨groupsOf', hshelved', ?_⟩
  rw [hshelf, TraceMemTable.spans, TraceMemTable.commitFlush, Option.getD_none, List.append_nil]
  refine List.Perm.trans ?_ hperm
  rw [TraceMemTable.spans, List.append_assoc]
  exact (List.perm_append_comm.trans (hlaid.append_right _)).append_left _

theorem lookup_register_of_ne {id other : String} (h : id ≠ other) {reader : TracePartReader} :
    (registry.register other reader).get id = registry.get id := by
  have hfilter : (registry.filter fun entry => entry.1 ≠ other).lookup id = registry.lookup id := by
    induction registry with
    | nil => rfl
    | cons entry registry ih =>
      by_cases he : entry.1 = other
      · have hne : (id == entry.1) = false := by rw [he]; exact beq_false_of_ne h
        rw [List.filter_cons_of_neg (by simpa using he), ih, List.lookup_cons, hne]
      · rw [List.filter_cons_of_pos (by simpa using he), List.lookup_cons, List.lookup_cons, ih]
  have hlast : [(other, reader)].lookup id = none := by
    rw [List.lookup_cons, beq_false_of_ne h]
    rfl
  rw [TraceRegistry.get, TraceRegistry.get, TraceRegistry.register, List.lookup_append, hfilter,
    hlast, Option.or_none]

/-- The spans of some parts and those of the others. -/
theorem shelf_split_perm (registry : TraceRegistry) (groupsOf : String → List (List (TraceSpan π)))
    (ids : List String) :
    (shelf (registry.filter fun entry => entry.1 ∈ ids) groupsOf ++
      shelf (registry.unregister ids) groupsOf).Perm (shelf registry groupsOf) := by
  rw [shelf, shelf, ← List.flatMap_append]
  refine List.Perm.flatMap_right _ ?_
  have := List.filter_append_perm (fun entry : String × TracePartReader => decide (entry.1 ∈ ids))
    registry
  simpa [TraceRegistry.unregister] using this

/-- **A compaction** rewrites its inputs. -/
theorem keeps_compactOnce {accepted : List (TraceSpan π)}
    (hfaithful : ∀ span ∈ accepted, P.Faithful span) (h : store.Keeps P accepted)
    {inputIds : List String} {inputs : List TracePartReader} (hnodup : inputIds.Nodup)
    (hinputs : inputIds.mapM store.registry.get = some inputs) {rowGroupSize : ℕ}
    {outputId : String} (hfresh : store.IsFresh outputId) {store' : TraceStore π}
    (hcompact : store.compactOnce P inputs inputIds rowGroupSize outputId = .ok store') :
    store'.Keeps P accepted := by
  obtain ⟨groupsOf, hshelved, hperm⟩ := h
  obtain ⟨spans, hspans, hrest⟩ := exists_of_bind hcompact
  obtain ⟨parts, hparts, hrest⟩ := exists_of_bind hrest
  split_ifs at hrest with hone
  obtain ⟨hlen, hname⟩ := not_or.1 hone
  obtain ⟨readers, hreaders, hstore⟩ := exists_of_bind hrest
  obtain rfl := Except.ok.inj hstore
  obtain ⟨part, rfl⟩ := List.length_eq_one_iff.1 (not_not.1 hlen)
  obtain ⟨laid, hlaid, -, hwritten⟩ := flushTraceSpansWithId_spec hparts
  obtain ⟨hopened, hreaderParts⟩ := forall₂_opened hwritten hreaders
  obtain ⟨reader, rfl⟩ : ∃ reader, readers = [reader] := by
    have := congrArg List.length hreaderParts
    rw [List.length_map] at this
    exact List.length_eq_one_iff.1 this
  have hid : reader.part.info.id = outputId := by
    rw [List.map_singleton, List.singleton_inj] at hreaderParts
    simpa [hreaderParts] using hname
  obtain ⟨groupsOf', hshelved', hshelf⟩ := hshelved.publish_all hopened (List.nodup_singleton _)
    fun other ho => by rw [List.mem_singleton.1 ho, hid]; exact hfresh
  refine ⟨groupsOf', hshelved'.unregister inputIds, ?_⟩
  -- The inputs are still there beside the output, which holds what was read from them.
  have hinputs' : inputIds.mapM (store.publish reader).registry.get = some inputs := by
    rw [← hinputs]
    refine Runs.mapM_some_congr fun id hmem => ?_
    obtain ⟨_, -, hget⟩ := Runs.mem_of_mapM_some hinputs hmem
    have hne : id ≠ reader.part.info.id := by
      rintro rfl
      have hnone := hfresh.1
      rw [← hid] at hnone
      exact absurd hget (by rw [TraceRegistry.get, hnone]; exact nofun)
    exact lookup_register_of_ne hne
  have hold : ∀ span ∈ shelf store.registry groupsOf, P.Faithful span := fun span hs =>
    hfaithful span (hperm.subset (List.mem_append_right _ hs))
  have htaken := (hshelved.readAllSpans_perm hold hinputs hspans).trans
    (hshelved.shelf_filter_perm hnodup hinputs).symm
  have hnew : ∀ span ∈ shelf (store.publish reader).registry groupsOf', P.Faithful span := by
    intro span hs
    rcases List.mem_append.1 ((List.Perm.of_eq hshelf).subset hs) with hs | hs
    · exact hold span hs
    · obtain ⟨entry, he, hs⟩ := List.mem_flatMap.1 (htaken.subset (hlaid.subset hs))
      exact hold span (List.mem_flatMap.2 ⟨entry, List.mem_of_mem_filter he, hs⟩)
  have hread := hshelved'.readAllSpans_perm hnew hinputs' hspans
  have hinside := (hshelved'.shelf_filter_perm hnodup hinputs').trans hread.symm
  have hsplit := shelf_split_perm (store.publish reader).registry groupsOf' inputIds
  have hall : (spans ++ shelf ((store.publish reader).registry.unregister inputIds) groupsOf').Perm
      (spans ++ shelf store.registry groupsOf) := by
    refine (hinside.symm.append_right _).trans (hsplit.trans ?_)
    refine (List.Perm.of_eq hshelf).trans (List.perm_append_comm.trans ?_)
    exact hlaid.append_right _
  exact (((List.perm_append_left_iff spans).1 hall).append_left _).trans hperm

/-- Nothing new is accepted. -/
theorem TraceStore.Keeps.still {accepted : List (TraceSpan π)} (h : store.Keeps P accepted) :
    store.Keeps P (accepted ++ []) := by
  rwa [List.append_nil]

/-- **Every step** keeps what was accepted. -/
theorem keeps_step {accepted : List (TraceSpan π)}
    (hfaithful : ∀ span ∈ accepted, P.Faithful span) (h : store.Keeps P accepted) {e : StoreEvent π}
    {store' : TraceStore π} (hstep : (traceMachine P).step store e = some store') :
    store'.Keeps P (accepted ++ e.accepted) := by
  cases e with
  | insert spans =>
    obtain rfl := Option.some.inj hstep
    obtain ⟨groupsOf, hshelved, hperm⟩ := h
    refine ⟨groupsOf, hshelved, List.Perm.trans ?_ (hperm.append_right spans)⟩
    simp only [TraceMemTable.spans, TraceMemTable.insert, List.append_assoc]
    refine List.Perm.append_left _ ?_
    exact List.perm_append_comm.trans (List.Perm.of_eq (List.append_assoc ..))
  | beginFlush =>
    obtain rfl := Option.some.inj hstep
    refine TraceStore.Keeps.still ?_
    exact h
  | commitFlush rowGroupSize uuid =>
    refine TraceStore.Keeps.still ?_
    simp only [traceMachine] at hstep
    split at hstep
    case h_1 =>
      obtain rfl := Option.some.inj hstep
      exact h
    case h_2 flushed hflush =>
      split_ifs at hstep with hnew
      obtain rfl := Option.some.inj hstep
      exact keeps_flush h hnew hflush
  | abortFlush =>
    refine TraceStore.Keeps.still ?_
    obtain ⟨snapshot, hsnapshot, rfl⟩ := Option.map_eq_some_iff.1 hstep
    obtain ⟨groupsOf, hshelved, hperm⟩ := h
    refine ⟨groupsOf, hshelved, ?_⟩
    simpa [TraceMemTable.spans, TraceMemTable.abortFlush, hsnapshot] using hperm
  | compact inputIds rowGroupSize outputId =>
    refine TraceStore.Keeps.still ?_
    simp only [traceMachine] at hstep
    split_ifs at hstep with hguard
    obtain ⟨inputs, hinputs, hstore⟩ := Option.map_eq_some_iff.1 hstep
    split at hstore
    case h_1 compacted hcompact =>
      exact hstore ▸ keeps_compactOnce hfaithful h hguard.1 hinputs hguard.2 hcompact
    case h_2 => exact hstore ▸ h
  | evict id =>
    obtain rfl := Option.some.inj hstep
    refine TraceStore.Keeps.still ?_
    obtain ⟨groupsOf, hshelved, hperm⟩ := h
    obtain ⟨hevicted, hshelf⟩ := hshelved.evict id
    exact ⟨groupsOf, hevicted, by rw [hshelf]; exact hperm⟩

theorem keeps_empty : (TraceStore.empty : TraceStore π).Keeps P [] :=
  ⟨fun _ => [], ⟨List.nodup_nil, fun _ h => by cases h⟩, .refl _⟩

/-- **Every run** keeps what was accepted. -/
theorem keeps_run {accepted : List (TraceSpan π)} (h : store.Keeps P accepted)
    {events : List (StoreEvent π)} {store' : TraceStore π}
    (hfaithful : ∀ span ∈ accepted ++ events.flatMap StoreEvent.accepted, P.Faithful span)
    (hrun : (traceMachine P).run store events = some store') :
    store'.Keeps P (accepted ++ events.flatMap StoreEvent.accepted) := by
  induction events generalizing store accepted with
  | nil =>
    obtain rfl := Option.some.inj hrun
    simpa using h
  | cons e events ih =>
    obtain ⟨next, hstep, hrest⟩ := Machine.run_cons_eq_some.1 hrun
    rw [List.flatMap_cons, ← List.append_assoc] at hfaithful ⊢
    have hnow : ∀ span ∈ accepted, P.Faithful span := fun span hs =>
      hfaithful span (List.mem_append_left _ (List.mem_append_left _ hs))
    exact ih (keeps_step hnow h hstep) hfaithful hrest

/-- **A flush succeeds** on spans that a `u32` can count, if the filters of that many ids read
back. -/
theorem TraceStore.flush_ok (store : TraceStore π) {rowGroupSize : ℕ} (hsize : 0 < rowGroupSize)
    (uuid : ℤ → String) (hfew : (store.memtable.flushing.getD []).length < 2 ^ 32)
    (hsmall : ∀ n ≤ max (store.memtable.flushing.getD []).length 1, (P.sizing n).1 < 2 ^ 32) :
    ∃ store', store.flush P rowGroupSize uuid = .ok store' := by
  obtain ⟨parts, hparts⟩ := flushTraceSpansWithId_ok P hsize uuid hfew
  obtain ⟨laid, hlaid, -, hwritten⟩ := flushTraceSpansWithId_spec hparts
  have hbits : ∀ groups ∈ laid, ∀ group ∈ groups, (groupBloom P.sizing group).numBits < 2 ^ 32 := by
    intro groups hgroups group hgroup
    obtain ⟨n, hn, hbits⟩ := numBits_groupBloom P.sizing group
    rw [hbits]
    refine hsmall n (hn.trans (max_le_max_right 1 ?_))
    rw [← hlaid.length_eq]
    exact ((List.sublist_flatten_of_mem hgroup).trans
      ((List.sublist_flatten_of_mem hgroups).flatten)).length_le
  have hopen : ∀ part ∈ parts, ∃ reader, TracePartReader.openInternal true part = .ok reader := by
    clear hparts hlaid
    induction hwritten with
    | nil => exact fun _ hp => by cases hp
    | cons hpart _ ih =>
      intro part hp
      rcases List.mem_cons.1 hp with rfl | hp
      · exact ⟨_, hpart.1.openInternal_eq (hbits _ List.mem_cons_self)⟩
      · exact ih (fun groups hg => hbits groups (List.mem_cons_of_mem _ hg)) part hp
  obtain ⟨readers, hreaders⟩ := mapM_ok hopen
  exact ⟨_, by simp only [TraceStore.flush, hparts, hreaders, bind, Except.bind]; rfl⟩

end Trace

end Obsy
