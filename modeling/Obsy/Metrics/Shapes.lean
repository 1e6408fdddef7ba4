import Obsy.Metrics.Accounting
import Obsy.Metrics.Rules

/-!
# Samples of two shapes

A series is told by its labels alone, and nothing in ingest says whether its samples are numbers or
histograms.  Its buffer is of one shape, and a sample of the other finds no place in it.

* `TenantSeries.insertSample_items`, `restore_items`, `takeBuffers_items`: what comes to the samples
  of a tenant, goes back to them and is taken of them.
* `SeriesMemTable.held`: the samples in the buffers and in the snapshot of a flush.
* `History`: the memtable with what it has received and what was committed.
* `conserved`: what was received was committed or is held, in every run in which no sample meets a
  buffer of the other shape, be it as it comes or as a flush is aborted.
-/

namespace Obsy

namespace Metrics

namespace Arena

open Part (Nanos)
open Runs (Table Release Each saturating foldlM_keeps)
open Runs.Table (tally mapValues tally_insert tally_erase tally_mapValues)

variable {ν : Type} {bits : ν → Word}

/-! ### Series -/

/-- The shape of a series that a flush has taken. -/
def snapshotKind (series : SnapshotSeries ν) : SeriesRowKind :=
  if series.isHistogram then .histogram else .scalar

namespace TenantSeries

def itemsOf (t : TenantSeries ν) : Multiset (StoredSample ν) :=
  tally (fun labels state => (t.bufferOf state).elim 0 fun storage => storage.items labels) t.states

/-- The buffer of a series belongs to no other. -/
theorem Opened.ne_of_other {t opened : TenantSeries ν} {labels other : SeriesLabels} {id : ℕ}
    {state : SeriesState ν} (ht : t.Buffered) (h : Opened t (t.stateOf labels) id opened)
    (hother : (t.states.erase labels).lookup other = some state) : state.bufferId ≠ some id := by
  intro hid
  have hids := ht.ids
  rw [Table.tally_getD (f := fun _ (state : SeriesState ν) => idOf state.bufferId) (d := .new)
    (k := labels) rfl, tally_erase _ hother, hid] at hids
  change idOf (t.stateOf labels).bufferId + ({id} + _) = _ at hids
  rw [h.ids, h.rest] at hids
  have hrest := add_left_cancel hids
  have hmem : id ∈ ((opened.buffers.erase id).keys : Multiset ℕ) := by
    rw [← Table.tally_singleton, ← hrest]
    exact Multiset.mem_add.2 (.inl (Multiset.mem_singleton_self id))
  exact AList.lookup_eq_none.1 (AList.lookup_erase id _) hmem

/-- **A change of one buffer** is a change of the samples of its series. -/
theorem Opened.itemsOf {t opened t' : TenantSeries ν} {labels : SeriesLabels} {id : ℕ}
    {state : SeriesState ν} {after : SeriesBufferStorage ν} (ht : t.Buffered)
    (h : Opened t (t.stateOf labels) id opened)
    (hstates : t'.states = t.states.insert labels state) (hid : state.bufferId = some id)
    (hbuffers : t'.buffers = opened.buffers.insert id after) :
    t'.itemsOf + ((t.bufferOf (t.stateOf labels)).getD .empty).items labels =
      t.itemsOf + after.items labels := by
  have hafter : t'.bufferOf state = some after := by
    rw [bufferOf, hid, hbuffers]
    exact AList.lookup_insert _
  -- the others have their buffers still
  have hothers : tally (fun labels state => (t'.bufferOf state).elim 0
        fun storage => storage.items labels) (t.states.erase labels) =
      tally (fun labels state => (t.bufferOf state).elim 0
        fun storage => storage.items labels) (t.states.erase labels) := by
    refine Table.tally_congr fun other state hother => ?_
    have hne := h.ne_of_other ht (AList.mem_lookup_iff.2 hother)
    have hsame : t'.bufferOf state = t.bufferOf state := by
      rw [bufferOf, bufferOf, hbuffers]
      cases hbuffer : state.bufferId with
      | none => rfl
      | some number =>
        have hnumber : number ≠ id := fun heq => hne (heq ▸ hbuffer)
        exact (AList.lookup_insert_ne hnumber).trans (h.others number hnumber)
    rw [hsame]
  have hbefore : (t.states.lookup labels).elim 0 (fun state => (t.bufferOf state).elim 0
        fun storage => storage.items labels) =
      ((t.bufferOf (t.stateOf labels)).getD .empty).items labels := by
    rw [stateOf]
    cases t.states.lookup labels with
    | none => rfl
    | some state =>
      rw [Option.elim_some, Option.getD_some]
      cases t.bufferOf state <;> rfl
  rw [TenantSeries.itemsOf, TenantSeries.itemsOf, hstates, tally_insert, hafter, hothers,
    Table.tally_split _ t.states labels, hbefore, Option.elim_some]
  abel

theorem itemsOf_congr {t t' : TenantSeries ν} (hstates : t'.states = t.states)
    (hbuffers : t'.buffers = t.buffers) : t'.itemsOf = t.itemsOf := by
  simp only [itemsOf, bufferOf, hstates, hbuffers]

/-- An entry without samples takes none with it. -/
theorem itemsOf_erase {t t' : TenantSeries ν} (ht : t.Buffered) {labels : SeriesLabels}
    {state : SeriesState ν} (hstate : t.states.lookup labels = some state)
    (hbare : t.hasSamples state = false) (hstates : t'.states = t.states.erase labels)
    (hbuffers : t'.buffers = state.bufferId.elim t.buffers fun id => t.buffers.erase id) :
    t'.itemsOf = t.itemsOf := by
  have hgone : (t.bufferOf state).elim 0 (fun storage => storage.items labels) = 0 := by
    cases hbuffer : t.bufferOf state with
    | none => rfl
    | some storage =>
      exact SeriesBufferStorage.items_of_not_hasSamples (not_hasSamples_of_bufferOf hbare hbuffer)
  have hids := ht.ids
  rw [tally_erase _ hstate] at hids
  rw [itemsOf, itemsOf, tally_erase _ hstate, hgone, zero_add, hstates]
  refine Table.tally_congr fun other otherState hother => ?_
  have hsame : t'.bufferOf otherState = t.bufferOf otherState := by
    rw [bufferOf, bufferOf, hbuffers]
    cases hid : state.bufferId with
    | none => rfl
    | some id =>
      rw [hid] at hids
      cases hbuffer : otherState.bufferId with
      | none => rfl
      | some number =>
        -- an id is in the index once
        refine AList.lookup_erase_ne fun heq => ?_
        rw [tally_erase _ (AList.mem_lookup_iff.2 hother), hbuffer, heq,
          Table.tally_singleton] at hids
        have hnodup : (t.buffers.keys : Multiset ℕ).Nodup := t.buffers.nodupKeys
        rw [← hids] at hnodup
        exact Multiset.disjoint_left.1 (Multiset.nodup_add.1 hnodup).2.2
          (Multiset.mem_singleton_self id)
          (Multiset.mem_add.2 (.inl (Multiset.mem_singleton_self id)))
  rw [hsame]

/-! ### What leaves no sample behind -/

/-- The samples of a tenant are what they were. -/
structure Quiet (t t' : TenantSeries ν) : Prop where
  buffered : t'.Buffered
  items : t'.itemsOf = t.itemsOf

namespace Quiet

variable {t t' t'' : TenantSeries ν}

theorem refl (ht : t.Buffered) : Quiet t t := ⟨ht, rfl⟩

theorem congr (h : Quiet t t') (hstates : t''.states = t'.states)
    (hbuffers : t''.buffers = t'.buffers) : Quiet t t'' :=
  ⟨h.buffered.congr hstates hbuffers, (itemsOf_congr hstates hbuffers).trans h.items⟩

theorem forget (h : Quiet t t') {labels : SeriesLabels} (hbare : t'.Bare labels) :
    Quiet t (t'.forget labels) := by
  obtain ⟨state, hstate, hbare⟩ := hbare
  rw [TenantSeries.forget, hstate]
  exact ⟨buffered_of_erase h.buffered hstate rfl rfl,
    (itemsOf_erase h.buffered hstate hbare rfl rfl).trans h.items⟩

end Quiet

theorem evictIdleLocked_quiet {t : TenantSeries ν} (ht : t.Buffered) (cutoff : Nanos) :
    Quiet t (t.evictIdleLocked cutoff).series :=
  evictIdleLocked_rule (I := fun c => Quiet t c.series) cutoff (.refl ht)
    fun _ _ hc hbare => (hc.forget hbare).congr rfl rfl

theorem retire_quiet {t : TenantSeries ν} {c : Change ν} (h : Quiet t c.series)
    (labels : SeriesLabels) : Quiet t (retire c labels).series :=
  retire_rule (I := fun c => Quiet t c.series) h labels fun hbare => h.forget hbare

theorem rollbackAdmission_quiet {t : TenantSeries ν} (ht : t.Buffered) (labels : SeriesLabels) :
    Quiet t (t.rollbackAdmission labels).series := by
  by_cases hremoved : ((t.states.lookup labels).any (·.bufferId.isNone) &&
      t.refsAfterDrop labels = 0) = true
  · simp only [rollbackAdmission, hremoved, if_true]
    simp only [Bool.and_eq_true, decide_eq_true_eq] at hremoved
    obtain ⟨state, hstate, hbuffer⟩ := (Option.any_eq_true _ _).1 hremoved.1
    rw [Option.isNone_iff_eq_none] at hbuffer
    have hbare : t.hasSamples state = false := by rw [hasSamples, bufferOf, hbuffer]; rfl
    exact ⟨buffered_of_erase ht hstate rfl (by rw [hbuffer]; rfl),
      itemsOf_erase ht hstate hbare rfl (by rw [hbuffer]; rfl)⟩
  · simp only [Bool.not_eq_true] at hremoved
    simp only [rollbackAdmission, hremoved]
    exact (Quiet.refl ht).congr rfl rfl

theorem create_quiet {t : TenantSeries ν} {c : Change ν} (h : Quiet t c.series)
    (labels : SeriesLabels) : Quiet t (create c labels).series := by
  rw [create]
  split_ifs with hmem
  · exact h
  · have hnone := AList.lookup_eq_none.2 hmem
    refine ⟨h.buffered.insert_new hnone rfl rfl, Eq.trans ?_ h.items⟩
    rw [itemsOf, tally_insert, Table.erase_eq_self hnone]
    exact zero_add _

theorem commitAdmission_quiet {t : TenantSeries ν} (ht : t.Buffered) (labels : SeriesLabels) :
    Quiet t (t.commitAdmission labels) := by
  rw [commitAdmission]
  cases t.reservations.lookup labels with
  | none => exact .refl ht
  | some r =>
    dsimp only
    split_ifs <;> exact (Quiet.refl ht).congr rfl rfl

/-! ### Samples that come -/

section

variable [DecidableEq ν] (F : Floats ν)

/-- What is to be stored of a sample: a delta as the total that it makes. -/
def storedValue (t : TenantSeries ν) (sample : MetricSample ν) : Option (MetricValue ν) := do
  let state := t.stateOf sample.labels
  let (id, opened) ← t.bufferFor state
  let (value, _) ← opened.resolve F { state with bufferId := some id } sample
  some value

variable {F}

theorem resolve_spec {t resolved : TenantSeries ν} {state state' : SeriesState ν}
    {sample : MetricSample ν} {value : MetricValue ν}
    (h : t.resolve F state sample = some (value, state', resolved)) :
    resolved.states = t.states ∧ resolved.buffers = t.buffers ∧
      state'.bufferId = state.bufferId ∧ value.kind = sample.value.kind := by
  obtain ⟨tenant, labels, ts, raw, kind⟩ := sample
  unfold resolve at h
  split at h
  · obtain ⟨rfl, hrest⟩ := Prod.mk.inj (Option.some.inj h)
    obtain ⟨rfl, rfl⟩ := Prod.mk.inj hrest
    rename_i hvalue _
    have hkind := congrArg MetricValue.kind hvalue.symm
    exact ⟨rfl, rfl, rfl, hkind⟩
  · rename_i hvalue _
    have hkind := congrArg MetricValue.kind hvalue.symm
    split at h
    · obtain ⟨rfl, hrest⟩ := Prod.mk.inj (Option.some.inj h)
      obtain ⟨rfl, rfl⟩ := Prod.mk.inj hrest
      exact ⟨rfl, rfl, rfl, hkind⟩
    · obtain ⟨id, -, hfresh⟩ := Option.map_eq_some_iff.1 h
      obtain ⟨rfl, hrest⟩ := Prod.mk.inj hfresh
      obtain ⟨rfl, rfl⟩ := Prod.mk.inj hrest
      exact ⟨rfl, rfl, rfl, hkind⟩
  · obtain ⟨rfl, hrest⟩ := Prod.mk.inj (Option.some.inj h)
    obtain ⟨rfl, rfl⟩ := Prod.mk.inj hrest
    exact ⟨rfl, rfl, rfl, rfl⟩

end

theorem record_items {storage : SeriesBufferStorage ν} {value : MetricValue ν}
    (h : storage.Conforms value.kind) (lastTs : Option Nanos) (ts : Nanos) (labels : SeriesLabels) :
    (record storage lastTs ts value).items labels =
      storage.items labels + {(labels, ts, value)} := by
  cases value with
  | scalar value => exact SeriesBufferStorage.items_append h
  | histogram point => exact SeriesBufferStorage.items_appendHistogram h

/-- A sample of the shape of its series, if the count of an open stream can tell it. -/
structure Matches (t : TenantSeries ν) (sample : MetricSample ν) : Prop where
  shape : ((t.bufferOf (t.stateOf sample.labels)).getD .empty).Conforms sample.value.kind
  roomy : ∀ value, sample.value = .scalar value →
    Roomy (t.stateOf sample.labels).lastTs sample.tsNs
      ((t.bufferOf (t.stateOf sample.labels)).getD .empty)

/-- **A sample comes** to the samples of its tenant. -/
theorem insertSample_items [DecidableEq ν] {F : Floats ν} {sub : Release} {t : TenantSeries ν}
    (ht : t.Buffered) {sample : MetricSample ν} (hmatches : t.Matches sample) {c : Change ν}
    (h : t.insertSample F bits sub sample = some c) :
    c.series.Buffered ∧ ∃ value, t.storedValue F sample = some value ∧
      c.series.itemsOf = t.itemsOf + {(sample.labels, sample.tsNs, value)} := by
  obtain ⟨⟨id, opened⟩, hfor, h⟩ := Option.bind_eq_some_iff.1 h
  obtain ⟨⟨value, state, resolved⟩, hresolve, h⟩ := Option.bind_eq_some_iff.1 h
  obtain ⟨storage, hstorage, h⟩ := Option.bind_eq_some_iff.1 h
  obtain ⟨grown, -, h⟩ := Option.bind_eq_some_iff.1 h
  obtain rfl := Option.some.inj h
  have hopened := opened_of_bufferFor (fun id => buffer_mem ht) hfor
  obtain ⟨hstates, hbuffers, hid, hkind⟩ := resolve_spec hresolve
  dsimp only at hstates hbuffers hid hkind hstorage
  have hbefore : storage = (t.bufferOf (t.stateOf sample.labels)).getD .empty := by
    rw [hbuffers, hopened.lookup] at hstorage
    exact (Option.some.inj hstorage).symm
  obtain ⟨hentries, harena, -⟩ := clearReservation_states
    { resolved with
      states := resolved.states.insert sample.labels (state.advance sample.tsNs)
      buffers := resolved.buffers.insert id (record storage state.lastTs sample.tsNs value) }
    sample.labels
  have hinsert := hentries.trans (congrArg (AList.insert sample.labels _)
    (hstates.trans hopened.states))
  have hput := harena.trans (congrArg (AList.insert id _) hbuffers)
  refine ⟨hopened.buffered ht hinsert hid hput, value, ?_, ?_⟩
  · exact Option.bind_eq_some_iff.2 ⟨_, hfor, Option.bind_eq_some_iff.2 ⟨_, hresolve, rfl⟩⟩
  · have hitems := hopened.itemsOf ht hinsert hid hput
    have hshape : storage.Conforms value.kind := by
      rw [hbefore, hkind]
      exact hmatches.shape
    rw [record_items hshape, ← hbefore, add_comm (storage.items _), ← add_assoc] at hitems
    exact add_right_cancel hitems

theorem putBack_items {series : SnapshotSeries ν} {storage : SeriesBufferStorage ν}
    (hseries : series.Conforms (snapshotKind series))
    (hstorage : storage.Conforms (snapshotKind series)) (lastTs : Option Nanos) :
    ((putBack series lastTs storage).absorb series.bounds).items series.labels =
      storage.items series.labels + series.items :=
  @items_restoreSeries ν series ⟨lastTs, none, none, some storage, none⟩ _ hseries hstorage

/-- **A series of a snapshot goes back** to the samples of its tenant. -/
theorem restore_items {sub : Release} {c c' : Change ν} (hc : c.series.Buffered)
    {series : SnapshotSeries ν} (hseries : series.Conforms (snapshotKind series))
    (hstorage : ((c.series.bufferOf (c.series.stateOf series.labels)).getD .empty).Conforms
      (snapshotKind series)) (h : restore bits sub c series = some c') :
    c'.series.Buffered ∧ c'.series.itemsOf = c.series.itemsOf + series.items := by
  obtain ⟨⟨id, opened⟩, hfor, h⟩ := Option.bind_eq_some_iff.1 h
  obtain ⟨storage, hlookup, h⟩ := Option.bind_eq_some_iff.1 h
  obtain ⟨grown, -, h⟩ := Option.bind_eq_some_iff.1 h
  obtain rfl := Option.some.inj h
  have hopened := opened_of_bufferFor (fun id => buffer_mem hc) hfor
  have hbefore : storage = (c.series.bufferOf (c.series.stateOf series.labels)).getD .empty := by
    rw [hopened.lookup] at hlookup
    exact (Option.some.inj hlookup).symm
  have hinsert := congrArg (AList.insert series.labels
    { c.series.stateOf series.labels with bufferId := some id }) hopened.states
  refine ⟨hopened.buffered hc hinsert rfl rfl, ?_⟩
  have hitems : itemsOf { opened with
      states := opened.states.insert series.labels
        { c.series.stateOf series.labels with bufferId := some id }
      buffers := opened.buffers.insert id ((putBack series (c.series.stateOf series.labels).lastTs
        storage).absorb series.bounds) } + _ = _ := hopened.itemsOf hc hinsert rfl rfl
  rw [putBack_items hseries (hbefore ▸ hstorage), ← hbefore, add_comm (storage.items _),
    ← add_assoc] at hitems
  exact add_right_cancel hitems

/-! ### Flushes -/

/-- What a buffer's shape is. -/
theorem exists_conforms (storage : SeriesBufferStorage ν) : ∃ kind, storage.Conforms kind := by
  cases storage with
  | empty => exact ⟨.scalar, trivial⟩
  | histogram buffer => exact ⟨.histogram, rfl⟩
  | _ => exact ⟨.scalar, rfl⟩

/-- Each series of a list is of one shape. -/
def Uniform (list : List (SnapshotSeries ν)) : Prop :=
  ∀ series ∈ list, series.Conforms (snapshotKind series)

theorem Uniform.append {first second : List (SnapshotSeries ν)} (h : Uniform first)
    (h' : Uniform second) : Uniform (first ++ second) :=
  fun series hseries => (List.mem_append.1 hseries).elim (h series) (h' series)

/-- The samples of an entry whose buffer was not taken yet. -/
def left (buffers : Table ℕ (SeriesBufferStorage ν)) (entry : (_ : SeriesLabels) × SeriesState ν) :
    Multiset (StoredSample ν) :=
  (entry.2.bufferId.bind fun id => buffers.lookup id).elim 0 fun storage => storage.items entry.1

/-- **A flush takes the samples of one series.** -/
theorem takeBuffer_items (taken : Taken ν) (hlist : Uniform taken.list)
    (entry : (_ : SeriesLabels) × SeriesState ν) :
    Uniform (takeBuffer bits taken entry).list ∧
      snapshotItems (takeBuffer bits taken entry).list =
        snapshotItems taken.list + left taken.buffers entry := by
  cases hid : entry.2.bufferId with
  | none =>
    have htaken : takeBuffer bits taken entry = taken := by rw [takeBuffer, hid]
    have hleft : left taken.buffers entry = 0 := by rw [left, hid]; rfl
    rw [htaken, hleft, add_zero]
    exact ⟨hlist, rfl⟩
  | some id =>
    cases hlookup : taken.buffers.lookup id with
    | none =>
      have htaken : takeBuffer bits taken entry = taken := by simp only [takeBuffer, hid, hlookup]
      have hleft : left taken.buffers entry = 0 := by
        rw [left, hid, Option.bind_some, hlookup]
        rfl
      rw [htaken, hleft, add_zero]
      exact ⟨hlist, rfl⟩
    | some storage =>
      have hleft : left taken.buffers entry = storage.items entry.1 := by
        rw [left, hid, Option.bind_some, hlookup]
        rfl
      obtain ⟨kind, hkind⟩ := exists_conforms storage
      have hspec := @ofState_spec ν entry.1 kind ⟨entry.2.lastTs, none, none, some storage, none⟩
        hkind
      rw [hleft]
      simp only [takeBuffer, hid, hlookup]
      split at hspec
      · rename_i series hseries
        obtain ⟨-, hitems, hconforms⟩ := hspec
        have hsame : snapshotKind series = kind := by
          rw [snapshotKind, isHistogram_of_conforms hconforms]
          cases kind <;> rfl
        rw [hseries]
        refine ⟨hlist.append fun other hother => ?_, ?_⟩
        · rw [List.mem_singleton.1 hother, hsame]
          exact hconforms
        · have hone : snapshotItems [series] = storage.items entry.1 :=
            (add_zero _).trans hitems
          rw [snapshotItems_append, hone]
      · rename_i hnone
        have hzero : storage.items entry.1 = 0 := hspec
        rw [hnone, hzero, add_zero]
        exact ⟨hlist, rfl⟩

theorem mem_sum {list : List (Multiset ℕ)} {ids : Multiset ℕ} (hids : ids ∈ list) {id : ℕ}
    (h : id ∈ ids) : id ∈ list.sum := by
  induction list with
  | nil => exact absurd hids List.not_mem_nil
  | cons first list ih =>
    rw [List.sum_cons]
    rcases List.mem_cons.1 hids with rfl | hrest
    · exact Multiset.mem_add.2 (.inl h)
    · exact Multiset.mem_add.2 (.inr (ih hrest))

/-- The buffers of the other series stay. -/
theorem takeBuffer_lookup {taken : Taken ν} {entry : (_ : SeriesLabels) × SeriesState ν}
    {rest : Multiset ℕ}
    (h : idOf entry.2.bufferId + rest = tally (fun id _ => {id}) taken.buffers) {number : ℕ}
    (hnumber : number ∈ rest) :
    (takeBuffer bits taken entry).buffers.lookup number = taken.buffers.lookup number := by
  cases hid : entry.2.bufferId with
  | none => rw [takeBuffer, hid]
  | some id =>
    have hne : number ≠ id := by
      rintro rfl
      have hnodup : (taken.buffers.keys : Multiset ℕ).Nodup := taken.buffers.nodupKeys
      rw [← Table.tally_singleton, ← h, hid] at hnodup
      exact Multiset.disjoint_left.1 (Multiset.nodup_add.1 hnodup).2.2
        (Multiset.mem_singleton_self number) hnumber
    cases hlookup : taken.buffers.lookup id with
    | none => simp only [takeBuffer, hid, hlookup]
    | some storage =>
      have herased := AList.lookup_erase_ne (s := taken.buffers) hne
      simp only [takeBuffer, hid, hlookup]
      split <;> exact herased

/-- **A flush takes the samples of a tenant.** -/
theorem takeBuffers_items {t : TenantSeries ν} (ht : t.Buffered) :
    Uniform (t.takeBuffers bits).list ∧ snapshotItems (t.takeBuffers bits).list = t.itemsOf := by
  have hfold : ∀ (entries : List ((_ : SeriesLabels) × SeriesState ν)) (taken : Taken ν),
      (entries.map fun e => idOf e.2.bufferId).sum = tally (fun id _ => {id}) taken.buffers →
      Uniform taken.list → Uniform (entries.foldl (takeBuffer bits) taken).list ∧
        snapshotItems (entries.foldl (takeBuffer bits) taken).list =
          snapshotItems taken.list + (entries.map (left taken.buffers)).sum := by
    intro entries
    induction entries with
    | nil => exact fun taken _ hlist => ⟨hlist, (add_zero _).symm⟩
    | cons entry entries ih =>
      intro taken hids hlist
      rw [List.map_cons, List.sum_cons] at hids
      obtain ⟨huniform, hitems⟩ := @takeBuffer_items ν bits taken hlist entry
      obtain ⟨hrest, -⟩ := @takeBuffer_spec ν bits taken entry.1 entry.2 _ hids
      obtain ⟨hall, hsum⟩ := ih _ hrest huniform
      refine ⟨hall, ?_⟩
      -- the buffers of the others are still there
      have hothers : entries.map (left (takeBuffer bits taken entry).buffers) =
          entries.map (left taken.buffers) := by
        refine List.map_congr_left fun other hother => ?_
        rw [left, left]
        cases hother_id : other.2.bufferId with
        | none => rfl
        | some number =>
          have hmem : number ∈ (entries.map fun e => idOf e.2.bufferId).sum := by
            refine mem_sum (List.mem_map.2 ⟨other, hother, rfl⟩) ?_
            rw [hother_id]
            exact Multiset.mem_singleton_self number
          rw [Option.bind_some, Option.bind_some, takeBuffer_lookup hids hmem]
      rw [List.foldl_cons, hsum, hitems, hothers, List.map_cons, List.sum_cons, add_assoc]
  have htaken := hfold t.states.entries ⟨t.buffers, [], 0⟩ ht.ids
    fun _ hseries => absurd hseries List.not_mem_nil
  exact ⟨htaken.1, htaken.2.trans (zero_add _)⟩

end TenantSeries

/-! ### The memtable -/

/-- A sample of a tenant. -/
abbrev Item (ν : Type) := String × StoredSample ν

/-- Samples as those of a tenant. -/
def tagged (tenant : String) (items : Multiset (StoredSample ν)) : Multiset (Item ν) :=
  items.map (Prod.mk tenant)

theorem tagged_add (tenant : String) (first second : Multiset (StoredSample ν)) :
    tagged tenant (first + second) = tagged tenant first + tagged tenant second :=
  Multiset.map_add _ _ _

/-- The samples of a snapshot. -/
def flying (snapshot : SeriesSnapshot ν) : Multiset (Item ν) :=
  tally (fun tenant list => tagged tenant (snapshotItems list)) snapshot

/-- Each series of a snapshot is of one shape. -/
def EachUniform (snapshot : SeriesSnapshot ν) : Prop :=
  ∀ tenant list, snapshot.lookup tenant = some list → TenantSeries.Uniform list

namespace SeriesMemTable

/-- The samples in the buffers. -/
def live (m : SeriesMemTable ν) : Multiset (Item ν) :=
  tally (fun tenant t => tagged tenant t.itemsOf) m.inner

/-- **The samples that the memtable holds.** -/
def held (m : SeriesMemTable ν) : Multiset (Item ν) := m.live + m.flushing.elim 0 flying

/-- The buffers of every tenant are in its index. -/
def AllBuffered (m : SeriesMemTable ν) : Prop := ∀ tenant, (m.tenantOf tenant).Buffered

theorem allBuffered_new : (.new : SeriesMemTable ν).AllBuffered := fun _ => ⟨rfl⟩

theorem AllBuffered.put {m m' : SeriesMemTable ν} {tenant : String} {t : TenantSeries ν}
    (h : m.AllBuffered) (hinner : m'.inner = m.inner.insert tenant t) (ht : t.Buffered) :
    m'.AllBuffered := by
  intro other
  rw [tenantOf_insert hinner]
  split_ifs
  · exact ht
  · exact h other

/-- What the place of one tenant holds. -/
theorem live_put {m m' : SeriesMemTable ν} {tenant : String} {t : TenantSeries ν}
    (hinner : m'.inner = m.inner.insert tenant t) :
    m'.live + tagged tenant (m.tenantOf tenant).itemsOf = m.live + tagged tenant t.itemsOf := by
  rw [live, live, hinner, tally_insert, tenantOf,
    Table.tally_getD (f := fun tenant (t : TenantSeries ν) => tagged tenant t.itemsOf)
      (k := tenant) (d := .new) rfl m.inner]
  abel

/-- Samples that came to one tenant came to the memtable. -/
theorem live_of_put {m m' : SeriesMemTable ν} {tenant : String} {t : TenantSeries ν}
    (hinner : m'.inner = m.inner.insert tenant t) {items : Multiset (StoredSample ν)}
    (hitems : t.itemsOf = (m.tenantOf tenant).itemsOf + items) :
    m'.live = m.live + tagged tenant items := by
  have hput := live_put hinner
  rw [hitems, tagged_add, add_comm (tagged tenant (m.tenantOf tenant).itemsOf), ← add_assoc] at hput
  exact add_right_cancel hput

/-- A memtable whose samples are where they were. -/
def Steady (m m' : SeriesMemTable ν) : Prop :=
  m.AllBuffered → m'.AllBuffered ∧ m'.live = m.live ∧ m'.flushing = m.flushing

theorem steady_tenantWise :
    TenantWise (fun t t' : TenantSeries ν => t.Buffered → TenantSeries.Quiet t t') Steady where
  refl _ h := ⟨h, rfl, rfl⟩
  trans h h' hm := by
    obtain ⟨hmiddle, hlive, hflushing⟩ := h hm
    obtain ⟨hend, hlive', hflushing'⟩ := h' hmiddle
    exact ⟨hend, hlive'.trans hlive, hflushing'.trans hflushing⟩
  put hinner hflushing hquiet hm := by
    have ht := hquiet (hm _)
    have hitems : _ = _ + (0 : Multiset (StoredSample ν)) := ht.items.trans (add_zero _).symm
    have hlive := live_of_put hinner hitems
    exact ⟨hm.put hinner ht.buffered, hlive.trans (add_zero _), hflushing⟩
  count hinner hflushing hm :=
    ⟨fun tenant => by rw [tenantOf, hinner]; exact hm tenant, by rw [live, hinner]; rfl, hflushing⟩

/-! ### Samples that come and go back -/

section

variable [DecidableEq ν]

def received (F : Floats ν) (bits : ν → Word) : SeriesMemTable ν × ℕ → List (MetricSample ν) → Multiset (Item ν)
  | _, [] => 0
  | acc, sample :: samples =>
    (((acc.1.tenantOf sample.tenant).storedValue F sample).elim 0 fun value =>
        {(sample.tenant, sample.labels, sample.tsNs, value)}) +
      (insertSample saturating F bits acc sample).elim 0 fun acc => received F bits acc samples

/-- A sample of the shape of its buffer. -/
def MatchesSample (acc : SeriesMemTable ν × ℕ) (sample : MetricSample ν) : Prop :=
  (acc.1.tenantOf sample.tenant).Matches sample

variable {F : Floats ν}

/-- **Samples come** to those that are held. -/
theorem insert_live {acc acc' : SeriesMemTable ν × ℕ} {samples : List (MetricSample ν)}
    (hacc : acc.1.AllBuffered)
    (heach : Each (insertSample saturating F bits) MatchesSample acc samples)
    (h : samples.foldlM (insertSample saturating F bits) acc = some acc') :
    acc'.1.AllBuffered ∧ acc'.1.live = acc.1.live + received F bits acc samples ∧
      acc'.1.flushing = acc.1.flushing := by
  induction samples generalizing acc with
  | nil =>
    obtain rfl := Option.some.inj h
    exact ⟨hacc, (add_zero _).symm, rfl⟩
  | cons sample samples ih =>
    obtain ⟨middle, hone, hrest⟩ := Option.bind_eq_some_iff.1 h
    obtain ⟨c, hc, hmiddle⟩ := Option.bind_eq_some_iff.1 hone
    obtain ⟨hbuffered, value, hvalue, hitems⟩ :=
      TenantSeries.insertSample_items (hacc sample.tenant) heach.1 hc
    have hput : middle.1.inner = acc.1.inner.insert sample.tenant c.series := by
      rw [← Option.some.inj hmiddle]
      rfl
    have hflushing : middle.1.flushing = acc.1.flushing := by
      rw [← Option.some.inj hmiddle]
      rfl
    obtain ⟨hend, hlive, hkept⟩ := ih (hacc.put hput hbuffered) (heach.2 middle hone) hrest
    refine ⟨hend, ?_, hkept.trans hflushing⟩
    rw [hlive, live_of_put hput hitems, received, hvalue, hone, add_assoc]
    rfl

end

/-- A series of a snapshot that goes back to a buffer of its shape. -/
def MatchesSeries (c : Change ν) (series : SnapshotSeries ν) : Prop :=
  ((c.series.bufferOf (c.series.stateOf series.labels)).getD .empty).Conforms (snapshotKind series)

def MatchesList (bits : ν → Word) (acc : SeriesMemTable ν × ℕ)
    (entry : (_ : String) × List (SnapshotSeries ν)) : Prop :=
  Each (TenantSeries.restore bits saturating) MatchesSeries ⟨acc.1.tenantOf entry.1, 0, 0⟩ entry.2

/-- **The series of one tenant go back.** -/
theorem restoreTenant_live {acc acc' : SeriesMemTable ν × ℕ} (hacc : acc.1.AllBuffered)
    {entry : (_ : String) × List (SnapshotSeries ν)} (huniform : TenantSeries.Uniform entry.2)
    (hmatches : MatchesList bits acc entry)
    (h : restoreTenant saturating bits acc entry = some acc') :
    acc'.1.AllBuffered ∧ acc'.1.live = acc.1.live + tagged entry.1 (snapshotItems entry.2) ∧
      acc'.1.flushing = acc.1.flushing := by
  obtain ⟨c, hfold, h⟩ := Option.bind_eq_some_iff.1 h
  obtain rfl := Option.some.inj h
  obtain ⟨hbuffered, hitems⟩ := (Each.and_of_mem hmatches huniform).foldlM_adds
    (I := fun c => c.series.Buffered) (f := fun c => c.series.itemsOf)
    (fun c series c' hc hseries => TenantSeries.restore_items hc hseries.2 hseries.1)
    (hacc entry.1) hfold
  exact ⟨hacc.put rfl hbuffered, live_of_put rfl hitems, rfl⟩

/-- Every series of a snapshot that goes back does so to a buffer of its shape. -/
def MatchesSnapshot (bits : ν → Word) (m : SeriesMemTable ν) (snapshot : SeriesSnapshot ν) : Prop :=
  Each (restoreTenant saturating bits) (MatchesList bits) ({ m with flushing := none }, 0)
    snapshot.entries

/-- **A flush is aborted**: what it has taken is in the buffers again. -/
theorem abortFlush_live {m m' : SeriesMemTable ν} (hm : m.AllBuffered)
    {snapshot : SeriesSnapshot ν} (huniform : EachUniform snapshot)
    (hmatches : MatchesSnapshot bits m snapshot)
    (h : abortFlush saturating bits snapshot m = some m') :
    m'.AllBuffered ∧ m'.live = m.live + flying snapshot ∧ m'.flushing = none := by
  obtain ⟨acc, hfold, h⟩ := Option.bind_eq_some_iff.1 h
  obtain rfl := Option.some.inj h
  have hentries : ∀ entry ∈ snapshot.entries, TenantSeries.Uniform entry.2 :=
    fun entry hentry => huniform entry.1 entry.2 (AList.mem_lookup_iff.2 hentry)
  obtain ⟨⟨hbuffered, hflushing⟩, hlive⟩ := (hmatches.and_of_mem hentries).foldlM_adds
    (I := fun acc => acc.1.AllBuffered ∧ acc.1.flushing = none) (f := fun acc => acc.1.live)
    (d := fun entry => tagged entry.1 (snapshotItems entry.2))
    (fun acc entry acc' hacc hentry hone => by
      obtain ⟨hend, hlive, hkept⟩ := restoreTenant_live hacc.1 hentry.2 hentry.1 hone
      exact ⟨⟨hend, hkept.trans hacc.2⟩, hlive⟩) ⟨hm, rfl⟩ hfold
  exact ⟨hbuffered, hlive, hflushing⟩

/-! ### Samples that are taken -/

theorem uniform_takenOf {m : SeriesMemTable ν} (hm : m.AllBuffered) :
    EachUniform (m.takenOf bits) := by
  intro tenant list hlookup
  have hmem : (⟨tenant, list⟩ : (_ : String) × List (SnapshotSeries ν)) ∈
      (mapValues (fun _ (t : TenantSeries ν) => (t.takeBuffers bits).list) m.inner).entries :=
    List.mem_of_mem_filter (AList.mem_lookup_iff.1 hlookup)
  have htaken := AList.mem_lookup_iff.2 hmem
  rw [Option.mem_def, Table.lookup_mapValues] at htaken
  obtain ⟨t, ht, rfl⟩ := Option.map_eq_some_iff.1 htaken
  have hbuffered := hm tenant
  rw [tenantOf_of_lookup ht] at hbuffered
  exact (TenantSeries.takeBuffers_items hbuffered).1

theorem flying_takenOf {m : SeriesMemTable ν} (hm : m.AllBuffered) :
    flying (m.takenOf bits) = m.live := by
  have hempty : ∀ (tenant : String) (list : List (SnapshotSeries ν)), (!list.isEmpty) = false →
      tagged tenant (snapshotItems list) = 0 := by
    intro tenant list hlist
    cases list with
    | nil => rfl
    | cons => cases hlist
  rw [flying, takenOf, Table.tally_filter hempty, tally_mapValues, live]
  refine Table.tally_congr fun tenant t hentry => ?_
  have hbuffered := hm tenant
  rw [tenantOf_of_lookup (AList.mem_lookup_iff.2 hentry)] at hbuffered
  rw [(TenantSeries.takeBuffers_items hbuffered).2]

theorem uniform_foldIn {tenants : SeriesSnapshot ν} (h : EachUniform tenants)
    {entries : List ((_ : String) × List (SnapshotSeries ν))}
    (hentries : ∀ entry ∈ entries, TenantSeries.Uniform entry.2) :
    EachUniform (entries.foldl foldIn tenants) := by
  refine List.foldlRecOn entries foldIn (motive := EachUniform) h
    fun tenants htenants entry hentry tenant list hlookup => ?_
  rw [foldIn] at hlookup
  by_cases heq : tenant = entry.1
  · rw [heq, AList.lookup_insert] at hlookup
    obtain rfl := Option.some.inj hlookup
    refine (hentries entry hentry).append ?_
    cases hbefore : tenants.lookup entry.1 with
    | none => exact fun series hseries => absurd hseries List.not_mem_nil
    | some before => exact htenants entry.1 before hbefore
  · rw [AList.lookup_insert_ne heq] at hlookup
    exact htenants tenant list hlookup

/-- **A flush begins**: it takes all samples, behind those of a flush before it. -/
theorem beginFlush_live {sub : Release} {m m' : SeriesMemTable ν} (hm : m.AllBuffered)
    (huniform : ∀ snapshot, m.flushing = some snapshot → EachUniform snapshot)
    (h : beginFlush sub bits m = some m') :
    m'.AllBuffered ∧ m'.held = m.held ∧
      ∀ snapshot, m'.flushing = some snapshot → EachUniform snapshot := by
  obtain ⟨bytes, -, h⟩ := Option.bind_eq_some_iff.1 h
  obtain rfl := Option.some.inj h
  refine ⟨fun tenant => ?_, ?_, ?_⟩
  · rw [tenantOf, Table.lookup_mapValues]
    cases m.inner.lookup tenant with
    | none => exact ⟨rfl⟩
    | some t => exact TenantSeries.buffered_flushed t
  · have hlive : tally (fun tenant (t : TenantSeries ν) => tagged tenant t.flushed.itemsOf)
        m.inner = 0 := by
      have hzero : ∀ t : TenantSeries ν, t.flushed.itemsOf = 0 := by
        intro t
        rw [TenantSeries.itemsOf, TenantSeries.flushed, tally_mapValues]
        exact Table.tally_zero _
      simp only [hzero]
      exact Table.tally_zero _
    have hfold := tally_foldl_foldIn (f := fun tenant list => tagged tenant (snapshotItems list))
      (fun _ => rfl) (fun tenant first second => by rw [snapshotItems_append, tagged_add])
      (m.flushing.elim [] AList.entries) (m.takenOf bits)
    have hbefore : ((m.flushing.elim [] AList.entries).map
        fun entry => tagged entry.1 (snapshotItems entry.2)).sum = m.flushing.elim 0 flying := by
      cases m.flushing <;> rfl
    rw [hbefore] at hfold
    rw [held, live, tally_mapValues, hlive, zero_add, Option.elim_some, flying, hfold]
    change _ + flying (m.takenOf bits) = _
    rw [flying_takenOf hm, held, add_comm]
  · intro snapshot hsnapshot
    obtain rfl := Option.some.inj hsnapshot
    refine uniform_foldIn (uniform_takenOf hm) fun entry hentry => ?_
    cases hflushing : m.flushing with
    | none =>
      rw [hflushing] at hentry
      cases hentry
    | some before =>
      rw [hflushing] at hentry
      exact huniform before hflushing entry.1 entry.2 (AList.mem_lookup_iff.2 hentry)

end SeriesMemTable

/-! ### Histories -/

/-- A memtable, what it has received and what was committed of it. -/
structure History (ν : Type) where
  table : SeriesMemTable ν
  received : Multiset (Item ν)
  committed : Multiset (Item ν)

namespace History

def new : History ν := ⟨.new, 0, 0⟩

variable [DecidableEq ν] (F : Floats ν) (bits : ν → Word)

/-- A call, if it returns.  The snapshot of an aborted flush is the one that the memtable has. -/
def step (H : History ν) (event : Event ν) : Option (History ν) := do
  let table ← Arena.step F bits saturating H.table event
  match event with
  | .insert samples =>
    some ⟨table, H.received + SeriesMemTable.received F bits (H.table, 0) samples, H.committed⟩
  | .commitFlush =>
    some ⟨table, H.received, H.committed + H.table.flushing.elim 0 flying⟩
  | .abortFlush snapshot =>
    if H.table.flushing.map AList.entries = some snapshot.entries then
      some { H with table := table }
    else none
  | _ => some { H with table := table }

/-- **When a call loses nothing**: each sample finds its buffer of its shape, and so does each series
that goes back. -/
def Shaped (H : History ν) : Event ν → Prop
  | .insert samples =>
    Each (SeriesMemTable.insertSample saturating F bits) SeriesMemTable.MatchesSample (H.table, 0)
      samples
  | .abortFlush snapshot => H.table.MatchesSnapshot bits snapshot
  | _ => True

end History

structure Conserved (H : History ν) : Prop where
  buffered : H.table.AllBuffered
  uniform : ∀ snapshot, H.table.flushing = some snapshot → EachUniform snapshot
  balance : H.received = H.committed + H.table.held

namespace Conserved

theorem new : Conserved (.new : History ν) :=
  ⟨SeriesMemTable.allBuffered_new, fun _ => nofun, rfl⟩

/-- A call that leaves the samples where they are. -/
theorem steady {H : History ν} (h : Conserved H) {table : SeriesMemTable ν}
    (hsteady : SeriesMemTable.Steady H.table table) : Conserved { H with table := table } := by
  obtain ⟨hbuffered, hlive, hflushing⟩ := hsteady h.buffered
  refine ⟨hbuffered, ?_, ?_⟩
  · rw [hflushing]
    exact h.uniform
  · rw [SeriesMemTable.held, hlive, hflushing]
    exact h.balance

variable [DecidableEq ν] {F : Floats ν}

/-- **A call** loses nothing that was received. -/
theorem step {H H' : History ν} (h : Conserved H) {event : Event ν}
    (hshaped : H.Shaped F bits event) (hstep : H.step F bits event = some H') : Conserved H' := by
  have hwise := @SeriesMemTable.steady_tenantWise ν
  obtain ⟨table, htable, hstep⟩ := Option.bind_eq_some_iff.1 hstep
  cases event with
  | admitRequest groups maxActive cutoff =>
    obtain rfl := Option.some.inj hstep
    obtain ⟨result, hresult, rfl⟩ := Option.map_eq_some_iff.1 htable
    refine h.steady (hwise.admitRequest (fun t ht => TenantSeries.evictIdleLocked_quiet ht cutoff)
      (fun t labels ht => ?_) (fun t admittedTs labels ht => ?_) hresult)
    · exact List.foldlRecOn labels TenantSeries.create (b := ⟨t, 0, 0⟩)
        (motive := fun c => TenantSeries.Quiet t c.series) (.refl ht)
        fun c hc labels _ => TenantSeries.create_quiet hc labels
    · exact List.foldlRecOn labels _ (motive := fun t' => TenantSeries.Quiet t t') (.refl ht)
        fun t' ht' labels _ => ht'.congr rfl rfl
  | commitAdmission reserved =>
    obtain rfl := Option.some.inj hstep
    obtain rfl := Option.some.inj htable
    exact h.steady (hwise.commitAdmission
      (fun t labels ht => TenantSeries.commitAdmission_quiet ht labels) reserved)
  | rollbackAdmission reserved =>
    obtain rfl := Option.some.inj hstep
    exact h.steady (hwise.rollbackAdmission
      (fun t labels ht => TenantSeries.rollbackAdmission_quiet ht labels) htable)
  | insert samples =>
    obtain rfl := Option.some.inj hstep
    obtain ⟨acc, hfold, hacc⟩ := Option.bind_eq_some_iff.1 htable
    obtain rfl := Option.some.inj hacc
    obtain ⟨hbuffered, hlive, hflushing⟩ := SeriesMemTable.insert_live h.buffered hshaped hfold
    refine ⟨hbuffered, fun snapshot hsnapshot => ?_, ?_⟩
    · exact h.uniform snapshot (hflushing.symm.trans hsnapshot)
    · have hheld : ({ acc.1 with innerBytes := acc.1.innerBytes + acc.2 } : SeriesMemTable ν).held =
          acc.1.live + acc.1.flushing.elim 0 flying := rfl
      rw [hheld, hlive, hflushing, h.balance, SeriesMemTable.held, add_right_comm H.table.live,
        add_assoc]
  | beginFlush =>
    obtain rfl := Option.some.inj hstep
    obtain ⟨hbuffered, hheld, huniform⟩ :=
      SeriesMemTable.beginFlush_live h.buffered h.uniform htable
    exact ⟨hbuffered, huniform, by rw [hheld]; exact h.balance⟩
  | commitFlush =>
    obtain rfl := Option.some.inj hstep
    obtain rfl := Option.some.inj htable
    refine ⟨h.buffered, fun _ => nofun, ?_⟩
    have hheld : H.table.commitFlush.held = H.table.live := add_zero _
    rw [hheld, h.balance, SeriesMemTable.held, add_assoc, add_comm H.table.live]
  | abortFlush snapshot =>
    dsimp only at hstep
    split_ifs at hstep with hentries
    obtain rfl := Option.some.inj hstep
    have hflushing : H.table.flushing = some snapshot := by
      obtain ⟨taken, htaken, heq⟩ := Option.map_eq_some_iff.1 hentries
      rw [htaken, AList.ext heq]
    obtain ⟨hbuffered, hlive, hnone⟩ := SeriesMemTable.abortFlush_live h.buffered
      (h.uniform snapshot hflushing) hshaped htable
    refine ⟨hbuffered, fun other hother => ?_, ?_⟩
    · rw [hnone] at hother
      cases hother
    · rw [SeriesMemTable.held, hlive, hnone, h.balance, SeriesMemTable.held, hflushing]
      abel
  | retireFlushed snapshot =>
    obtain rfl := Option.some.inj hstep
    refine h.steady (hwise.retireFlushed (fun t labels ht => ?_) htable)
    exact List.foldlRecOn labels TenantSeries.retire (b := ⟨t, 0, 0⟩)
      (motive := fun c => TenantSeries.Quiet t c.series) (.refl ht)
      fun c hc labels _ => TenantSeries.retire_quiet hc labels
  | evictIdle cutoff =>
    obtain rfl := Option.some.inj hstep
    exact h.steady (hwise.evictIdle
      (fun t ht => TenantSeries.evictIdleLocked_quiet ht cutoff) htable)

end Conserved

/-- **No sample is lost in any run** in which each finds a buffer of its shape. -/
theorem conserved [DecidableEq ν] (F : Floats ν) (bits : ν → Word) {events : List (Event ν)}
    {H : History ν} (heach : Each (History.step F bits) (History.Shaped F bits) .new events)
    (h : events.foldlM (History.step F bits) .new = some H) :
    H.received = H.committed + H.table.held :=
  (Each.foldlM (I := Conserved) (fun _ _ _ hH hshaped hstep => hH.step hshaped hstep) .new heach
    h).balance

/-- A flush that is aborted: its sample goes back to where no other has come. -/
theorem conserved_aborted : ∃ H, [Event.insert [aSample], .beginFlush, .abortFlush aSnapshot].foldlM
    (History.step unitFloats fun _ => 0) .new = some H ∧
      H.received = H.committed + H.table.held := by
  have hrun : ([Event.insert [aSample], .beginFlush, .abortFlush aSnapshot].foldlM
      (History.step unitFloats fun _ => 0) .new).isSome = true := by decide +kernel
  obtain ⟨H, hH⟩ := Option.isSome_iff_exists.1 hrun
  have hmatches : ∀ taken, [Event.insert [aSample], .beginFlush].foldlM
      (History.step unitFloats fun _ => 0) .new = some taken →
      taken.table.MatchesSnapshot (fun _ => 0) aSnapshot := by
    intro taken htaken
    have hnone : ([Event.insert [aSample], .beginFlush].foldlM
        (History.step unitFloats fun _ => 0) .new).map (fun H => ((H.table.tenantOf "acme").bufferOf
          ((H.table.tenantOf "acme").stateOf aSample.labels)).isNone) = some true := by
      decide +kernel
    rw [htaken] at hnone
    have hbuffer := Option.isNone_iff_eq_none.1 (Option.some.inj hnone)
    refine ⟨⟨?_, fun _ _ => trivial⟩, fun _ _ => trivial⟩
    show (((taken.table.tenantOf "acme").bufferOf
      ((taken.table.tenantOf "acme").stateOf aSample.labels)).getD .empty).Conforms _
    rw [hbuffer]
    trivial
  have heach : Each (History.step unitFloats fun _ => 0) (History.Shaped unitFloats fun _ => 0)
      .new [Event.insert [aSample], .beginFlush, .abortFlush aSnapshot] := by
    refine ⟨⟨⟨trivial, fun _ _ => trivial⟩, fun _ _ => trivial⟩, fun first hfirst =>
      ⟨trivial, fun taken htaken => ⟨hmatches taken ?_, fun _ _ => trivial⟩⟩⟩
    simp only [List.foldlM_cons, List.foldlM_nil, hfirst, htaken, Option.bind_eq_bind,
      Option.bind_some, Option.pure_def]
  exact ⟨H, hH, conserved unitFloats (fun _ => 0) heach hH⟩

/-- A point of a histogram that has the name of the gauge. -/
def aPoint : MetricSample Unit :=
  { aSample with value := .histogram ⟨[()], [1, 1], none, 1⟩, kind := .cumulative }

/-- **A point takes the place of a number**: two samples came, one is left. -/
theorem overwritten : ∃ H, [Event.insert [aSample], .insert [aPoint]].foldlM
    (History.step unitFloats fun _ => 0) .new = some H ∧
      H.received ≠ H.committed + H.table.held := by
  have hrun : ([Event.insert [aSample], .insert [aPoint]].foldlM
      (History.step unitFloats fun _ => 0) .new).map
        (fun H => (H.received.card, H.committed.card, H.table.held.card)) = some (2, 0, 1) := by
    decide +kernel
  obtain ⟨H, hH, hcards⟩ := Option.map_eq_some_iff.1 hrun
  obtain ⟨hreceived, hrest⟩ := Prod.mk.inj hcards
  obtain ⟨hcommitted, hheld⟩ := Prod.mk.inj hrest
  refine ⟨H, hH, fun hbalance => ?_⟩
  have hcard := congrArg Multiset.card hbalance
  rw [Multiset.card_add] at hcard
  omega

end Arena

end Metrics

end Obsy
