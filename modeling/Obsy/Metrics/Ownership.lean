import Obsy.Metrics.Growth
import Obsy.Visibility.SeriesTable

/-!
# What the entries of an index own

A buffer is in the arena of its tenant, and so is the running total of a histogram; an entry of the
index has their ids.

* `TenantSeries.Buffered`, `TenantSeries.Owns`: each id of an arena belongs to one entry.
* `TenantSeries.Grows`, `TenantSeries.Shrinks`: what a change brings or takes, with the bytes and
  the entries that are charged for it.
* `insertSample_exact`, `restore_exact`: samples that come, under the conditions they need.
* `evictIdleLocked_shrinks`, `retire_shrinks`, `rollbackAdmission_shrinks`, `flushed_shrinks`: what
  leaves.
-/

namespace Obsy

namespace Metrics

namespace Arena

open Part (Nanos)
open Runs (Table Exact)
open Runs.Table (tally mapValues tally_insert tally_erase)

variable {ν : Type} {bits : ν → Word}

/-! ### Ownership -/

def idOf (id : Option ℕ) : Multiset ℕ := id.elim 0 fun id => {id}

namespace TenantSeries

/-- What the entries of the index count for. -/
def entryBytes (t : TenantSeries ν) : ℕ := tally (fun labels _ => labelAllocBytes labels) t.states

/-- What the buffers count for. -/
def bufferBytes (bits : ν → Word) (t : TenantSeries ν) : ℕ :=
  tally (fun _ storage => accountedBytes bits storage) t.buffers

/-- The entries of the index. -/
def count (t : TenantSeries ν) : ℕ := tally (fun _ _ => 1) t.states

/-- Each buffer belongs to one entry of the index, and each entry with an id has its buffer. -/
structure Buffered (t : TenantSeries ν) : Prop where
  ids : tally (fun _ state => idOf state.bufferId) t.states = tally (fun id _ => {id}) t.buffers

/-- The same of the histogram totals, too. -/
structure Owns (t : TenantSeries ν) : Prop extends Buffered t where
  totals : tally (fun _ state => idOf state.histogramTotalId) t.states =
    tally (fun id _ => {id}) t.histogramTotals

theorem mem_of_owned {α : Type} {arena : Table ℕ α} {ids : SeriesState ν → Option ℕ}
    {states : Table SeriesLabels (SeriesState ν)}
    (h : tally (fun _ state => idOf (ids state)) states = tally (fun id _ => {id}) arena)
    {labels : SeriesLabels} {state : SeriesState ν} (hstate : states.lookup labels = some state)
    {id : ℕ} (hid : ids state = some id) : id ∈ arena := by
  rw [Table.tally_singleton, tally_erase _ hstate, hid] at h
  have hmem : id ∈ (arena.keys : Multiset ℕ) := by
    rw [← h]
    exact Multiset.mem_add.2 (.inl (Multiset.mem_singleton_self id))
  exact hmem

theorem freshId_notMem {live : List ℕ} {fuel last id : ℕ} (h : freshId live fuel last = some id) :
    id ∉ live := by
  induction fuel generalizing last with
  | zero => cases h
  | succ fuel ih =>
    simp only [freshId] at h
    split_ifs at h with hused
    · exact ih h
    · obtain rfl := Option.some.inj h
      exact fun hmem => hused (.inr hmem)

/-- A series whose buffer was found or made. -/
structure Opened (t : TenantSeries ν) (state : SeriesState ν) (id : ℕ)
    (opened : TenantSeries ν) : Prop where
  states : opened.states = t.states
  reservations : opened.reservations = t.reservations
  totals : opened.histogramTotals = t.histogramTotals
  lookup : opened.buffers.lookup id = some ((t.bufferOf state).getD .empty)
  others : ∀ other ≠ id, opened.buffers.lookup other = t.buffers.lookup other
  ids : idOf state.bufferId = (t.bufferOf state).elim 0 fun _ => {id}
  rest : ∀ {M : Type} [AddCommMonoid M] (f : ℕ → SeriesBufferStorage ν → M),
    tally f t.buffers = (t.bufferOf state).elim 0 (f id) + tally f (opened.buffers.erase id)

theorem opened_of_bufferFor {t opened : TenantSeries ν} {state : SeriesState ν} {id : ℕ}
    (howned : ∀ id, state.bufferId = some id → id ∈ t.buffers)
    (h : t.bufferFor state = some (id, opened)) : Opened t state id opened := by
  rw [bufferFor] at h
  cases hbuffer : state.bufferId with
  | some other =>
    rw [hbuffer] at h
    obtain ⟨rfl, rfl⟩ := Prod.mk.inj (Option.some.inj h)
    obtain ⟨storage, hstorage⟩ := Option.isSome_iff_exists.1
      (AList.lookup_isSome.2 (howned other hbuffer))
    have hof : t.bufferOf state = some storage := by rw [bufferOf, hbuffer]; exact hstorage
    refine ⟨rfl, rfl, rfl, by rw [hof]; exact hstorage, fun _ _ => rfl,
      by rw [hof, hbuffer]; rfl, fun f => ?_⟩
    rw [hof]
    exact tally_erase f hstorage
  | none =>
    rw [hbuffer] at h
    obtain ⟨fresh, hfresh, hopened⟩ := Option.map_eq_some_iff.1 h
    obtain ⟨rfl, rfl⟩ := Prod.mk.inj hopened
    have hnone : t.buffers.lookup fresh = none :=
      AList.lookup_eq_none.2 (freshId_notMem hfresh)
    have hof : t.bufferOf state = none := by rw [bufferOf, hbuffer]; rfl
    refine ⟨rfl, rfl, rfl, by rw [hof]; exact AList.lookup_insert _,
      fun _ hne => AList.lookup_insert_ne hne, by rw [hof, hbuffer]; rfl, fun f => ?_⟩
    rw [hof, Option.elim_none, zero_add, Table.erase_insert, Table.erase_eq_self hnone]

theorem buffer_mem {t : TenantSeries ν} (ht : t.Buffered) {labels : SeriesLabels} {id : ℕ}
    (h : (t.stateOf labels).bufferId = some id) : id ∈ t.buffers := by
  rw [stateOf] at h
  cases hlookup : t.states.lookup labels with
  | none =>
    rw [hlookup] at h
    cases h
  | some state =>
    rw [hlookup] at h
    exact mem_of_owned ht.ids hlookup h

theorem total_mem {t : TenantSeries ν} (ht : t.Owns) {labels : SeriesLabels} {id : ℕ}
    (h : (t.stateOf labels).histogramTotalId = some id) : id ∈ t.histogramTotals := by
  rw [stateOf] at h
  cases hlookup : t.states.lookup labels with
  | none =>
    rw [hlookup] at h
    cases h
  | some state =>
    rw [hlookup] at h
    exact mem_of_owned ht.totals hlookup h

section

variable [DecidableEq ν] (F : Floats ν)

/-- The point that is stored of an observation. -/
def storedPoint (t : TenantSeries ν) (state : SeriesState ν) (kind : SampleKind)
    (point : HistogramPoint ν) : HistogramPoint ν :=
  if kind = .delta then
    (state.histogramTotalId.bind fun id => t.histogramTotals.lookup id).elim point
      fun total => total.accumulate F point
  else point

/-- A sample whose value was folded into the total of its series. -/
structure Resolved (t : TenantSeries ν) (state : SeriesState ν) (sample : MetricSample ν)
    (value : MetricValue ν) (state' : SeriesState ν) (resolved : TenantSeries ν) : Prop where
  states : resolved.states = t.states
  buffers : resolved.buffers = t.buffers
  reservations : resolved.reservations = t.reservations
  bufferId : state'.bufferId = state.bufferId
  lastTs : state'.lastTs = state.lastTs
  scalar : ∀ {v}, value = .scalar v → ∃ raw, sample.value = .scalar raw
  histogram : ∀ {p}, value = .histogram p →
    ∃ point, sample.value = .histogram point ∧ p = t.storedPoint F state sample.kind point
  ids : (sample.value.kind = .scalar → sample.kind = .delta → state.histogramTotalId = none) →
    ∀ rest, idOf state.histogramTotalId + rest = tally (fun id _ => {id}) t.histogramTotals →
      idOf state'.histogramTotalId + rest = tally (fun id _ => {id}) resolved.histogramTotals

theorem resolved_of_resolve {t resolved : TenantSeries ν} {state state' : SeriesState ν}
    {sample : MetricSample ν} {value : MetricValue ν}
    (howned : ∀ id, state.histogramTotalId = some id → id ∈ t.histogramTotals)
    (h : t.resolve F state sample = some (value, state', resolved)) :
    Resolved F t state sample value state' resolved := by
  obtain ⟨tenant, labels, ts, raw, kind⟩ := sample
  cases raw with
  | scalar raw =>
    cases kind with
    | delta =>
      obtain ⟨rfl, hrest⟩ := Prod.mk.inj (Option.some.inj h)
      obtain ⟨rfl, rfl⟩ := Prod.mk.inj hrest
      refine ⟨rfl, rfl, rfl, rfl, rfl, fun _ => ⟨raw, rfl⟩, nofun,
        fun hscalar rest hids => ?_⟩
      rw [hscalar rfl rfl] at hids
      exact hids
    | _ =>
      obtain ⟨rfl, hrest⟩ := Prod.mk.inj (Option.some.inj h)
      obtain ⟨rfl, rfl⟩ := Prod.mk.inj hrest
      exact ⟨rfl, rfl, rfl, rfl, rfl, fun _ => ⟨raw, rfl⟩, nofun, fun _ _ hids => hids⟩
  | histogram point =>
    cases kind with
    | delta =>
      cases htotal : state.histogramTotalId with
      | some id =>
        simp only [resolve, htotal] at h
        obtain ⟨rfl, hrest⟩ := Prod.mk.inj (Option.some.inj h)
        obtain ⟨rfl, rfl⟩ := Prod.mk.inj hrest
        obtain ⟨total, hlookup⟩ := Option.isSome_iff_exists.1
          (AList.lookup_isSome.2 (howned id htotal))
        refine ⟨rfl, rfl, rfl, rfl, rfl, nofun, fun hp => ⟨point, rfl, ?_⟩,
          fun _ rest hids => ?_⟩
        · rw [storedPoint, if_pos rfl, htotal]
          exact (MetricValue.histogram.inj hp).symm
        · rw [hids, tally_erase _ hlookup, tally_insert]
      | none =>
        simp only [resolve, htotal] at h
        obtain ⟨fresh, hfresh, hresolved⟩ := Option.map_eq_some_iff.1 h
        obtain ⟨rfl, hrest⟩ := Prod.mk.inj hresolved
        obtain ⟨rfl, rfl⟩ := Prod.mk.inj hrest
        have hnone := AList.lookup_eq_none.2 (freshId_notMem hfresh)
        refine ⟨rfl, rfl, rfl, rfl, rfl, nofun, fun hp => ⟨point, rfl, ?_⟩,
          fun _ rest hids => ?_⟩
        · rw [storedPoint, if_pos rfl, htotal]
          exact (MetricValue.histogram.inj hp).symm
        · rw [htotal, idOf, Option.elim_none, zero_add] at hids
          rw [tally_insert, Table.erase_eq_self hnone, ← hids]
          rfl
    | _ =>
      obtain ⟨rfl, hrest⟩ := Prod.mk.inj (Option.some.inj h)
      obtain ⟨rfl, rfl⟩ := Prod.mk.inj hrest
      exact ⟨rfl, rfl, rfl, rfl, rfl, nofun,
        fun hp => ⟨point, rfl, (MetricValue.histogram.inj hp).symm⟩, fun _ _ hids => hids⟩

/-- A sample that makes no buffer count for less, and leaves no total behind. -/
structure Fits (bits : ν → Word) (t : TenantSeries ν) (sample : MetricSample ν) : Prop where
  /-- The open stream's count can tell one more sample. -/
  roomy : ∀ value, sample.value = .scalar value →
    Roomy (t.stateOf sample.labels).lastTs sample.tsNs
      ((t.bufferOf (t.stateOf sample.labels)).getD .empty)
  /-- A delta does not take the place of a histogram's total. -/
  total : sample.value.kind = .scalar → sample.kind = .delta →
    (t.stateOf sample.labels).histogramTotalId = none
  /-- A point does not take the place of a stream that counts for more. -/
  stream : ∀ point buffer, sample.value = .histogram point →
    t.bufferOf (t.stateOf sample.labels) = some (.stream buffer) →
      streamBytes bits buffer ≤
        pointBytes (t.storedPoint F (t.stateOf sample.labels) sample.kind point)

end

/-- What the index and the buffers count for. -/
def weight (bits : ν → Word) (t : TenantSeries ν) : ℕ := t.entryBytes + t.bufferBytes bits

/-- Bytes and entries have come to a tenant. -/
structure Grows (bits : ν → Word) (t : TenantSeries ν) (bytes entries : ℕ)
    (t' : TenantSeries ν) : Prop where
  owns : t'.Owns
  weight : t'.weight bits = t.weight bits + bytes
  count : t'.count = t.count + entries

/-- Bytes and entries have left a tenant. -/
structure Shrinks (bits : ν → Word) (t : TenantSeries ν) (bytes entries : ℕ)
    (t' : TenantSeries ν) : Prop where
  owns : t'.Owns
  weight : t'.weight bits + bytes = t.weight bits
  count : t'.count + entries = t.count

/-- What the entry of a series adds to the index. -/
theorem entries_insert (t : TenantSeries ν) (labels : SeriesLabels) (state : SeriesState ν) :
    tally (fun labels _ => labelAllocBytes labels) (t.states.insert labels state) =
        t.entryBytes + (t.entryCharge labels).1 ∧
      tally (fun _ _ => 1) (t.states.insert labels state) = t.count + (t.entryCharge labels).2 := by
  have hbytes := Table.tally_split (fun labels (_ : SeriesState ν) => labelAllocBytes labels)
    t.states labels
  have hcount := Table.tally_split (fun _ (_ : SeriesState ν) => 1) t.states labels
  rw [tally_insert, tally_insert, entryBytes, count, hbytes, hcount, entryCharge]
  split_ifs with hmem
  · obtain ⟨old, hold⟩ := Option.isSome_iff_exists.1 (AList.lookup_isSome.2 hmem)
    simp [hold]
  · simp [AList.lookup_eq_none.2 hmem, add_comm]

/-- The buffer of a series has its entry. -/
theorem Opened.buffered {t opened t' : TenantSeries ν} {labels : SeriesLabels} {id : ℕ}
    {state : SeriesState ν} {after : SeriesBufferStorage ν} (ht : t.Buffered)
    (h : Opened t (t.stateOf labels) id opened)
    (hstates : t'.states = t.states.insert labels state) (hid : state.bufferId = some id)
    (hbuffers : t'.buffers = opened.buffers.insert id after) : t'.Buffered := by
  have hids := ht.ids
  rw [Table.tally_getD (f := fun _ (state : SeriesState ν) => idOf state.bufferId) (d := .new)
    (k := labels) rfl] at hids
  change idOf (t.stateOf labels).bufferId + _ = _ at hids
  rw [h.ids, h.rest] at hids
  refine ⟨?_⟩
  rw [hstates, hbuffers, tally_insert, tally_insert, hid]
  exact congrArg _ (add_left_cancel hids)

/-- The buffer of a series and its entry in place. -/
theorem Opened.grows {t opened t' : TenantSeries ν} {labels : SeriesLabels} {id : ℕ}
    {state : SeriesState ν} {after : SeriesBufferStorage ν} {grown : ℕ} (ht : t.Owns)
    (h : Opened t (t.stateOf labels) id opened)
    (hgrown : grown + accountedBytes bits ((t.bufferOf (t.stateOf labels)).getD .empty) =
      accountedBytes bits after)
    (hstates : t'.states = t.states.insert labels state) (hid : state.bufferId = some id)
    (hbuffers : t'.buffers = opened.buffers.insert id after)
    (htotals : ∀ rest, idOf (t.stateOf labels).histogramTotalId + rest =
        tally (fun id _ => {id}) t.histogramTotals →
      idOf state.histogramTotalId + rest = tally (fun id _ => {id}) t'.histogramTotals) :
    Grows bits t ((t.entryCharge labels).1 + grown) (t.entryCharge labels).2 t' := by
  obtain ⟨hbytes, hcount⟩ := entries_insert t labels state
  refine ⟨⟨h.buffered ht.toBuffered hstates hid hbuffers, ?_⟩, ?_, ?_⟩
  · have hids := ht.totals
    rw [Table.tally_getD (f := fun _ (state : SeriesState ν) => idOf state.histogramTotalId)
      (d := .new) (k := labels) rfl] at hids
    rw [hstates, tally_insert]
    exact htotals _ hids
  · have hbuffer : t.bufferBytes bits + grown = t'.bufferBytes bits := by
      rw [bufferBytes, h.rest, bufferBytes, hbuffers, tally_insert, ← hgrown]
      cases t.bufferOf (t.stateOf labels) with
      | none =>
        simp only [Option.elim_none, Option.getD_none, accountedBytes]
        omega
      | some storage =>
        simp only [Option.elim_some, Option.getD_some]
        omega
    rw [weight, weight, entryBytes, hstates, hbytes, ← hbuffer]
    omega
  · rw [count, hstates, hcount]

theorem clearReservation_states (t : TenantSeries ν) (labels : SeriesLabels) :
    (t.clearReservationAfterInsert labels).states = t.states ∧
      (t.clearReservationAfterInsert labels).buffers = t.buffers ∧
      (t.clearReservationAfterInsert labels).histogramTotals = t.histogramTotals := by
  rw [clearReservationAfterInsert]
  split_ifs <;> exact ⟨rfl, rfl, rfl⟩

/-- **One sample**: what is charged is what has come. -/
theorem insertSample_exact [DecidableEq ν] (F : Floats ν) {t : TenantSeries ν} (ht : t.Owns)
    {sample : MetricSample ν} (hfits : Fits F bits t sample) :
    Exact (fun sub => t.insertSample F bits sub sample)
      fun c => Grows bits t c.bytes c.entries c.series := by
  unfold insertSample
  refine Exact.bind (Q := fun r => Opened t (t.stateOf sample.labels) r.1 r.2)
    (.of_eq fun ⟨id, opened⟩ hr => opened_of_bufferFor (fun id => buffer_mem ht.toBuffered) hr) ?_
  rintro ⟨id, opened⟩ hopened
  dsimp only at hopened ⊢
  refine Exact.bind (Q := fun r => Resolved F opened
      { t.stateOf sample.labels with bufferId := some id } sample r.1 r.2.1 r.2.2)
    (.of_eq fun ⟨value, state, resolved⟩ hr => resolved_of_resolve F (fun id hid => ?_) hr) ?_
  · rw [hopened.totals]
    exact total_mem ht hid
  rintro ⟨value, state, resolved⟩ hresolved
  dsimp only at hresolved ⊢
  refine Exact.bind (Q := fun storage => storage =
      (t.bufferOf (t.stateOf sample.labels)).getD .empty)
    (.of_eq fun storage hstorage => ?_) ?_
  · rw [hresolved.buffers, hopened.lookup] at hstorage
    exact (Option.some.inj hstorage).symm
  rintro _ rfl
  refine Exact.bind (Exact.release ?_) fun grown hgrown => .of_some ?_
  · cases value with
    | scalar value =>
      obtain ⟨raw, hraw⟩ := hresolved.scalar rfl
      have hlast : state.lastTs = (t.stateOf sample.labels).lastTs := hresolved.lastTs
      rw [hlast]
      exact accountedBytes_append (hfits.roomy raw hraw) _
    | histogram point =>
      obtain ⟨raw, hraw, rfl⟩ := hresolved.histogram rfl
      refine accountedBytes_appendHistogram _ fun buffer hbuffer => ?_
      have hstream := hfits.stream raw buffer hraw
      rw [storedPoint, hopened.totals]
      refine hstream ?_
      cases hof : t.bufferOf (t.stateOf sample.labels) with
      | none => rw [hof] at hbuffer; cases hbuffer
      | some storage => rw [hof] at hbuffer; exact congrArg some hbuffer
  · obtain ⟨hstates, hbuffers, htotals⟩ := clearReservation_states
      { resolved with
        states := resolved.states.insert sample.labels (state.advance sample.tsNs)
        buffers := resolved.buffers.insert id (record _ state.lastTs sample.tsNs value) }
      sample.labels
    have hentry := congrArg (AList.insert sample.labels (state.advance sample.tsNs))
      (hresolved.states.trans hopened.states)
    refine hopened.grows ht hgrown (hstates.trans hentry) hresolved.bufferId (hbuffers.trans ?_) ?_
    · exact congrArg (AList.insert id _) hresolved.buffers
    · intro rest hids
      rw [htotals]
      exact hresolved.ids hfits.total rest (by rw [hopened.totals]; exact hids)

theorem Grows.refl {t : TenantSeries ν} (ht : t.Owns) : Grows bits t 0 0 t :=
  ⟨ht, (Nat.add_zero _).symm, (Nat.add_zero _).symm⟩

theorem Grows.trans {t t' t'' : TenantSeries ν} {bytes entries bytes' entries' : ℕ}
    (h : Grows bits t bytes entries t') (h' : Grows bits t' bytes' entries' t'') :
    Grows bits t (bytes + bytes') (entries + entries') t'' :=
  ⟨h'.owns, by rw [h'.weight, h.weight, Nat.add_assoc], by
    rw [h'.count, h.count, Nat.add_assoc]⟩

theorem Shrinks.refl {t : TenantSeries ν} (ht : t.Owns) : Shrinks bits t 0 0 t := ⟨ht, rfl, rfl⟩

theorem Shrinks.trans {t t' t'' : TenantSeries ν} {bytes entries bytes' entries' : ℕ}
    (h : Shrinks bits t bytes entries t') (h' : Shrinks bits t' bytes' entries' t'') :
    Shrinks bits t (bytes + bytes') (entries + entries') t'' :=
  ⟨h'.owns, by rw [← h.weight, ← h'.weight]; omega, by rw [← h.count, ← h'.count]; omega⟩

/-- **One series goes back**: what is charged is what has come, if its entry is there. -/
theorem restore_exact {t : TenantSeries ν} {c : Change ν} (h : Grows bits t c.bytes 0 c.series)
    {series : SnapshotSeries ν} (hmem : series.labels ∈ c.series.states) :
    Exact (fun sub => restore bits sub c series) fun c' => Grows bits t c'.bytes 0 c'.series ∧
      ∀ labels ∈ c.series.states, labels ∈ c'.series.states := by
  unfold restore
  refine Exact.bind (Q := fun r => Opened c.series (c.series.stateOf series.labels) r.1 r.2)
    (.of_eq fun ⟨id, opened⟩ hr =>
      opened_of_bufferFor (fun id => buffer_mem h.owns.toBuffered) hr) ?_
  rintro ⟨id, opened⟩ hopened
  dsimp only at hopened ⊢
  refine Exact.bind (Q := fun storage => storage =
      (c.series.bufferOf (c.series.stateOf series.labels)).getD .empty)
    (.of_eq fun storage hstorage => ?_) ?_
  · rw [hopened.lookup] at hstorage
    exact (Option.some.inj hstorage).symm
  rintro _ rfl
  refine Exact.bind (Exact.release (accountedBytes_putBack series _ _)) fun grown hgrown =>
    .of_some ⟨?_, ?_⟩
  · have hcharge : c.series.entryCharge series.labels = (0, 0) := if_pos hmem
    have habsorbed := hgrown.trans (accountedBytes_absorb _ series.bounds).symm
    have hentry := congrArg (AList.insert series.labels
      { c.series.stateOf series.labels with bufferId := some id }) hopened.states
    have hgrows : Grows bits c.series _ _ { opened with
        states := opened.states.insert series.labels
          { c.series.stateOf series.labels with bufferId := some id }
        buffers := opened.buffers.insert id _ } :=
      hopened.grows h.owns habsorbed hentry rfl rfl fun rest hids => by
        rw [← hopened.totals] at hids
        exact hids
    have htrans := h.trans hgrows
    rw [hcharge] at htrans ⊢
    simpa only [Nat.add_zero, Nat.zero_add] using htrans
  · intro labels hlabels
    exact (AList.mem_insert _).2 (.inr (hopened.states ▸ hlabels))

/-! ### Entries that leave -/

theorem accountedBytes_of_not_hasSamples {storage : SeriesBufferStorage ν}
    (h : storage.hasSamples = false) : accountedBytes bits storage = 0 := by
  cases storage with
  | empty => rfl
  | inline ts value => cases h
  | stream buffer =>
    simp only [SeriesBufferStorage.hasSamples, SeriesBuffer.hasSamples, Bool.or_eq_false_iff,
      Bool.not_eq_false', List.isEmpty_iff] at h
    obtain ⟨⟨hclosed, hopened⟩, hspill⟩ := h
    simp [accountedBytes, hclosed, hopened, hspill, openBytes, encoderOf, Encoder.ofSamples,
      Encoder.isEmpty, Encoder.new]
  | histogram buffer =>
    simp only [SeriesBufferStorage.hasSamples, Bool.not_eq_false', List.isEmpty_iff] at h
    simp [accountedBytes, h]

/-- What is left of an arena when the id of an entry is freed. -/
theorem ids_erase {α : Type} {arena : Table ℕ α} {id : Option ℕ} {rest : Multiset ℕ}
    (h : idOf id + rest = tally (fun id _ => {id}) arena) :
    rest = tally (fun id _ => {id}) (id.elim arena fun id => arena.erase id) := by
  cases id with
  | none => simpa [idOf] using h
  | some id =>
    have hmem : id ∈ (arena.keys : Multiset ℕ) := by
      rw [← Table.tally_singleton, ← h]
      exact Multiset.mem_add.2 (.inl (Multiset.mem_singleton_self id))
    obtain ⟨value, hvalue⟩ := Option.isSome_iff_exists.1 (AList.lookup_isSome.2 hmem)
    rw [tally_erase _ hvalue] at h
    exact add_left_cancel h

/-- An entry leaves with its buffer. -/
theorem buffered_of_erase {t t' : TenantSeries ν} (ht : t.Buffered) {labels : SeriesLabels}
    {state : SeriesState ν} (hstate : t.states.lookup labels = some state)
    (hstates : t'.states = t.states.erase labels)
    (hbuffers : t'.buffers = state.bufferId.elim t.buffers fun id => t.buffers.erase id) :
    t'.Buffered := by
  have hids := ht.ids
  rw [tally_erase _ hstate] at hids
  refine ⟨?_⟩
  rw [hstates, hbuffers]
  exact ids_erase hids

/-- An entry without samples leaves with what it owned. -/
theorem shrinks_of_erase {t t' : TenantSeries ν} (ht : t.Owns) {labels : SeriesLabels}
    {state : SeriesState ν} (hstate : t.states.lookup labels = some state)
    (hzero : ∀ storage, t.bufferOf state = some storage → accountedBytes bits storage = 0)
    (hstates : t'.states = t.states.erase labels)
    (hbuffers : t'.buffers = state.bufferId.elim t.buffers fun id => t.buffers.erase id)
    (htotals : t'.histogramTotals =
      state.histogramTotalId.elim t.histogramTotals fun id => t.histogramTotals.erase id) :
    Shrinks bits t (labelAllocBytes labels) 1 t' := by
  have htotalIds := ht.totals
  rw [tally_erase _ hstate] at htotalIds
  refine ⟨⟨buffered_of_erase ht.toBuffered hstate hstates hbuffers, ?_⟩, ?_, ?_⟩
  · rw [hstates, htotals]
    exact ids_erase htotalIds
  · have hbuffer : t'.bufferBytes bits = t.bufferBytes bits := by
      rw [bufferBytes, bufferBytes, hbuffers]
      cases hid : state.bufferId with
      | none => rfl
      | some id =>
        have hzero' : (t.buffers.lookup id).elim 0 (fun storage => accountedBytes bits storage) = 0 := by
          have hof : t.bufferOf state = t.buffers.lookup id := by rw [bufferOf, hid]; rfl
          rw [hof] at hzero
          cases hlookup : t.buffers.lookup id with
          | none => rfl
          | some storage => exact hzero storage hlookup
        rw [Option.elim_some, Table.tally_split _ t.buffers id, hzero', Nat.zero_add]
    rw [weight, weight, hbuffer, entryBytes, entryBytes, hstates,
      tally_erase (fun labels _ => labelAllocBytes labels) hstate]
    omega
  · rw [count, count, hstates, tally_erase (fun _ _ => 1) hstate, Nat.add_comm]

/-- A series has an entry, and nothing is buffered of it. -/
def Bare (t : TenantSeries ν) (labels : SeriesLabels) : Prop :=
  ∃ state, t.states.lookup labels = some state ∧ t.hasSamples state = false

theorem not_hasSamples_of_bufferOf {t : TenantSeries ν} {state : SeriesState ν}
    (h : t.hasSamples state = false) {storage : SeriesBufferStorage ν}
    (hstorage : t.bufferOf state = some storage) : storage.hasSamples = false := by
  rw [hasSamples, hstorage] at h
  exact h

theorem forget_shrinks {t : TenantSeries ν} (ht : t.Owns) {labels : SeriesLabels}
    (h : t.Bare labels) : Shrinks bits t (labelAllocBytes labels) 1 (t.forget labels) := by
  obtain ⟨state, hstate, hbare⟩ := h
  rw [forget, hstate]
  exact shrinks_of_erase ht hstate (fun storage hstorage =>
    accountedBytes_of_not_hasSamples (not_hasSamples_of_bufferOf hbare hstorage)) rfl rfl rfl

/-- An entry that leaves brings nothing to the others. -/
theorem Bare.forget {t : TenantSeries ν} {labels other : SeriesLabels} (h : t.Bare other)
    (hne : other ≠ labels) : (t.forget labels).Bare other := by
  obtain ⟨state, hstate, hbare⟩ := h
  rw [TenantSeries.forget]
  cases hgone : t.states.lookup labels with
  | none => exact ⟨state, hstate, hbare⟩
  | some gone =>
    refine ⟨state, (AList.lookup_erase_ne hne).trans hstate, ?_⟩
    by_contra hsamples
    rw [Bool.not_eq_false] at hsamples
    obtain ⟨storage, hstorage, hsome⟩ := (Option.any_eq_true _ _).1 hsamples
    obtain ⟨id, hid, hlookup⟩ := Option.bind_eq_some_iff.1 hstorage
    dsimp only [release] at hlookup
    have hbefore : t.buffers.lookup id = some storage := by
      cases hbuffer : gone.bufferId with
      | none => rwa [hbuffer] at hlookup
      | some freed =>
        rw [hbuffer, Option.elim_some] at hlookup
        by_cases heq : id = freed
        · rw [heq, AList.lookup_erase] at hlookup
          cases hlookup
        · rwa [AList.lookup_erase_ne heq] at hlookup
    have hempty := not_hasSamples_of_bufferOf hbare (Option.bind_eq_some_iff.2 ⟨id, hid, hbefore⟩)
    rw [hempty] at hsome
    cases hsome

/-- **The invariant rule for evictions**: a series that is evicted has nothing buffered. -/
theorem evictIdleLocked_rule {I : Change ν → Prop} {t : TenantSeries ν} (cutoff : Nanos)
    (hstart : I ⟨t, 0, 0⟩)
    (hstep : ∀ c labels, I c → c.series.Bare labels → I (evict c labels)) :
    I (t.evictIdleLocked cutoff) := by
  have hfold : ∀ (idle : List SeriesLabels) (c : Change ν), idle.Nodup →
      (∀ labels ∈ idle, c.series.Bare labels) → I c → I (idle.foldl evict c) := by
    intro idle
    induction idle with
    | nil => exact fun c _ _ hc => hc
    | cons labels idle ih =>
      intro c hnodup hbare hc
      obtain ⟨hnew, hnodup⟩ := List.nodup_cons.1 hnodup
      refine ih _ hnodup (fun other hother => ?_) (hstep c labels hc (hbare labels List.mem_cons_self))
      exact (hbare other (List.mem_cons_of_mem _ hother)).forget fun heq => hnew (heq ▸ hother)
  refine hfold _ _ ?_ ?_ hstart
  · exact List.Nodup.sublist (List.filter_sublist.map Sigma.fst) t.states.nodupKeys
  · intro labels hlabels
    obtain ⟨⟨_, state⟩, hentry, rfl⟩ := List.mem_map.1 hlabels
    obtain ⟨hentry, hidle⟩ := List.mem_filter.1 hentry
    refine ⟨state, AList.mem_lookup_iff.2 hentry, ?_⟩
    simp only [idle, Bool.and_eq_true, Bool.not_eq_true'] at hidle
    exact hidle.1.1

/-- A series that is retired has nothing buffered, either. -/
theorem retire_rule {I : Change ν → Prop} {c : Change ν} (hc : I c) (labels : SeriesLabels)
    (hstep : c.series.Bare labels →
      I ⟨c.series.forget labels, c.bytes + labelAllocBytes labels, c.entries + 1⟩) :
    I (retire c labels) := by
  rw [retire]
  cases hstate : c.series.states.lookup labels with
  | none => exact hc
  | some state =>
    dsimp only
    split_ifs with hretire
    · simp only [Bool.and_eq_true, Bool.not_eq_true'] at hretire
      exact hstep ⟨state, hstate, hretire.1.1⟩
    · exact hc

theorem Buffered.congr {t t' : TenantSeries ν} (h : t.Buffered) (hstates : t'.states = t.states)
    (hbuffers : t'.buffers = t.buffers) : t'.Buffered :=
  ⟨by rw [hstates, hbuffers, h.ids]⟩

theorem Owns.congr {t t' : TenantSeries ν} (h : t.Owns) (hstates : t'.states = t.states)
    (hbuffers : t'.buffers = t.buffers) (htotals : t'.histogramTotals = t.histogramTotals) :
    t'.Owns :=
  ⟨h.toBuffered.congr hstates hbuffers, by rw [hstates, htotals, h.totals]⟩

theorem weight_congr {t t' : TenantSeries ν} (hstates : t'.states = t.states)
    (hbuffers : t'.buffers = t.buffers) : t'.weight bits = t.weight bits := by
  simp only [weight, entryBytes, bufferBytes, hstates, hbuffers]

theorem count_congr {t t' : TenantSeries ν} (hstates : t'.states = t.states) :
    t'.count = t.count := by
  simp only [count, hstates]

/-- The reservations count for nothing. -/
theorem Shrinks.congr {t t' t'' : TenantSeries ν} {bytes entries : ℕ}
    (h : Shrinks bits t bytes entries t') (hstates : t''.states = t'.states)
    (hbuffers : t''.buffers = t'.buffers) (htotals : t''.histogramTotals = t'.histogramTotals) :
    Shrinks bits t bytes entries t'' :=
  ⟨h.owns.congr hstates hbuffers htotals, by rw [weight_congr hstates hbuffers, h.weight],
    by rw [count_congr hstates, h.count]⟩

theorem Grows.congr {t t' t'' : TenantSeries ν} {bytes entries : ℕ}
    (h : Grows bits t bytes entries t') (hstates : t''.states = t'.states)
    (hbuffers : t''.buffers = t'.buffers) (htotals : t''.histogramTotals = t'.histogramTotals) :
    Grows bits t bytes entries t'' :=
  ⟨h.owns.congr hstates hbuffers htotals, by rw [weight_congr hstates hbuffers, h.weight],
    by rw [count_congr hstates, h.count]⟩

/-- **Idle series leave**: what is given back is what has gone. -/
theorem evictIdleLocked_shrinks {t : TenantSeries ν} (ht : t.Owns) (cutoff : Nanos) :
    Shrinks bits t (t.evictIdleLocked cutoff).bytes (t.evictIdleLocked cutoff).entries
      (t.evictIdleLocked cutoff).series :=
  evictIdleLocked_rule (I := fun c => Shrinks bits t c.bytes c.entries c.series) cutoff (.refl ht)
    fun _ _ hc hbare => hc.trans ((forget_shrinks hc.owns hbare).congr rfl rfl rfl)

/-- **A flushed series leaves**, or stays. -/
theorem retire_shrinks {t : TenantSeries ν} {c : Change ν}
    (h : Shrinks bits t c.bytes c.entries c.series) (labels : SeriesLabels) :
    Shrinks bits t (retire c labels).bytes (retire c labels).entries (retire c labels).series :=
  retire_rule (I := fun c => Shrinks bits t c.bytes c.entries c.series) h labels
    fun hbare => h.trans (forget_shrinks h.owns hbare)

/-- A series whose total nobody would free, if a request for it fails. -/
def Stranded (t : TenantSeries ν) (labels : SeriesLabels) : Prop :=
  ∃ state, t.states.lookup labels = some state ∧ state.bufferId = none ∧
    t.refsAfterDrop labels = 0 ∧ state.histogramTotalId ≠ none

/-- **A request fails, of one series**: what is given back is what has gone. -/
theorem rollbackAdmission_shrinks {t : TenantSeries ν} (ht : t.Owns) {labels : SeriesLabels}
    (h : ¬ t.Stranded labels) :
    Shrinks bits t (t.rollbackAdmission labels).bytes (t.rollbackAdmission labels).entries
      (t.rollbackAdmission labels).series := by
  by_cases hremoved : ((t.states.lookup labels).any (·.bufferId.isNone) &&
      t.refsAfterDrop labels = 0) = true
  · simp only [rollbackAdmission, hremoved, if_true]
    simp only [Bool.and_eq_true, decide_eq_true_eq] at hremoved
    obtain ⟨state, hstate, hbuffer⟩ := (Option.any_eq_true _ _).1 hremoved.1
    rw [Option.isNone_iff_eq_none] at hbuffer
    have htotal : state.histogramTotalId = none := by
      by_contra hsome
      exact h ⟨state, hstate, hbuffer, hremoved.2, hsome⟩
    refine shrinks_of_erase ht hstate ?_ rfl (by rw [hbuffer]; rfl) (by rw [htotal]; rfl)
    intro storage hstorage
    rw [bufferOf, hbuffer] at hstorage
    cases hstorage
  · simp only [Bool.not_eq_true] at hremoved
    simp only [rollbackAdmission, hremoved]
    exact (Shrinks.refl ht).congr rfl rfl rfl

/-! ### Entries that come -/

/-- A new entry has no buffer. -/
theorem Buffered.insert_new {t t' : TenantSeries ν} (h : t.Buffered) {labels : SeriesLabels}
    (hnone : t.states.lookup labels = none) (hstates : t'.states = t.states.insert labels .new)
    (hbuffers : t'.buffers = t.buffers) : t'.Buffered := by
  refine ⟨?_⟩
  rw [hstates, hbuffers, tally_insert, Table.erase_eq_self hnone, ← h.ids]
  exact zero_add _

theorem create_grows {t : TenantSeries ν} {c : Change ν}
    (h : Grows bits t c.bytes c.entries c.series) (labels : SeriesLabels) :
    Grows bits t (create c labels).bytes (create c labels).entries (create c labels).series := by
  rw [create]
  split_ifs with hmem
  · exact h
  · have hnone := AList.lookup_eq_none.2 hmem
    have hself := Table.erase_eq_self hnone
    refine h.trans ⟨⟨h.owns.toBuffered.insert_new hnone rfl rfl, ?_⟩, ?_, ?_⟩
    · rw [tally_insert, hself, h.owns.totals.symm]
      exact zero_add _
    · simp only [weight, entryBytes, bufferBytes, tally_insert, hself]
      omega
    · simp only [count, tally_insert, hself, Nat.add_comm]

theorem reserve_grows {t t' : TenantSeries ν} {bytes entries : ℕ}
    (h : Grows bits t bytes entries t') (labels : SeriesLabels) (admittedTs : Nanos) :
    Grows bits t bytes entries (t'.reserve labels admittedTs) :=
  h.congr rfl rfl rfl

theorem commitAdmission_grows {t : TenantSeries ν} (ht : t.Owns) (labels : SeriesLabels) :
    Grows bits t 0 0 (t.commitAdmission labels) := by
  rw [commitAdmission]
  cases t.reservations.lookup labels with
  | none => exact Grows.refl ht
  | some r =>
    dsimp only
    split_ifs <;> exact (Grows.refl ht).congr rfl rfl rfl

/-! ### Flushes -/

theorem hasSamples_of_ofState {labels : SeriesLabels} {last : Option Nanos}
    {storage : SeriesBufferStorage ν}
    (h : SnapshotSeries.ofState labels ⟨last, none, none, some storage, none⟩ = none) :
    storage.hasSamples = false := by
  by_contra hsamples
  rw [Bool.not_eq_false] at hsamples
  rw [SnapshotSeries.ofState, Option.filter_some, hsamples] at h
  cases storage with
  | empty => cases hsamples
  | _ => cases h

/-- **A flush takes the buffer of one series**, which is in the arena. -/
theorem takeBuffer_spec (taken : Taken ν) {labels : SeriesLabels} {state : SeriesState ν}
    {rest : Multiset ℕ}
    (h : idOf state.bufferId + rest = tally (fun id _ => {id}) taken.buffers) :
    rest = tally (fun id _ => {id}) (takeBuffer bits taken ⟨labels, state⟩).buffers ∧
      (takeBuffer bits taken ⟨labels, state⟩).moved +
          tally (fun _ storage => accountedBytes bits storage)
            (takeBuffer bits taken ⟨labels, state⟩).buffers =
        taken.moved + tally (fun _ storage => accountedBytes bits storage) taken.buffers := by
  have herase := ids_erase h
  cases hid : state.bufferId with
  | none =>
    rw [hid] at h
    have htaken : takeBuffer bits taken ⟨labels, state⟩ = taken := by rw [takeBuffer, hid]
    rw [htaken]
    exact ⟨by simpa [idOf] using h, rfl⟩
  | some id =>
    rw [hid] at h herase
    have hmem : id ∈ (taken.buffers.keys : Multiset ℕ) := by
      rw [← Table.tally_singleton, ← h]
      exact Multiset.mem_add.2 (.inl (Multiset.mem_singleton_self id))
    obtain ⟨storage, hstorage⟩ := Option.isSome_iff_exists.1 (AList.lookup_isSome.2 hmem)
    have hbytes := tally_erase (fun _ storage => accountedBytes bits storage) hstorage
    simp only [takeBuffer, hid, hstorage]
    cases hseries : SnapshotSeries.ofState labels ⟨state.lastTs, none, none, some storage, none⟩ with
    | none =>
      have hzero := @accountedBytes_of_not_hasSamples ν bits _ (hasSamples_of_ofState hseries)
      exact ⟨herase, by dsimp only; omega⟩
    | some series => exact ⟨herase, by dsimp only; omega⟩

/-- **A flush takes every buffer.** -/
theorem takeBuffers_moved {t : TenantSeries ν} (ht : t.Buffered) :
    (t.takeBuffers bits).moved = t.bufferBytes bits := by
  have hfold : ∀ (entries : List ((_ : SeriesLabels) × SeriesState ν)) (taken : Taken ν),
      (entries.map fun e => idOf e.2.bufferId).sum = tally (fun id _ => {id}) taken.buffers →
      (entries.foldl (takeBuffer bits) taken).moved =
        taken.moved + tally (fun _ storage => accountedBytes bits storage) taken.buffers := by
    intro entries
    induction entries with
    | nil =>
      intro taken h
      have hkeys : taken.buffers.keys = [] := by
        rw [Table.tally_singleton] at h
        exact (Multiset.coe_eq_zero _).1 h.symm
      rw [Table.tally_keys, hkeys]
      rfl
    | cons entry entries ih =>
      intro taken h
      rw [List.map_cons, List.sum_cons] at h
      obtain ⟨hrest, hmoved⟩ := @takeBuffer_spec ν bits taken entry.1 _ _ h
      rw [List.foldl_cons, ih _ hrest, hmoved]
  have hmoved := hfold t.states.entries ⟨t.buffers, [], 0⟩ ht.ids
  rw [takeBuffers, hmoved, Nat.zero_add, bufferBytes]

theorem buffered_flushed (t : TenantSeries ν) : t.flushed.Buffered := by
  refine ⟨?_⟩
  rw [flushed, Table.tally_mapValues]
  exact Table.tally_zero _

theorem flushed_shrinks {t : TenantSeries ν} (ht : t.Owns) :
    Shrinks bits t (t.takeBuffers bits).moved 0 t.flushed := by
  refine ⟨⟨buffered_flushed t, ?_⟩, ?_, ?_⟩
  · rw [flushed, Table.tally_mapValues]
    exact ht.totals
  · rw [takeBuffers_moved ht.toBuffered, weight, weight, entryBytes, flushed, Table.tally_mapValues]
    rfl
  · rw [count, flushed, Table.tally_mapValues]
    rfl

end TenantSeries

end Arena

end Metrics

end Obsy
