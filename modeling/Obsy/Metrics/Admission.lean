import Obsy.Metrics.Rules

/-!
# Requests that fail

A request is let in before its samples are in the journal.  It reserves the series that it needs and
that have no buffer; a request that fails gives its references back, and a series that nobody else
refers to leaves again.

* `Ledger`: the memtable and the admissions in flight.
* `Counts`: the references to a series are no more than the admissions in flight that reserve it.
* `rollback_spec`: what is left of a series when an admission is dropped.
* `drops_clean_iff`: when a dropped admission leaves the series alone that were there before it, and
  none behind that it made.
-/

namespace Obsy

namespace Metrics

namespace Arena

open Part (Nanos)
open Runs (Table Release saturating foldlM_keeps)

variable {ν : Type}

/-! ### References -/

/-- The references to a series. -/
def refsIn (reservations : Table SeriesLabels ReservationState) (labels : SeriesLabels) : ℕ :=
  (reservations.lookup labels).elim 0 fun r => r.refs

section

variable {reservations : Table SeriesLabels ReservationState} {labels other : SeriesLabels}

theorem refsIn_erase_le : refsIn (reservations.erase labels) other ≤ refsIn reservations other := by
  by_cases heq : other = labels
  · rw [heq, refsIn, AList.lookup_erase]
    exact Nat.zero_le _
  · rw [refsIn, AList.lookup_erase_ne heq, refsIn]

theorem refsIn_insert (r : ReservationState) :
    refsIn (reservations.insert labels r) other =
      if other = labels then r.refs else refsIn reservations other := by
  split_ifs with heq
  · rw [heq, refsIn, AList.lookup_insert, Option.elim_some]
  · rw [refsIn, AList.lookup_insert_ne heq, refsIn]

end

namespace TenantSeries

theorem refsAfterDrop_eq (t : TenantSeries ν) (labels : SeriesLabels) :
    t.refsAfterDrop labels = refsIn t.reservations labels - 1 := by
  rw [refsAfterDrop, refsIn]
  cases t.reservations.lookup labels <;> rfl

theorem refsIn_reserve (t : TenantSeries ν) (labels : SeriesLabels) (admittedTs : Nanos)
    (other : SeriesLabels) :
    refsIn (t.reserve labels admittedTs).reservations other ≤
      refsIn t.reservations other + if other = labels then 1 else 0 := by
  rw [reserve, refsIn_insert]
  split_ifs with heq
  · rw [refsIn, heq]
    cases t.reservations.lookup labels with
    | none => exact le_rfl
    | some r => exact Nat.min_le_left _ _
  · exact le_rfl

/-- One reference fewer. -/
def oneFewer (t : TenantSeries ν) (labels other : SeriesLabels) : ℕ :=
  if other = labels then refsIn t.reservations labels - 1 else refsIn t.reservations other

theorem refsIn_dropReference (t : TenantSeries ν) (labels other : SeriesLabels) :
    refsIn (t.dropReference labels) other = t.oneFewer labels other := by
  rw [dropReference, oneFewer]
  cases hr : t.reservations.lookup labels with
  | none =>
    have hzero : refsIn t.reservations labels = 0 := by rw [refsIn, hr]; rfl
    split_ifs with heq
    · rw [heq, hzero]
    · rfl
  | some r =>
    have hrefs : refsIn t.reservations labels = r.refs := by rw [refsIn, hr]; rfl
    rw [refsIn_insert, hrefs]

theorem refsIn_commitAdmission (t : TenantSeries ν) (labels other : SeriesLabels) :
    refsIn (t.commitAdmission labels).reservations other ≤ t.oneFewer labels other := by
  have hdrop := t.refsIn_dropReference labels other
  rw [dropReference] at hdrop
  rw [commitAdmission]
  cases hr : t.reservations.lookup labels with
  | none =>
    rw [hr] at hdrop
    exact hdrop.le
  | some r =>
    rw [hr] at hdrop
    dsimp only at hdrop ⊢
    split_ifs
    · rw [← hdrop, refsIn_insert]
      split_ifs with heq
      · rw [heq, refsIn, AList.lookup_erase]
        exact Nat.zero_le _
      · exact refsIn_erase_le
    · exact hdrop.le

/-- The references after a request has failed. -/
theorem refsIn_rollbackAdmission (t : TenantSeries ν) (labels other : SeriesLabels) :
    refsIn (t.rollbackAdmission labels).series.reservations other ≤ t.oneFewer labels other := by
  rw [← refsIn_dropReference]
  simp only [rollbackAdmission]
  split_ifs
  · exact refsIn_erase_le
  · exact le_rfl

theorem bufferFor_reservations {t opened : TenantSeries ν} {state : SeriesState ν} {id : ℕ}
    (h : t.bufferFor state = some (id, opened)) : opened.reservations = t.reservations := by
  rw [bufferFor] at h
  cases hid : state.bufferId with
  | some other =>
    rw [hid] at h
    obtain ⟨-, rfl⟩ := Prod.mk.inj (Option.some.inj h)
    rfl
  | none =>
    rw [hid] at h
    obtain ⟨fresh, -, hopened⟩ := Option.map_eq_some_iff.1 h
    obtain ⟨-, rfl⟩ := Prod.mk.inj hopened
    rfl

theorem refsIn_clearReservation (t : TenantSeries ν) (labels other : SeriesLabels) :
    refsIn (t.clearReservationAfterInsert labels).reservations other ≤
      refsIn t.reservations other := by
  rw [clearReservationAfterInsert]
  split_ifs
  · exact refsIn_erase_le
  · exact le_rfl

theorem forget_reservations (t : TenantSeries ν) (labels : SeriesLabels) :
    (t.forget labels).reservations = t.reservations := by
  rw [forget]
  cases t.states.lookup labels <;> rfl

theorem refsIn_evictIdleLocked (t : TenantSeries ν) (cutoff : Nanos) (labels : SeriesLabels) :
    refsIn (t.evictIdleLocked cutoff).series.reservations labels ≤ refsIn t.reservations labels :=
  List.foldlRecOn _ evict (b := ⟨t, 0, 0⟩)
    (motive := fun c => refsIn c.series.reservations labels ≤ refsIn t.reservations labels) le_rfl
    fun _ hc _ _ => refsIn_erase_le.trans hc

theorem retire_reservations (t : TenantSeries ν) (labels : List SeriesLabels) :
    (labels.foldl retire ⟨t, 0, 0⟩).series.reservations = t.reservations := by
  refine List.foldlRecOn labels retire (motive := fun c => c.series.reservations = t.reservations)
    (b := ⟨t, 0, 0⟩) rfl fun c hc other _ => ?_
  rw [retire]
  cases c.series.states.lookup other with
  | none => exact hc
  | some state =>
    dsimp only
    split_ifs
    · exact (forget_reservations _ _).trans hc
    · exact hc

section

variable [DecidableEq ν] (F : Floats ν) {bits : ν → Word} {sub : Release}

theorem resolve_reservations {t resolved : TenantSeries ν} {state state' : SeriesState ν}
    {sample : MetricSample ν} {value : MetricValue ν}
    (h : t.resolve F state sample = some (value, state', resolved)) :
    resolved.reservations = t.reservations := by
  unfold resolve at h
  split at h
  · obtain ⟨-, hrest⟩ := Prod.mk.inj (Option.some.inj h)
    obtain ⟨-, rfl⟩ := Prod.mk.inj hrest
    rfl
  · split at h
    · obtain ⟨-, hrest⟩ := Prod.mk.inj (Option.some.inj h)
      obtain ⟨-, rfl⟩ := Prod.mk.inj hrest
      rfl
    · obtain ⟨id, -, hfresh⟩ := Option.map_eq_some_iff.1 h
      obtain ⟨-, hrest⟩ := Prod.mk.inj hfresh
      obtain ⟨-, rfl⟩ := Prod.mk.inj hrest
      rfl
  · obtain ⟨-, hrest⟩ := Prod.mk.inj (Option.some.inj h)
    obtain ⟨-, rfl⟩ := Prod.mk.inj hrest
    rfl

theorem refsIn_insertSample {t : TenantSeries ν} {sample : MetricSample ν} {c : Change ν}
    (h : t.insertSample F bits sub sample = some c) (labels : SeriesLabels) :
    refsIn c.series.reservations labels ≤ refsIn t.reservations labels := by
  obtain ⟨⟨id, opened⟩, hopened, h⟩ := Option.bind_eq_some_iff.1 h
  obtain ⟨⟨value, state, resolved⟩, hresolved, h⟩ := Option.bind_eq_some_iff.1 h
  obtain ⟨storage, -, h⟩ := Option.bind_eq_some_iff.1 h
  obtain ⟨grown, -, h⟩ := Option.bind_eq_some_iff.1 h
  obtain rfl := Option.some.inj h
  rw [← bufferFor_reservations hopened, ← resolve_reservations F hresolved]
  exact refsIn_clearReservation _ _ _

end

theorem restore_reservations {bits : ν → Word} {sub : Release} {c c' : Change ν}
    {series : SnapshotSeries ν} (h : restore bits sub c series = some c') :
    c'.series.reservations = c.series.reservations := by
  obtain ⟨⟨id, opened⟩, hopened, h⟩ := Option.bind_eq_some_iff.1 h
  obtain ⟨storage, -, h⟩ := Option.bind_eq_some_iff.1 h
  obtain ⟨grown, -, h⟩ := Option.bind_eq_some_iff.1 h
  obtain rfl := Option.some.inj h
  have hkept := bufferFor_reservations hopened
  exact hkept

end TenantSeries

namespace SeriesMemTable

/-- The index entry of a series. -/
def stateAt (m : SeriesMemTable ν) (key : SeriesKey) : Option (SeriesState ν) :=
  (m.tenantOf key.1).states.lookup key.2

/-- The references to a series. -/
def refsAt (m : SeriesMemTable ν) (key : SeriesKey) : ℕ :=
  refsIn (m.tenantOf key.1).reservations key.2

/-- What is kept of a series beside its samples: the newest timestamp and the running totals. -/
def kept (m : SeriesMemTable ν) (key : SeriesKey) :
    Option (Option Nanos × Option ν × Option (HistogramPoint ν)) :=
  (m.stateAt key).map fun state => (state.lastTs, state.runningTotal,
    state.histogramTotalId.bind fun id => (m.tenantOf key.1).histogramTotals.lookup id)

/-- No series has more references. -/
def Fewer (m m' : SeriesMemTable ν) : Prop := ∀ key, m'.refsAt key ≤ m.refsAt key

/-- The references go tenant by tenant. -/
theorem fewer_tenantWise : TenantWise
    (fun t t' : TenantSeries ν => ∀ labels, refsIn t'.reservations labels ≤
      refsIn t.reservations labels) Fewer where
  refl _ _ := le_rfl
  trans h h' key := (h' key).trans (h key)
  put hinner _ h key := by
    rw [refsAt, refsAt, tenantOf_insert hinner]
    split_ifs with heq
    · rw [heq]
      exact h key.2
    · exact le_rfl
  count hinner _ key := by rw [refsAt, refsAt, tenantOf, tenantOf, hinner]

section

variable {sub : Release} {m m' : SeriesMemTable ν}

theorem evictIdle_fewer {cutoff : Nanos} (h : evictIdle sub cutoff m = some m') : Fewer m m' :=
  fewer_tenantWise.evictIdle (fun t => t.refsIn_evictIdleLocked cutoff) h

theorem makeRoom_fewer {cutoff : Nanos} (h : makeRoom sub cutoff m = some m') : Fewer m m' :=
  fewer_tenantWise.makeRoom (fun t => t.refsIn_evictIdleLocked cutoff) h

theorem retireFlushed_fewer {snapshot : SeriesSnapshot ν}
    (h : retireFlushed sub snapshot m = some m') : Fewer m m' :=
  fewer_tenantWise.retireFlushed (fun t labels other => by
    rw [TenantSeries.retire_reservations]) h

variable {bits : ν → Word}

theorem insert_fewer [DecidableEq ν] {F : Floats ν} {samples : List (MetricSample ν)} (h : m.insert sub F bits samples = some m') :
    Fewer m m' := by
  obtain ⟨acc, hfold, h⟩ := Option.bind_eq_some_iff.1 h
  obtain rfl := Option.some.inj h
  have hsamples : Fewer m acc.1 := by
    refine foldlM_keeps (I := fun acc => Fewer m acc.1) (fun acc sample acc' hacc hstep => ?_)
      (fewer_tenantWise.refl m) hfold
    obtain ⟨c, hc, hacc'⟩ := Option.bind_eq_some_iff.1 hstep
    obtain rfl := Option.some.inj hacc'
    exact fewer_tenantWise.trans hacc
      (fewer_tenantWise.put rfl rfl (TenantSeries.refsIn_insertSample F hc))
  exact fewer_tenantWise.trans hsamples (fewer_tenantWise.count rfl rfl)

theorem beginFlush_fewer (h : m.beginFlush sub bits = some m') : Fewer m m' := by
  obtain ⟨bytes, -, h⟩ := Option.bind_eq_some_iff.1 h
  obtain rfl := Option.some.inj h
  intro key
  rw [refsAt, refsAt, tenantOf, tenantOf, Table.lookup_mapValues]
  cases m.inner.lookup key.1 <;> exact le_rfl

theorem abortFlush_fewer {snapshot : SeriesSnapshot ν}
    (h : m.abortFlush sub bits snapshot = some m') : Fewer m m' := by
  obtain ⟨acc, hfold, h⟩ := Option.bind_eq_some_iff.1 h
  obtain rfl := Option.some.inj h
  have hrestored : Fewer m acc.1 := by
    refine foldlM_keeps (I := fun acc => Fewer m acc.1) (fun acc entry acc' hacc hstep => ?_)
      (fun _ => le_rfl) hfold
    obtain ⟨c, hc, hacc'⟩ := Option.bind_eq_some_iff.1 hstep
    obtain rfl := Option.some.inj hacc'
    refine fewer_tenantWise.trans hacc (fewer_tenantWise.put rfl rfl fun labels => ?_)
    refine foldlM_keeps (I := fun c => refsIn c.series.reservations labels ≤
      refsIn (acc.1.tenantOf entry.1).reservations labels) (fun c series c' hle hrestore => ?_)
      le_rfl hc
    rwa [TenantSeries.restore_reservations hrestore]
  exact fewer_tenantWise.trans hrestored (fewer_tenantWise.count rfl rfl)

end

/-! ### Requests that are let in -/

/-- The entries of a tenant that were there are what they were. -/
def Kept (t t' : TenantSeries ν) : Prop :=
  (∀ labels state, t.states.lookup labels = some state → t'.states.lookup labels = some state) ∧
    t'.histogramTotals = t.histogramTotals

/-- The entries that were there are what they were. -/
structure Extends (m m' : SeriesMemTable ν) : Prop where
  states : ∀ key state, m.stateAt key = some state → m'.stateAt key = some state
  totals : ∀ tenant, (m'.tenantOf tenant).histogramTotals = (m.tenantOf tenant).histogramTotals

theorem extends_tenantWise : TenantWise (Kept (ν := ν)) Extends where
  refl _ := ⟨fun _ _ h => h, fun _ => rfl⟩
  trans h h' := ⟨fun key state hstate => h'.states key state (h.states key state hstate),
    fun tenant => (h'.totals tenant).trans (h.totals tenant)⟩
  put hinner _ h := by
    refine ⟨fun key state hstate => ?_, fun other => ?_⟩
    · rw [stateAt, tenantOf_insert hinner]
      split_ifs with heq
      · exact h.1 key.2 state (heq ▸ hstate)
      · exact hstate
    · rw [tenantOf_insert hinner]
      split_ifs with heq
      · rw [h.2, heq]
      · rfl
  count hinner _ := by
    refine ⟨fun key state hstate => ?_, fun tenant => ?_⟩
    · rw [stateAt, tenantOf, hinner]
      exact hstate
    · rw [tenantOf, tenantOf, hinner]

theorem Extends.kept {m m' : SeriesMemTable ν} (h : Extends m m') {key : SeriesKey}
    (hsome : (m.kept key).isSome) : m'.kept key = m.kept key := by
  rw [SeriesMemTable.kept, Option.isSome_map] at hsome
  obtain ⟨state, hstate⟩ := Option.isSome_iff_exists.1 hsome
  rw [SeriesMemTable.kept, SeriesMemTable.kept, hstate, h.states key state hstate, h.totals]

/-- An entry that is there is not made again. -/
theorem create_kept (t : TenantSeries ν) (labels : List SeriesLabels) :
    Kept t (labels.foldl TenantSeries.create ⟨t, 0, 0⟩).series ∧
      (labels.foldl TenantSeries.create ⟨t, 0, 0⟩).series.reservations = t.reservations := by
  refine List.foldlRecOn labels TenantSeries.create (b := ⟨t, 0, 0⟩)
    (motive := fun c => Kept t c.series ∧ c.series.reservations = t.reservations)
    ⟨⟨fun _ _ h => h, rfl⟩, rfl⟩ ?_
  rintro c ⟨⟨hstates, htotals⟩, hreservations⟩ first -
  rw [TenantSeries.create]
  split_ifs with hmem
  · exact ⟨⟨hstates, htotals⟩, hreservations⟩
  · refine ⟨⟨fun other state hstate => ?_, htotals⟩, hreservations⟩
    have hother := hstates other state hstate
    have hne : other ≠ first := by
      rintro rfl
      exact hmem (AList.lookup_isSome.1 (by rw [hother]; rfl))
    exact (AList.lookup_insert_ne hne).trans hother

theorem reserve_kept (t : TenantSeries ν) (admittedTs : SeriesLabels → Nanos)
    (labels : List SeriesLabels) :
    Kept t (labels.foldl (fun t labels => t.reserve labels (admittedTs labels)) t) :=
  List.foldlRecOn labels _ (motive := Kept t) ⟨fun _ _ h => h, rfl⟩ fun _ h _ _ => h

theorem refsIn_foldl_reserve (admittedTs : SeriesLabels → Nanos) {labels : List SeriesLabels}
    (hnodup : labels.Nodup) (t : TenantSeries ν) (other : SeriesLabels) :
    refsIn (labels.foldl (fun t labels => t.reserve labels (admittedTs labels)) t).reservations
      other ≤ refsIn t.reservations other + if other ∈ labels then 1 else 0 := by
  induction labels generalizing t with
  | nil => exact Nat.le_add_right _ _
  | cons first labels ih =>
    obtain ⟨hnew, hnodup⟩ := List.nodup_cons.1 hnodup
    refine (ih hnodup _).trans ?_
    have hfirst := t.refsIn_reserve first (admittedTs first) other
    by_cases heq : other = first
    · rw [if_pos heq] at hfirst
      rw [if_neg (heq ▸ hnew), if_pos (List.mem_cons.2 (.inl heq))]
      exact hfirst
    · rw [if_neg heq] at hfirst
      simp only [List.mem_cons, heq, false_or]
      omega

/-- How many of the admissions reserve a series. -/
def holders (admissions : List (List SeriesKey)) (key : SeriesKey) : ℕ :=
  admissions.countP fun reserved => key ∈ reserved

theorem holders_append (first second : List (List SeriesKey)) (key : SeriesKey) :
    holders (first ++ second) key = holders first key + holders second key :=
  List.countP_append

theorem reserveGroup_spec (groups : Groups ν) (acc : SeriesMemTable ν × List (List SeriesKey))
    (group : String × List (MetricSample ν)) :
    ∃ keys : List SeriesKey, keys.Nodup ∧ (reserveGroup groups acc group).2 = acc.2 ++ [keys] ∧
      ∀ key, (reserveGroup groups acc group).1.refsAt key ≤
        acc.1.refsAt key + if key ∈ keys then 1 else 0 := by
  have hnodup : (toReserve acc.1 group).Nodup := (List.nodup_dedup _).filter _
  refine ⟨(toReserve acc.1 group).map fun labels => (group.1, labels), ?_, rfl, fun key => ?_⟩
  · exact hnodup.map fun a b hab => (Prod.mk.inj hab).2
  · have hrefs := refsIn_foldl_reserve
      (fun labels => (requestedNewest groups group.1 labels).getD .min) hnodup
      (acc.1.tenantOf group.1) key.2
    rw [refsAt, refsAt, reserveGroup, tenantOf_setTenant]
    by_cases heq : key.1 = group.1
    · have hmem : key ∈ (toReserve acc.1 group).map (fun labels => (group.1, labels)) ↔
          key.2 ∈ toReserve acc.1 group := by
        simp only [List.mem_map, Prod.ext_iff]
        exact ⟨fun ⟨labels, hlabels, _, hsame⟩ => hsame ▸ hlabels,
          fun h => ⟨key.2, h, heq.symm, rfl⟩⟩
      rw [if_pos heq, heq]
      simp only [hmem]
      exact hrefs
    · rw [if_neg heq]
      exact Nat.le_add_right _ _

/-- **A request that is let in** leaves the entries alone that are there, and refers to a series as
often as its admissions reserve it. -/
theorem admitted_spec (groups : Groups ν) (m : SeriesMemTable ν) :
    Extends m (admitted groups m).1 ∧ (∀ keys ∈ (admitted groups m).2, keys.Nodup) ∧
      ∀ key, (admitted groups m).1.refsAt key ≤ m.refsAt key + holders (admitted groups m).2 key := by
  refine ⟨extends_tenantWise.admitted (fun t labels => (create_kept t labels).1) reserve_kept groups,
    ?_⟩
  have hcreated : Fewer m ((groups.map Prod.fst).dedup.foldl (createFor groups) m) :=
    List.foldlRecOn (groups.map Prod.fst).dedup (createFor groups) (motive := Fewer m)
      (fun _ => le_rfl) fun before hbefore tenant _ => fewer_tenantWise.trans hbefore
        (fewer_tenantWise.createFor (fun t labels other => by rw [(create_kept t labels).2])
          groups tenant)
  have hnone : ∀ key, ((groups.map Prod.fst).dedup.foldl (createFor groups) m).refsAt key ≤
      m.refsAt key + holders [] key := hcreated
  refine List.foldlRecOn groups (reserveGroup groups)
    (b := ((groups.map Prod.fst).dedup.foldl (createFor groups) m, []))
    (motive := fun acc => (∀ keys ∈ acc.2, keys.Nodup) ∧
      ∀ key, acc.1.refsAt key ≤ m.refsAt key + holders acc.2 key) ⟨nofun, hnone⟩ ?_
  rintro acc ⟨hnodup, hrefs⟩ group -
  obtain ⟨keys, hkeys, hlist, hmore⟩ := reserveGroup_spec groups acc group
  refine ⟨fun other hother => ?_, fun key => (hmore key).trans ?_⟩
  · rw [hlist] at hother
    rcases List.mem_append.1 hother with hold | hnew
    · exact hnodup other hold
    · rwa [List.mem_singleton.1 hnew]
  · have hone : holders [keys] key = if key ∈ keys then 1 else 0 := by
      rw [holders, List.countP_singleton]
      simp only [decide_eq_true_eq]
    rw [hlist, holders_append, hone]
    have := hrefs key
    omega

/-! ### Requests that are settled -/

/-- One reference fewer, key by key. -/
theorem foldl_oneFewer {β : Type} {step : β → SeriesKey → β} (refs : β → SeriesKey → ℕ)
    (hstep : ∀ b key other,
      refs (step b key) other ≤ if other = key then refs b key - 1 else refs b other)
    {keys : List SeriesKey} (hnodup : keys.Nodup) (b : β) (other : SeriesKey) :
    refs (keys.foldl step b) other ≤ if other ∈ keys then refs b other - 1 else refs b other := by
  induction keys generalizing b with
  | nil => exact le_rfl
  | cons key keys ih =>
    obtain ⟨hnew, hnodup⟩ := List.nodup_cons.1 hnodup
    have hrest := ih hnodup (step b key)
    have hfirst := hstep b key other
    rw [List.foldl_cons]
    by_cases heq : other = key
    · subst heq
      rw [if_neg hnew] at hrest
      rw [if_pos rfl] at hfirst
      rw [if_pos List.mem_cons_self]
      exact hrest.trans hfirst
    · rw [if_neg heq] at hfirst
      simp only [List.mem_cons, heq, false_or]
      split_ifs at hrest ⊢ <;> omega

theorem refsAt_setTenant {m : SeriesMemTable ν} {tenant : String} {t : TenantSeries ν}
    {labels : SeriesLabels}
    (h : ∀ other, refsIn t.reservations other ≤ (m.tenantOf tenant).oneFewer labels other)
    (other : SeriesKey) :
    (m.setTenant tenant t).refsAt other ≤
      if other = (tenant, labels) then m.refsAt (tenant, labels) - 1 else m.refsAt other := by
  rw [refsAt, tenantOf_setTenant]
  by_cases heq : other.1 = tenant
  · rw [if_pos heq]
    refine (h other.2).trans ?_
    rw [TenantSeries.oneFewer]
    by_cases hlabels : other.2 = labels
    · rw [if_pos hlabels, if_pos (Prod.ext heq hlabels), refsAt]
    · rw [if_neg hlabels, if_neg fun hsame => hlabels (congrArg Prod.snd hsame), refsAt, heq]
  · rw [if_neg heq, if_neg fun hsame => heq (congrArg Prod.fst hsame), refsAt]

theorem refsAt_of_lookup {m : SeriesMemTable ν} {tenant : String}
    (h : m.inner.lookup tenant = none) (labels : SeriesLabels) : m.refsAt (tenant, labels) = 0 := by
  rw [refsAt, tenantOf, h]
  rfl

theorem refsAt_commitAdmission (m : SeriesMemTable ν) {reserved : List SeriesKey}
    (hnodup : reserved.Nodup) (key : SeriesKey) :
    (m.commitAdmission reserved).refsAt key ≤
      if key ∈ reserved then m.refsAt key - 1 else m.refsAt key := by
  refine foldl_oneFewer refsAt (fun m key other => ?_) hnodup m key
  obtain ⟨tenant, labels⟩ := key
  cases hlookup : m.inner.lookup tenant with
  | none =>
    split_ifs with heq
    · rw [heq, refsAt_of_lookup hlookup]
    · exact le_rfl
  | some t =>
    refine refsAt_setTenant (fun other => ?_) other
    rw [tenantOf_of_lookup hlookup]
    exact t.refsIn_commitAdmission labels other

theorem refsAt_rollbackOne (acc : SeriesMemTable ν × ℕ × ℕ) (key other : SeriesKey) :
    (rollbackOne acc key).1.refsAt other ≤
      if other = key then acc.1.refsAt key - 1 else acc.1.refsAt other := by
  obtain ⟨tenant, labels⟩ := key
  rw [rollbackOne]
  cases hlookup : acc.1.inner.lookup tenant with
  | none =>
    split_ifs with heq
    · rw [heq, refsAt_of_lookup hlookup]
    · exact le_rfl
  | some t =>
    refine refsAt_setTenant (fun other => ?_) other
    rw [tenantOf_of_lookup hlookup]
    exact t.refsIn_rollbackAdmission labels other

/-- Whether a failed request that reserves a series takes its entry with it. -/
def leaves (m : SeriesMemTable ν) (key : SeriesKey) : Bool :=
  (m.stateAt key).any (·.bufferId.isNone) && m.refsAt key - 1 = 0

/-- What one series of a failed request leaves behind. -/
theorem rollbackOne_spec (acc : SeriesMemTable ν × ℕ × ℕ) (key : SeriesKey) :
    (rollbackOne acc key).1.stateAt key =
        (if acc.1.leaves key then none else acc.1.stateAt key) ∧
      (∀ other ≠ key, (rollbackOne acc key).1.stateAt other = acc.1.stateAt other ∧
        (rollbackOne acc key).1.refsAt other = acc.1.refsAt other) ∧
      ∀ tenant, ((rollbackOne acc key).1.tenantOf tenant).histogramTotals =
        (acc.1.tenantOf tenant).histogramTotals := by
  obtain ⟨tenant, labels⟩ := key
  rw [rollbackOne]
  cases hlookup : acc.1.inner.lookup tenant with
  | none =>
    have hnone : acc.1.stateAt (tenant, labels) = none := by rw [stateAt, tenantOf, hlookup]; rfl
    exact ⟨by rw [hnone, ite_self], fun _ _ => ⟨rfl, rfl⟩, fun _ => rfl⟩
  | some t =>
    have hof := tenantOf_of_lookup hlookup
    have hleaves : acc.1.leaves (tenant, labels) =
        ((t.states.lookup labels).any (·.bufferId.isNone) && t.refsAfterDrop labels = 0) := by
      rw [leaves, stateAt, refsAt, hof, t.refsAfterDrop_eq]
    refine ⟨?_, fun other hne => ?_, fun other => ?_⟩
    · rw [hleaves, stateAt, stateAt, tenantOf_setTenant, if_pos rfl, hof]
      simp only [TenantSeries.rollbackAdmission]
      split_ifs
      · exact AList.lookup_erase _ _
      · rfl
    · rw [stateAt, stateAt, refsAt, refsAt, tenantOf_setTenant]
      split_ifs with heq
      · have hlabels : other.2 ≠ labels := fun h => hne (Prod.ext heq h)
        rw [heq, hof]
        refine ⟨?_, ?_⟩
        · simp only [TenantSeries.rollbackAdmission]
          split_ifs
          · exact AList.lookup_erase_ne hlabels
          · rfl
        · have hdrop := t.refsIn_dropReference labels other.2
          rw [TenantSeries.oneFewer, if_neg hlabels] at hdrop
          rw [← hdrop]
          simp only [TenantSeries.rollbackAdmission]
          split_ifs
          · rw [refsIn, AList.lookup_erase_ne hlabels, refsIn]
          · rfl
      · exact ⟨rfl, rfl⟩
    · rw [tenantOf_setTenant]
      split_ifs with heq
      · rw [heq, hof]
        rfl
      · rfl

/-- **What a failed request leaves behind**: the entries that it takes are the reserved ones that
nobody else refers to and that have no buffer. -/
theorem rollback_spec {reserved : List SeriesKey} (hnodup : reserved.Nodup)
    (acc : SeriesMemTable ν × ℕ × ℕ) :
    (∀ key, (reserved.foldl rollbackOne acc).1.stateAt key =
        if key ∈ reserved ∧ acc.1.leaves key then none else acc.1.stateAt key) ∧
      ∀ tenant, ((reserved.foldl rollbackOne acc).1.tenantOf tenant).histogramTotals =
        (acc.1.tenantOf tenant).histogramTotals := by
  induction reserved generalizing acc with
  | nil => exact ⟨fun key => (if_neg fun h => List.not_mem_nil h.1).symm, fun _ => rfl⟩
  | cons first reserved ih =>
    obtain ⟨hnew, hnodup⟩ := List.nodup_cons.1 hnodup
    obtain ⟨hfirst, hothers, htotals⟩ := rollbackOne_spec acc first
    obtain ⟨hrest, hrestTotals⟩ := ih hnodup (rollbackOne acc first)
    refine ⟨fun key => ?_, fun tenant => (hrestTotals tenant).trans (htotals tenant)⟩
    rw [List.foldl_cons, hrest]
    by_cases heq : key = first
    · subst heq
      rw [if_neg fun h => hnew h.1, hfirst]
      simp only [List.mem_cons, true_or, true_and]
    · obtain ⟨hstate, hrefs⟩ := hothers key heq
      have hleaves : (rollbackOne acc first).1.leaves key = acc.1.leaves key := by
        rw [leaves, leaves, hstate, hrefs]
      simp only [hleaves, hstate, List.mem_cons, heq, false_or]

end SeriesMemTable

/-! ### Admissions in flight -/

/-- An admission that is neither committed nor dropped, with the memtable that it was let in to and
the one that it made.  Idle series have left before. -/
structure SeriesAdmission (ν : Type) where
  reserved : List SeriesKey
  before : SeriesMemTable ν
  after : SeriesMemTable ν

/-- The memtable and the admissions in flight. -/
structure Ledger (ν : Type) where
  table : SeriesMemTable ν
  inFlight : List (SeriesAdmission ν)

/-- What a party does: a request is let in, one of those in flight succeeds or fails, or something
else is done with the memtable. -/
inductive Call (ν : Type) where
  | admitRequest (groups : Groups ν) (maxActive : Option ℕ) (cutoff : Nanos)
  | commit (i : ℕ)
  | drop (i : ℕ)
  | other (event : Event ν)

/-- Whether a call of the memtable lets in or settles a request. -/
def Event.settles : Event ν → Bool
  | .admitRequest .. | .commitAdmission _ | .rollbackAdmission _ => true
  | _ => false

namespace Ledger

def new : Ledger ν := ⟨.new, []⟩

/-- A request is let in, with an admission for each of its groups, or refused. -/
def admitRequest (groups : Groups ν) (maxActive : Option ℕ) (cutoff : Nanos) (L : Ledger ν) :
    Option (Ledger ν) := do
  let before ← L.table.makeRoom saturating cutoff
  let (after, result) ← L.table.admitRequest saturating groups maxActive cutoff
  match result with
  | .ok admissions =>
    some ⟨after, L.inFlight ++ admissions.map fun reserved => ⟨reserved, before, after⟩⟩
  | .error _ => some { L with table := after }

/-- An admission succeeds. -/
def commit (i : ℕ) (L : Ledger ν) : Option (Ledger ν) :=
  L.inFlight[i]?.map fun admission =>
    ⟨L.table.commitAdmission admission.reserved, L.inFlight.eraseIdx i⟩

def drop (i : ℕ) (L : Ledger ν) : Option (Ledger ν) := do
  let admission ← L.inFlight[i]?
  let table ← L.table.rollbackAdmission saturating admission.reserved
  some ⟨table, L.inFlight.eraseIdx i⟩

def step [DecidableEq ν] (F : Floats ν) (bits : ν → Word) (L : Ledger ν) :
    Call ν → Option (Ledger ν)
  | .admitRequest groups maxActive cutoff => L.admitRequest groups maxActive cutoff
  | .commit i => L.commit i
  | .drop i => L.drop i
  | .other event =>
    if event.settles then none
    else (Arena.step F bits saturating L.table event).map fun table => { L with table := table }

/-- How many admissions in flight reserve a series. -/
def holders (L : Ledger ν) (key : SeriesKey) : ℕ :=
  SeriesMemTable.holders (L.inFlight.map (·.reserved)) key

/-- The references are to admissions in flight, and what was there is left alone as they are let
in. -/
structure Counts (L : Ledger ν) : Prop where
  refs : ∀ key, L.table.refsAt key ≤ L.holders key
  nodup : ∀ admission ∈ L.inFlight, admission.reserved.Nodup
  admitted : ∀ admission ∈ L.inFlight, admission.before.Extends admission.after

variable {L L' : Ledger ν}

theorem Counts.new : (new : Ledger ν).Counts := ⟨fun _ => le_rfl, nofun, nofun⟩

theorem admitRequest_spec {m before after : SeriesMemTable ν} {groups : Groups ν}
    {maxActive : Option ℕ} {cutoff : Nanos} {result : Except AdmissionError (List (List SeriesKey))}
    (hroom : m.makeRoom saturating cutoff = some before)
    (h : m.admitRequest saturating groups maxActive cutoff = some (after, result)) :
    (after = before ∧ ∃ e, result = .error e) ∨
      (after = (SeriesMemTable.admitted groups before).1 ∧
        result = .ok (SeriesMemTable.admitted groups before).2) := by
  rw [SeriesMemTable.admitRequest, hroom] at h
  cases maxActive with
  | none =>
    obtain ⟨rfl, rfl⟩ := Prod.mk.inj (Option.some.inj h)
    exact .inr ⟨rfl, rfl⟩
  | some limit =>
    simp only [Option.bind_eq_bind, Option.bind_some] at h
    split_ifs at h
    · obtain ⟨rfl, rfl⟩ := Prod.mk.inj (Option.some.inj h)
      exact .inl ⟨rfl, _, rfl⟩
    · obtain ⟨rfl, rfl⟩ := Prod.mk.inj (Option.some.inj h)
      exact .inr ⟨rfl, rfl⟩

theorem Counts.of_table {m : SeriesMemTable ν} (h : L.Counts) (hfewer : L.table.Fewer m) :
    (⟨m, L.inFlight⟩ : Ledger ν).Counts :=
  ⟨fun key => (hfewer key).trans (h.refs key), h.nodup, h.admitted⟩

theorem Counts.admitRequest (h : L.Counts) {groups : Groups ν} {maxActive : Option ℕ} {cutoff : Nanos}
    (hstep : L.admitRequest groups maxActive cutoff = some L') : L'.Counts := by
  obtain ⟨before, hroom, hstep⟩ := Option.bind_eq_some_iff.1 hstep
  obtain ⟨⟨after, result⟩, hadmitted, hstep⟩ := Option.bind_eq_some_iff.1 hstep
  have hbefore := SeriesMemTable.makeRoom_fewer hroom
  rcases admitRequest_spec hroom hadmitted with ⟨rfl, e, rfl⟩ | ⟨rfl, rfl⟩
  · obtain rfl := Option.some.inj hstep
    exact h.of_table hbefore
  · obtain rfl := Option.some.inj hstep
    obtain ⟨hextends, hnodup, hrefs⟩ := SeriesMemTable.admitted_spec groups before
    refine ⟨fun key => ?_, fun admission hadmission => ?_, fun admission hadmission => ?_⟩
    · have hreserved : holders ⟨(SeriesMemTable.admitted groups before).1, L.inFlight ++
          (SeriesMemTable.admitted groups before).2.map fun reserved =>
            ⟨reserved, before, (SeriesMemTable.admitted groups before).1⟩⟩ key =
          L.holders key + SeriesMemTable.holders (SeriesMemTable.admitted groups before).2 key := by
        rw [holders, List.map_append, SeriesMemTable.holders_append, List.map_map]
        exact congrArg _ (congrArg (SeriesMemTable.holders · key) (List.map_id _))
      rw [hreserved]
      exact (hrefs key).trans (Nat.add_le_add_right ((hbefore key).trans (h.refs key)) _)
    · rcases List.mem_append.1 hadmission with hold | hnew
      · exact h.nodup admission hold
      · obtain ⟨keys, hkeys, rfl⟩ := List.mem_map.1 hnew
        exact hnodup keys hkeys
    · rcases List.mem_append.1 hadmission with hold | hnew
      · exact h.admitted admission hold
      · obtain ⟨keys, -, rfl⟩ := List.mem_map.1 hnew
        exact hextends

theorem holders_eraseIdx {i : ℕ} {admission : SeriesAdmission ν}
    (hi : L.inFlight[i]? = some admission) (key : SeriesKey) (m : SeriesMemTable ν) :
    L.holders key = holders ⟨m, L.inFlight.eraseIdx i⟩ key +
      if key ∈ admission.reserved then 1 else 0 := by
  obtain ⟨hlt, rfl⟩ := List.getElem?_eq_some_iff.1 hi
  have hperm := (List.getElem_cons_eraseIdx_perm hlt).map fun a : SeriesAdmission ν => a.reserved
  rw [holders, holders, SeriesMemTable.holders, SeriesMemTable.holders, ← hperm.countP_eq,
    List.map_cons, List.countP_cons]
  simp only [decide_eq_true_eq]

/-- A settled admission takes its references with it. -/
theorem Counts.settle (h : L.Counts) {i : ℕ} {admission : SeriesAdmission ν}
    (hi : L.inFlight[i]? = some admission) {m : SeriesMemTable ν}
    (hrefs : ∀ key, m.refsAt key ≤
      if key ∈ admission.reserved then L.table.refsAt key - 1 else L.table.refsAt key) :
    (⟨m, L.inFlight.eraseIdx i⟩ : Ledger ν).Counts := by
  refine ⟨fun key => ?_, fun other hother => h.nodup other (List.mem_of_mem_eraseIdx hother),
    fun other hother => h.admitted other (List.mem_of_mem_eraseIdx hother)⟩
  have hholders := holders_eraseIdx hi key m
  have hbefore := h.refs key
  refine (hrefs key).trans ?_
  split_ifs at hholders ⊢ <;> omega

theorem drop_eq {i : ℕ} {admission : SeriesAdmission ν} (hi : L.inFlight[i]? = some admission) :
    ∃ m, L.drop i = some ⟨m, L.inFlight.eraseIdx i⟩ ∧
      m.inner = (admission.reserved.foldl SeriesMemTable.rollbackOne (L.table, 0, 0)).1.inner := by
  obtain ⟨m, hm, hinner⟩ : ∃ m, L.table.rollbackAdmission saturating admission.reserved = some m ∧
      m.inner = (admission.reserved.foldl SeriesMemTable.rollbackOne (L.table, 0, 0)).1.inner :=
    ⟨_, rfl, rfl⟩
  refine ⟨m, ?_, hinner⟩
  rw [drop, hi]
  exact Option.bind_eq_some_iff.2 ⟨admission, rfl, Option.bind_eq_some_iff.2 ⟨m, hm, rfl⟩⟩

theorem refsAt_of_inner {m m' : SeriesMemTable ν} (h : m'.inner = m.inner) (key : SeriesKey) :
    m'.refsAt key = m.refsAt key := by
  rw [SeriesMemTable.refsAt, SeriesMemTable.refsAt, SeriesMemTable.tenantOf,
    SeriesMemTable.tenantOf, h]

/-- **What a call keeps.** -/
theorem Counts.step [DecidableEq ν] {F : Floats ν} {bits : ν → Word} (h : L.Counts) {call : Call ν}
    (hstep : L.step F bits call = some L') : L'.Counts := by
  cases call with
  | admitRequest groups maxActive cutoff => exact h.admitRequest hstep
  | commit i =>
    obtain ⟨admission, hi, rfl⟩ := Option.map_eq_some_iff.1 hstep
    exact h.settle hi (SeriesMemTable.refsAt_commitAdmission L.table
      (h.nodup admission (List.mem_of_getElem? hi)))
  | drop i =>
    obtain ⟨admission, hi, -⟩ := Option.bind_eq_some_iff.1 hstep
    obtain ⟨m, hdrop, hinner⟩ := drop_eq hi
    obtain rfl := Option.some.inj (hdrop.symm.trans hstep)
    refine h.settle hi fun key => ?_
    rw [refsAt_of_inner hinner]
    exact SeriesMemTable.foldl_oneFewer (fun acc => acc.1.refsAt) SeriesMemTable.refsAt_rollbackOne
      (h.nodup admission (List.mem_of_getElem? hi)) (L.table, 0, 0) key
  | other event =>
    rw [Ledger.step] at hstep
    split_ifs at hstep with hsettles
    obtain ⟨m, hm, rfl⟩ := Option.map_eq_some_iff.1 hstep
    refine h.of_table ?_
    cases event with
    | insert samples => exact SeriesMemTable.insert_fewer hm
    | beginFlush => exact SeriesMemTable.beginFlush_fewer hm
    | commitFlush =>
      obtain rfl := Option.some.inj hm
      exact fun _ => le_rfl
    | abortFlush snapshot => exact SeriesMemTable.abortFlush_fewer hm
    | retireFlushed snapshot => exact SeriesMemTable.retireFlushed_fewer hm
    | evictIdle cutoff => exact SeriesMemTable.evictIdle_fewer hm
    | _ => exact absurd rfl hsettles

/-- **Every run** keeps count. -/
theorem counts_of_run [DecidableEq ν] {F : Floats ν} {bits : ν → Word} {calls : List (Call ν)}
    (h : calls.foldlM (Ledger.step F bits) .new = some L) : L.Counts :=
  foldlM_keeps (fun _ _ _ hcounts hstep => hcounts.step hstep) .new h

/-! ### Dropped admissions -/

/-- A dropped admission has left the series alone that were there before it, and leaves none behind
that it made, once no other admission in flight refers to it. -/
structure DropsClean (L L' : Ledger ν) (admission : SeriesAdmission ν) : Prop where
  admitted : ∀ key, (admission.before.kept key).isSome →
    admission.after.kept key = admission.before.kept key
  dropped : ∀ key, (admission.before.kept key).isSome → L'.table.kept key = L.table.kept key
  gone : ∀ key ∈ admission.reserved, admission.before.kept key = none →
    (∀ other ∈ L'.inFlight, key ∉ other.reserved) → L'.table.kept key = none

/-- When it does: the drop takes no entry that was there before the admission, and what the
admission made was not filled by somebody else. -/
structure MayDrop (L : Ledger ν) (i : ℕ) (admission : SeriesAdmission ν) : Prop where
  stays : ∀ key ∈ admission.reserved, (admission.before.kept key).isSome →
    L.table.leaves key = false
  unfilled : ∀ key ∈ admission.reserved, admission.before.kept key = none →
    (∀ other ∈ L.inFlight.eraseIdx i, key ∉ other.reserved) →
      (L.table.stateAt key).all (·.bufferId.isNone) = true

/-- **A dropped admission is clean exactly when** no entry that was there before it is without a
buffer and without a second reference by then, and nobody else has filled one that it made. -/
theorem drops_clean_iff [DecidableEq ν] {F : Floats ν} {bits : ν → Word} {calls : List (Call ν)}
    (hrun : calls.foldlM (Ledger.step F bits) .new = some L) {i : ℕ} {admission : SeriesAdmission ν}
    (hi : L.inFlight[i]? = some admission) :
    ∃ L', L.drop i = some L' ∧ (DropsClean L L' admission ↔ MayDrop L i admission) := by
  have hcounts := counts_of_run hrun
  have hin := List.mem_of_getElem? hi
  obtain ⟨m, hdrop, hinner⟩ := drop_eq hi
  refine ⟨_, hdrop, ?_⟩
  -- what the drop leaves of an entry
  obtain ⟨hstates, htotals⟩ := SeriesMemTable.rollback_spec (hcounts.nodup admission hin)
    (L.table, 0, 0)
  have hof : ∀ tenant, m.tenantOf tenant =
      (admission.reserved.foldl SeriesMemTable.rollbackOne (L.table, 0, 0)).1.tenantOf tenant := by
    intro tenant
    rw [SeriesMemTable.tenantOf, SeriesMemTable.tenantOf, hinner]
  have hkept : ∀ key, m.kept key =
      if key ∈ admission.reserved ∧ L.table.leaves key then none else L.table.kept key := by
    intro key
    have hstate : m.stateAt key = _ :=
      (congrArg (fun t => t.states.lookup key.2) (hof key.1)).trans (hstates key)
    rw [SeriesMemTable.kept, hstate, hof, htotals]
    split_ifs
    · rfl
    · rfl
  have hleaves : ∀ key, L.table.leaves key = true → (L.table.kept key).isSome = true := by
    intro key h
    rw [SeriesMemTable.leaves, Bool.and_eq_true] at h
    obtain ⟨state, hstate, -⟩ := (Option.any_eq_true _ _).1 h.1
    rw [SeriesMemTable.kept, hstate]
    rfl
  constructor
  · intro h
    refine ⟨fun key hkey hbefore => ?_, fun key hkey hbefore halone => ?_⟩
    · by_contra hleave
      rw [Bool.not_eq_false] at hleave
      have hsame := h.dropped key hbefore
      rw [hkept, if_pos ⟨hkey, hleave⟩] at hsame
      have hsome := hleaves key hleave
      rw [← hsame] at hsome
      cases hsome
    · have hnone := h.gone key hkey hbefore halone
      rw [hkept] at hnone
      split_ifs at hnone with hleave
      · rw [SeriesMemTable.leaves, Bool.and_eq_true] at hleave
        obtain ⟨state, hstate, hbuffer⟩ := (Option.any_eq_true _ _).1 hleave.2.1
        rw [hstate]
        exact hbuffer
      · rw [SeriesMemTable.kept, Option.map_eq_none_iff] at hnone
        rw [hnone]
        rfl
  · intro h
    refine ⟨fun key => (hcounts.admitted admission hin).kept, fun key hbefore => ?_,
      fun key hkey hbefore halone => ?_⟩
    · rw [hkept]
      refine if_neg fun hleave => ?_
      rw [h.stays key hleave.1 hbefore] at hleave
      exact absurd hleave.2 Bool.false_ne_true
    · have hbuffer := h.unfilled key hkey hbefore halone
      -- nobody else in flight refers to it
      have hnone : holders ⟨m, L.inFlight.eraseIdx i⟩ key = 0 := by
        refine List.countP_eq_zero.2 fun reserved hreserved => ?_
        obtain ⟨other, hother, rfl⟩ := List.mem_map.1 hreserved
        simpa using halone other hother
      have hrefs := hcounts.refs key
      rw [holders_eraseIdx hi key m, hnone, if_pos hkey] at hrefs
      rw [hkept]
      split_ifs with hleave
      · rfl
      · cases hstate : L.table.stateAt key with
        | none => rw [SeriesMemTable.kept, hstate]; rfl
        | some state =>
          rw [hstate] at hbuffer
          refine absurd ⟨hkey, ?_⟩ hleave
          rw [SeriesMemTable.leaves, hstate, Bool.and_eq_true]
          exact ⟨hbuffer, decide_eq_true (by omega)⟩

def natFloats : Floats ℕ := ⟨id, (· + ·), fun _ => ""⟩

/-- An increment of a counter. -/
def anIncrement : MetricSample ℕ := ⟨"acme", ⟨[109]⟩, .zero, .scalar 5, .delta⟩

def counterKey : SeriesKey := ("acme", anIncrement.labels)

/-- A request that is let in for a new series, and fails. -/
theorem drops_clean_new :
    ∃ L admission L', [Call.admitRequest [("acme", [anIncrement])] none .zero].foldlM
        (step natFloats (BitVec.ofNat 64)) .new = some L ∧
      L.inFlight[0]? = some admission ∧ L.drop 0 = some L' ∧ DropsClean L L' admission := by
  have hrun : ([Call.admitRequest [("acme", [anIncrement])] none .zero].foldlM
      (step natFloats (BitVec.ofNat 64)) .new).any (fun L => L.inFlight[0]?.any fun admission =>
        admission.reserved.all fun key => (admission.before.kept key).isNone &&
          (L.table.stateAt key).all (·.bufferId.isNone)) = true := by
    decide +kernel
  obtain ⟨L, hL, hany⟩ := (Option.any_eq_true _ _).1 hrun
  obtain ⟨admission, hi, hall⟩ := (Option.any_eq_true _ _).1 hany
  obtain ⟨L', hdrop, hclean⟩ := drops_clean_iff hL hi
  refine ⟨L, admission, L', hL, hi, hdrop, hclean.2 ⟨fun key hkey hbefore => ?_,
    fun key hkey _ _ => ?_⟩⟩
  · have hnone := (Bool.and_eq_true_iff.1 (List.all_eq_true.1 hall key hkey)).1
    rw [Option.isNone_iff_eq_none] at hnone
    rw [hnone] at hbefore
    cases hbefore
  · exact (Bool.and_eq_true_iff.1 (List.all_eq_true.1 hall key hkey)).2

/-- A counter whose samples have all become durable, and a request for it. -/
def flushedCounter : List (Call ℕ) :=
  [.admitRequest [("acme", [anIncrement])] none .zero, .other (.insert [anIncrement]), .commit 0,
    .other .beginFlush, .other .commitFlush, .admitRequest [("acme", [anIncrement])] none .zero]

/-- **A request that fails takes the total of a counter with it**: the series has nothing
buffered, like one that the request has made. -/
theorem drop_takes_total :
    ∃ L admission L', flushedCounter.foldlM (step natFloats (BitVec.ofNat 64)) .new = some L ∧
      L.inFlight[0]? = some admission ∧ L.drop 0 = some L' ∧
      admission.before.kept counterKey = some (some .zero, some 5, none) ∧
      L'.table.kept counterKey = none ∧ ¬ DropsClean L L' admission := by
  have hrun : (flushedCounter.foldlM (step natFloats (BitVec.ofNat 64)) .new).any (fun L =>
      L.inFlight[0]?.any fun admission => (L.drop 0).any fun L' =>
        admission.before.kept counterKey = some (some .zero, some 5, none) &&
          L.table.kept counterKey = some (some .zero, some 5, none) &&
            L'.table.kept counterKey = none) = true := by
    decide +kernel
  obtain ⟨L, hL, hrun⟩ := (Option.any_eq_true _ _).1 hrun
  obtain ⟨admission, hi, hrun⟩ := (Option.any_eq_true _ _).1 hrun
  obtain ⟨L', hdrop, hkept⟩ := (Option.any_eq_true _ _).1 hrun
  simp only [Bool.and_eq_true, decide_eq_true_eq] at hkept
  obtain ⟨⟨hbefore, hthere⟩, hgone⟩ := hkept
  refine ⟨L, admission, L', hL, hi, hdrop, hbefore, hgone, fun hclean => ?_⟩
  have hsame := hclean.dropped counterKey (by rw [hbefore]; rfl)
  rw [hgone, hthere] at hsame
  cases hsame

end Ledger

end Arena

end Metrics

end Obsy
