import Obsy.Metrics.Arena

/-!
# Calls that go tenant by tenant

Most calls change the index of some tenants and the counters, and nothing else.  What such a call
does to the memtable is said by what it does to one tenant.

* `TenantWise`: a relation of memtables that follows from one of tenants.
* `TenantWise.evictIdle`, `makeRoom`, `retireFlushed`, `commitAdmission`, `rollbackAdmission`,
  `admitRequest`: the rules of the calls.
-/

namespace Obsy

namespace Metrics

namespace Arena

open Part (Nanos)
open Runs (Release foldlM_keeps)

variable {ν : Type}

/-- Memtables are related as soon as their tenants are; the counters do not matter. -/
structure TenantWise (Q : TenantSeries ν → TenantSeries ν → Prop)
    (R : SeriesMemTable ν → SeriesMemTable ν → Prop) : Prop where
  refl : ∀ m, R m m
  trans : ∀ {m m' m''}, R m m' → R m' m'' → R m m''
  put : ∀ {m m' tenant t}, m'.inner = m.inner.insert tenant t → m'.flushing = m.flushing →
    Q (m.tenantOf tenant) t → R m m'
  count : ∀ {m m'}, m'.inner = m.inner → m'.flushing = m.flushing → R m m'

namespace TenantWise

variable {Q : TenantSeries ν → TenantSeries ν → Prop}
  {R : SeriesMemTable ν → SeriesMemTable ν → Prop} {m m' : SeriesMemTable ν} {sub : Release}
  {cutoff : Nanos}

theorem giveBack (h : TenantWise Q R) {acc : SeriesMemTable ν × ℕ}
    (hgive : SeriesMemTable.giveBack sub acc = some m') : R acc.1 m' := by
  obtain ⟨bytes, -, hgive⟩ := Option.bind_eq_some_iff.1 hgive
  obtain rfl := Option.some.inj hgive
  exact h.count rfl rfl

theorem settle (h : TenantWise Q R) {acc : SeriesMemTable ν × ℕ × ℕ}
    (hsettle : SeriesMemTable.settle sub acc = some m') : R acc.1 m' := by
  obtain ⟨bytes, -, hsettle⟩ := Option.bind_eq_some_iff.1 hsettle
  obtain ⟨active, -, hsettle⟩ := Option.bind_eq_some_iff.1 hsettle
  obtain rfl := Option.some.inj hsettle
  exact h.count rfl rfl

section

variable (h : TenantWise Q R) (hevict : ∀ t : TenantSeries ν, Q t (t.evictIdleLocked cutoff).series)

include h hevict

theorem evictIdleOf {acc acc' : SeriesMemTable ν × ℕ} {tenant : String}
    (hcall : SeriesMemTable.evictIdleOf sub cutoff acc tenant = some acc') : R acc.1 acc'.1 := by
  rw [SeriesMemTable.evictIdleOf] at hcall
  cases hlookup : acc.1.inner.lookup tenant with
  | none =>
    rw [hlookup] at hcall
    obtain rfl := Option.some.inj hcall
    exact h.refl _
  | some t =>
    rw [hlookup] at hcall
    obtain ⟨active, -, hcall⟩ := Option.bind_eq_some_iff.1 hcall
    obtain rfl := Option.some.inj hcall
    refine h.put rfl rfl ?_
    rw [SeriesMemTable.tenantOf_of_lookup hlookup]
    exact hevict t

theorem evictIdle (hcall : SeriesMemTable.evictIdle sub cutoff m = some m') : R m m' := by
  obtain ⟨acc, hfold, hcall⟩ := Option.bind_eq_some_iff.1 hcall
  have hevicted : R m acc.1 := foldlM_keeps (I := fun acc => R m acc.1)
    (fun acc tenant acc' hacc hstep => h.trans hacc (h.evictIdleOf hevict hstep)) (h.refl m) hfold
  exact h.trans hevicted (h.giveBack hcall)

theorem makeRoom (hcall : SeriesMemTable.makeRoom sub cutoff m = some m') : R m m' := by
  refine foldlM_keeps (I := R m) (fun before tenant after hbefore hstep => ?_) (h.refl m) hcall
  obtain ⟨acc, hone, hgive⟩ := Option.bind_eq_some_iff.1 hstep
  exact h.trans (h.trans hbefore (h.evictIdleOf hevict hone)) (h.giveBack hgive)

end

theorem retireFlushed (h : TenantWise Q R)
    (hretire : ∀ (t : TenantSeries ν) (labels : List SeriesLabels),
      Q t (labels.foldl TenantSeries.retire ⟨t, 0, 0⟩).series) {snapshot : SeriesSnapshot ν}
    (hcall : SeriesMemTable.retireFlushed sub snapshot m = some m') : R m m' := by
  have hone : ∀ acc entry, R (acc : SeriesMemTable ν × ℕ × ℕ).1 (SeriesMemTable.retireTenant acc entry).1 := by
    intro acc entry
    rw [SeriesMemTable.retireTenant]
    cases hlookup : acc.1.inner.lookup entry.1 with
    | none => exact h.refl _
    | some t =>
      refine h.put rfl rfl ?_
      rw [SeriesMemTable.tenantOf_of_lookup hlookup]
      exact hretire t _
  have hfold := List.foldlRecOn snapshot.entries SeriesMemTable.retireTenant (b := (m, 0, 0))
    (motive := fun acc => R m acc.1) (h.refl m) fun acc hacc entry _ => h.trans hacc (hone acc entry)
  exact h.trans hfold (h.settle hcall)

theorem commitAdmission (h : TenantWise Q R)
    (hcommit : ∀ (t : TenantSeries ν) labels, Q t (t.commitAdmission labels))
    (reserved : List SeriesKey) : R m (m.commitAdmission reserved) := by
  refine List.foldlRecOn reserved _ (motive := R m) (h.refl m) fun before hbefore key _ => ?_
  cases hlookup : before.inner.lookup key.1 with
  | none => exact hbefore
  | some t =>
    refine h.trans hbefore (h.put rfl rfl ?_)
    rw [SeriesMemTable.tenantOf_of_lookup hlookup]
    exact hcommit t key.2

theorem rollbackOne (h : TenantWise Q R)
    (hrollback : ∀ (t : TenantSeries ν) labels, Q t (t.rollbackAdmission labels).series)
    (acc : SeriesMemTable ν × ℕ × ℕ) (key : SeriesKey) :
    R acc.1 (SeriesMemTable.rollbackOne acc key).1 := by
  rw [SeriesMemTable.rollbackOne]
  cases hlookup : acc.1.inner.lookup key.1 with
  | none => exact h.refl _
  | some t =>
    refine h.put rfl rfl ?_
    rw [SeriesMemTable.tenantOf_of_lookup hlookup]
    exact hrollback t key.2

theorem rollbackAdmission (h : TenantWise Q R)
    (hrollback : ∀ (t : TenantSeries ν) labels, Q t (t.rollbackAdmission labels).series)
    {reserved : List SeriesKey} (hcall : m.rollbackAdmission sub reserved = some m') : R m m' := by
  have hfold := List.foldlRecOn reserved SeriesMemTable.rollbackOne (b := (m, 0, 0))
    (motive := fun acc => R m acc.1) (h.refl m)
    fun acc hacc key _ => h.trans hacc (h.rollbackOne hrollback acc key)
  exact h.trans hfold (h.settle hcall)

theorem createFor (h : TenantWise Q R)
    (hcreate : ∀ (t : TenantSeries ν) (labels : List SeriesLabels),
      Q t (labels.foldl TenantSeries.create ⟨t, 0, 0⟩).series)
    (groups : Groups ν) (tenant : String) : R m (SeriesMemTable.createFor groups m tenant) :=
  h.put rfl rfl (hcreate (m.tenantOf tenant) _)

theorem admitted (h : TenantWise Q R)
    (hcreate : ∀ (t : TenantSeries ν) (labels : List SeriesLabels),
      Q t (labels.foldl TenantSeries.create ⟨t, 0, 0⟩).series)
    (hreserve : ∀ (t : TenantSeries ν) (admittedTs : SeriesLabels → Nanos)
      (labels : List SeriesLabels),
      Q t (labels.foldl (fun t labels => t.reserve labels (admittedTs labels)) t))
    (groups : Groups ν) : R m (SeriesMemTable.admitted groups m).1 := by
  have hcreated := List.foldlRecOn (groups.map Prod.fst).dedup (SeriesMemTable.createFor groups)
    (motive := R m) (h.refl m) fun before hbefore tenant _ =>
      h.trans hbefore (h.createFor hcreate groups tenant)
  refine List.foldlRecOn groups (SeriesMemTable.reserveGroup groups) (b := (_, []))
    (motive := fun acc => R m acc.1) hcreated fun acc hacc group _ => ?_
  exact h.trans hacc (h.put rfl rfl (hreserve (acc.1.tenantOf group.1)
    (fun labels => (SeriesMemTable.requestedNewest groups group.1 labels).getD .min) _))

theorem admitRequest (h : TenantWise Q R)
    (hevict : ∀ t : TenantSeries ν, Q t (t.evictIdleLocked cutoff).series)
    (hcreate : ∀ (t : TenantSeries ν) (labels : List SeriesLabels),
      Q t (labels.foldl TenantSeries.create ⟨t, 0, 0⟩).series)
    (hreserve : ∀ (t : TenantSeries ν) (admittedTs : SeriesLabels → Nanos)
      (labels : List SeriesLabels),
      Q t (labels.foldl (fun t labels => t.reserve labels (admittedTs labels)) t))
    {groups : Groups ν} {maxActive : Option ℕ}
    {result : SeriesMemTable ν × Except AdmissionError (List (List SeriesKey))}
    (hcall : m.admitRequest sub groups maxActive cutoff = some result) : R m result.1 := by
  obtain ⟨room, hroom, hcall⟩ := Option.bind_eq_some_iff.1 hcall
  have hmade := h.makeRoom hevict hroom
  have hin := h.trans hmade (h.admitted hcreate hreserve groups)
  cases maxActive with
  | none =>
    obtain rfl := Option.some.inj hcall
    exact hin
  | some limit =>
    dsimp only at hcall
    split_ifs at hcall
    · obtain rfl := Option.some.inj hcall
      exact hmade
    · obtain rfl := Option.some.inj hcall
      exact hin

end TenantWise

end Arena

end Metrics

end Obsy
