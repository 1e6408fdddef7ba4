import Obsy.Metrics.Ownership

/-!
# What the counters of the metric memtable say

The counters are changed in many places, each time by what a change is thought to be worth.

* `Accounted`: what the counters are to say.
* `Books`: the same in the middle of a call, before what has come and gone is settled.
* `counters_exact`: they say it in every run, unless an aborted flush puts back a series that has
  left the index, a failed request removes one with a running histogram, or samples of one series
  are of two kinds.
-/

namespace Obsy

namespace Metrics

namespace Arena

open Part (Nanos)
open Runs (Table Release Exact Each saturating checked)
open Runs.Table (tally mapValues tally_insert tally_erase tally_mapValues)

variable {ν : Type} {bits : ν → Word}

/-- What some series of a snapshot count for. -/
def listBytes (bits : ν → Word) (list : List (SnapshotSeries ν)) : ℕ :=
  (list.map (snapshotBytes bits)).sum

/-- What a flush has taken, in bytes. -/
def flyingBytes (bits : ν → Word) (flushing : Option (SeriesSnapshot ν)) : ℕ :=
  flushing.elim 0 (tally fun _ list => listBytes bits list)

/-- What the counters are to say. -/
structure Accounted (bits : ν → Word) (m : SeriesMemTable ν) : Prop where
  activeSeries : m.activeSeries = tally (fun _ t => t.count) m.inner
  innerBytes : m.innerBytes = tally (fun _ t => t.weight bits) m.inner
  flushingBytes : m.flushingBytes = flyingBytes bits m.flushing
  owns : ∀ tenant t, m.inner.lookup tenant = some t → t.Owns

/-- What the counters say in the middle of a call: bytes have come that are not charged, bytes and
entries have gone that are not given back. -/
structure Books (bits : ν → Word) (held : Option (SeriesSnapshot ν) × ℕ) (m : SeriesMemTable ν)
    (come gone left : ℕ) : Prop where
  activeSeries : m.activeSeries = tally (fun _ t => t.count) m.inner + left
  innerBytes : m.innerBytes + come = tally (fun _ t => t.weight bits) m.inner + gone
  kept : (m.flushing, m.flushingBytes) = held
  owns : ∀ tenant, (m.tenantOf tenant).Owns

theorem TenantSeries.Owns.new : (TenantSeries.new : TenantSeries ν).Owns := ⟨⟨rfl⟩, rfl⟩

theorem Accounted.new : Accounted bits (.new : SeriesMemTable ν) :=
  ⟨rfl, rfl, rfl, fun _ _ => nofun⟩

namespace SeriesMemTable

variable {held : Option (SeriesSnapshot ν) × ℕ} {m : SeriesMemTable ν} {come gone left : ℕ}

theorem owns_tenantOf (h : ∀ tenant t, m.inner.lookup tenant = some t → t.Owns) (tenant : String) :
    (m.tenantOf tenant).Owns := by
  rw [tenantOf]
  cases hlookup : m.inner.lookup tenant with
  | none => exact .new
  | some t => exact h tenant t hlookup

/-- What the place of one tenant is worth. -/
theorem tally_setTenant {f : TenantSeries ν → ℕ} (hf : f .new = 0) (tenant : String)
    (t : TenantSeries ν) :
    tally (fun _ t => f t) (m.setTenant tenant t).inner + f (m.tenantOf tenant) =
      tally (fun _ t => f t) m.inner + f t := by
  rw [setTenant, tally_insert, Table.tally_getD (k := tenant) hf m.inner, tenantOf]
  omega

end SeriesMemTable

namespace Books

variable {held : Option (SeriesSnapshot ν) × ℕ} {m : SeriesMemTable ν}
  {come gone left bytes entries : ℕ} {tenant : String} {t : TenantSeries ν}

theorem owns_setTenant (h : Books bits held m come gone left) (ht : t.Owns) (other : String) :
    ((m.setTenant tenant t).tenantOf other).Owns := by
  rw [SeriesMemTable.tenantOf_setTenant]
  split_ifs
  · exact ht
  · exact h.owns other

/-- Something came to a tenant. -/
theorem grow (h : Books bits held m come gone left)
    (hgrows : TenantSeries.Grows bits (m.tenantOf tenant) bytes entries t) :
    Books bits held { m.setTenant tenant t with activeSeries := m.activeSeries + entries }
      (come + bytes) gone left := by
  have hweight := m.tally_setTenant (f := fun t => t.weight bits) rfl tenant t
  have hcount := m.tally_setTenant (f := fun t => t.count) rfl tenant t
  have hcome := hgrows.weight
  have hentries := hgrows.count
  have hactive := h.activeSeries
  have hinner := h.innerBytes
  refine ⟨?_, ?_, h.kept, h.owns_setTenant hgrows.owns⟩
  · dsimp only at hcount ⊢
    omega
  · dsimp only [SeriesMemTable.setTenant] at hweight ⊢
    omega

/-- Something has left a tenant. -/
theorem shrink (h : Books bits held m come gone left)
    (hshrinks : TenantSeries.Shrinks bits (m.tenantOf tenant) bytes entries t) :
    Books bits held (m.setTenant tenant t) come (gone + bytes) (left + entries) := by
  have hweight := m.tally_setTenant (f := fun t => t.weight bits) rfl tenant t
  have hcount := m.tally_setTenant (f := fun t => t.count) rfl tenant t
  have hgone := hshrinks.weight
  have hentries := hshrinks.count
  have hactive := h.activeSeries
  have hinner := h.innerBytes
  refine ⟨?_, ?_, h.kept, h.owns_setTenant hshrinks.owns⟩
  · dsimp only [SeriesMemTable.setTenant] at hcount ⊢
    omega
  · dsimp only [SeriesMemTable.setTenant] at hweight ⊢
    omega

theorem charge (h : Books bits held m (come + bytes) gone left) :
    Books bits held { m with innerBytes := m.innerBytes + bytes } come gone left :=
  ⟨h.activeSeries, by have := h.innerBytes; dsimp only; omega, h.kept, h.owns⟩

/-- Entries that have left are no longer counted. -/
theorem release_active (h : Books bits held m come gone (left + entries)) :
    Exact (fun sub => sub m.activeSeries entries) fun active =>
      Books bits held { m with activeSeries := active } come gone left := by
  have hactive := h.activeSeries
  refine (Exact.release (by omega)).mono fun active hrest => ?_
  exact ⟨by dsimp only; omega, h.innerBytes, h.kept, h.owns⟩

/-- What has gone is given back. -/
theorem release_inner (h : Books bits held m 0 gone left) :
    Exact (fun sub => sub m.innerBytes gone) fun bytes =>
      Books bits held { m with innerBytes := bytes } 0 0 left := by
  have hinner := h.innerBytes
  refine (Exact.release (by omega)).mono fun bytes hrest => ?_
  exact ⟨h.activeSeries, by dsimp only; omega, h.kept, h.owns⟩

theorem accounted (h : Books bits held m 0 0 0) (hheld : held.2 = flyingBytes bits held.1) :
    Accounted bits m := by
  refine ⟨h.activeSeries, h.innerBytes, ?_, fun tenant t hlookup => ?_⟩
  · have hkept := h.kept
    rw [← hkept] at hheld
    exact hheld
  · have hown := h.owns tenant
    rwa [SeriesMemTable.tenantOf, hlookup] at hown

end Books

theorem Accounted.books {m : SeriesMemTable ν} (h : Accounted bits m) :
    Books bits (m.flushing, m.flushingBytes) m 0 0 0 :=
  ⟨h.activeSeries, h.innerBytes, rfl, SeriesMemTable.owns_tenantOf h.owns⟩

namespace SeriesMemTable

variable {held : Option (SeriesSnapshot ν) × ℕ} {m : SeriesMemTable ν}

/-! ### Series that leave -/

theorem evictIdleOf_exact {acc : SeriesMemTable ν × ℕ} (h : Books bits held acc.1 0 acc.2 0)
    (cutoff : Nanos) (tenant : String) :
    Exact (fun sub => evictIdleOf sub cutoff acc tenant)
      fun acc' => Books bits held acc'.1 0 acc'.2 0 := by
  unfold evictIdleOf
  cases hlookup : acc.1.inner.lookup tenant with
  | none => exact .of_some h
  | some t =>
    have hof := tenantOf_of_lookup hlookup
    have hbooks := h.shrink (TenantSeries.evictIdleLocked_shrinks (h.owns tenant) cutoff)
    rw [hof] at hbooks
    exact Exact.bind hbooks.release_active fun active hactive => .of_some hactive

theorem giveBack_exact {acc : SeriesMemTable ν × ℕ} (h : Books bits held acc.1 0 acc.2 0) :
    Exact (fun sub => giveBack sub acc) fun m => Books bits held m 0 0 0 :=
  Exact.bind h.release_inner fun _ hbytes => .of_some hbytes

theorem evictIdle_exact (h : Books bits held m 0 0 0) (cutoff : Nanos) :
    Exact (fun sub => evictIdle sub cutoff m) fun m => Books bits held m 0 0 0 := by
  have hfold : Exact (fun sub => m.inner.keys.foldlM (evictIdleOf sub cutoff) (m, 0))
      fun acc => Books bits held acc.1 0 acc.2 0 :=
    Exact.foldlM_of_forall (fun acc tenant hacc => evictIdleOf_exact hacc cutoff tenant) _ h
  exact hfold.bind fun acc hacc => giveBack_exact hacc

theorem makeRoom_exact (h : Books bits held m 0 0 0) (cutoff : Nanos) :
    Exact (fun sub => makeRoom sub cutoff m) fun m => Books bits held m 0 0 0 := by
  refine Exact.foldlM_of_forall (fun m tenant hm => ?_) _ h
  have hevict := @evictIdleOf_exact _ _ _ (m, 0) hm cutoff tenant
  exact hevict.bind fun acc hacc => giveBack_exact hacc

theorem settle_exact {acc : SeriesMemTable ν × ℕ × ℕ}
    (h : Books bits held acc.1 0 acc.2.1 acc.2.2) :
    Exact (fun sub => settle sub acc) fun m => Books bits held m 0 0 0 := by
  refine Exact.bind h.release_inner fun bytes hbytes => ?_
  rw [← Nat.zero_add acc.2.2] at hbytes
  exact Exact.bind hbytes.release_active fun active hactive => .of_some hactive

theorem retireTenant_books {acc : SeriesMemTable ν × ℕ × ℕ}
    (h : Books bits held acc.1 0 acc.2.1 acc.2.2)
    (entry : (_ : String) × List (SnapshotSeries ν)) :
    Books bits held (retireTenant acc entry).1 0 (retireTenant acc entry).2.1
      (retireTenant acc entry).2.2 := by
  rw [retireTenant]
  cases hlookup : acc.1.inner.lookup entry.1 with
  | none => exact h
  | some t =>
    have hof := tenantOf_of_lookup hlookup
    have hstart : TenantSeries.Shrinks bits t 0 0 t := .refl (hof ▸ h.owns entry.1)
    have hretired := List.foldlRecOn (entry.2.map (·.labels)) TenantSeries.retire
      (motive := fun c => TenantSeries.Shrinks bits t c.bytes c.entries c.series)
      (b := ⟨t, 0, 0⟩) hstart fun c hc labels _ => TenantSeries.retire_shrinks hc labels
    rw [← hof] at hretired ⊢
    exact h.shrink hretired

theorem retireFlushed_exact (h : Books bits held m 0 0 0) (snapshot : SeriesSnapshot ν) :
    Exact (fun sub => retireFlushed sub snapshot m) fun m => Books bits held m 0 0 0 :=
  settle_exact <| List.foldlRecOn snapshot.entries retireTenant
    (motive := fun acc => Books bits held acc.1 0 acc.2.1 acc.2.2) h
    fun _ hacc entry _ => retireTenant_books hacc entry

theorem rollbackOne_books {acc : SeriesMemTable ν × ℕ × ℕ}
    (h : Books bits held acc.1 0 acc.2.1 acc.2.2) {key : SeriesKey}
    (hkey : ¬ (acc.1.tenantOf key.1).Stranded key.2) :
    Books bits held (rollbackOne acc key).1 0 (rollbackOne acc key).2.1
      (rollbackOne acc key).2.2 := by
  rw [rollbackOne]
  cases hlookup : acc.1.inner.lookup key.1 with
  | none => exact h
  | some t =>
    have hof := tenantOf_of_lookup hlookup
    have hbooks := h.shrink (TenantSeries.rollbackAdmission_shrinks (h.owns key.1) hkey)
    rw [hof] at hbooks
    exact hbooks

/-! ### Requests -/

theorem createFor_books (h : Books bits held m 0 0 0) (groups : Groups ν) (tenant : String) :
    Books bits held (createFor groups m tenant) 0 0 0 := by
  have hgrows := List.foldlRecOn (requestedOf groups tenant) TenantSeries.create
    (motive := fun c => TenantSeries.Grows bits (m.tenantOf tenant) c.bytes c.entries c.series)
    (b := ⟨m.tenantOf tenant, 0, 0⟩) (.refl (h.owns tenant))
    fun c hc labels _ => TenantSeries.create_grows hc labels
  exact (h.grow hgrows).charge

theorem reserveGroup_books {groups : Groups ν} {acc : SeriesMemTable ν × List (List SeriesKey)}
    (h : Books bits held acc.1 0 0 0) (group : String × List (MetricSample ν)) :
    Books bits held (reserveGroup groups acc group).1 0 0 0 := by
  have hgrows := List.foldlRecOn (toReserve acc.1 group) _
    (motive := fun t => TenantSeries.Grows bits (acc.1.tenantOf group.1) 0 0 t)
    (.refl (h.owns group.1)) fun t ht labels _ => TenantSeries.reserve_grows ht labels
      ((requestedNewest groups group.1 labels).getD .min)
  exact h.grow hgrows

theorem admitted_books (h : Books bits held m 0 0 0) (groups : Groups ν) :
    Books bits held (admitted groups m).1 0 0 0 := by
  have hcreated := List.foldlRecOn (groups.map Prod.fst).dedup (createFor groups)
    (motive := fun m => Books bits held m 0 0 0) h fun m hm tenant _ => createFor_books hm groups tenant
  exact List.foldlRecOn groups (reserveGroup groups)
    (motive := fun acc => Books bits held acc.1 0 0 0) (b := (_, [])) hcreated
    fun acc hacc group _ => reserveGroup_books hacc group

theorem admitRequest_exact (h : Books bits held m 0 0 0) (groups : Groups ν)
    (maxActive : Option ℕ) (cutoff : Nanos) :
    Exact (fun sub => admitRequest sub groups maxActive cutoff m)
      fun r => Books bits held r.1 0 0 0 := by
  refine (makeRoom_exact h cutoff).bind fun m hm => ?_
  cases maxActive with
  | none => exact .of_some (admitted_books hm groups)
  | some limit =>
    dsimp only
    split_ifs
    · exact .of_some hm
    · exact .of_some (admitted_books hm groups)

theorem commitAdmission_books (h : Books bits held m 0 0 0) (reserved : List SeriesKey) :
    Books bits held (m.commitAdmission reserved) 0 0 0 := by
  refine List.foldlRecOn reserved _ (motive := fun m => Books bits held m 0 0 0) h
    fun m hm key _ => ?_
  cases hlookup : m.inner.lookup key.1 with
  | none => exact hm
  | some t =>
    have hof := tenantOf_of_lookup hlookup
    have hbooks := hm.grow (TenantSeries.commitAdmission_grows (hm.owns key.1) key.2)
    rw [hof] at hbooks
    exact hbooks

/-! ### Samples -/

theorem insertSample_exact [DecidableEq ν] (F : Floats ν) {acc : SeriesMemTable ν × ℕ}
    (h : Books bits held acc.1 acc.2 0 0) {sample : MetricSample ν}
    (hfits : TenantSeries.Fits F bits (acc.1.tenantOf sample.tenant) sample) :
    Exact (fun sub => insertSample sub F bits acc sample)
      fun acc' => Books bits held acc'.1 acc'.2 0 0 := by
  have hsample := TenantSeries.insertSample_exact F (h.owns sample.tenant) hfits
  exact hsample.bind fun c hc => .of_some (h.grow hc)

theorem insert_exact [DecidableEq ν] (F : Floats ν) (h : Books bits held m 0 0 0)
    {samples : List (MetricSample ν)}
    (hfits : Each (insertSample saturating F bits)
      (fun acc sample => TenantSeries.Fits F bits (acc.1.tenantOf sample.tenant) sample)
      (m, 0) samples) :
    Exact (fun sub => insert sub F bits samples m) fun m => Books bits held m 0 0 0 := by
  have hfold : Exact (fun sub => samples.foldlM (insertSample sub F bits) (m, 0))
      fun acc => Books bits held acc.1 acc.2 0 0 :=
    Exact.foldlM (fun acc sample hacc hsample => insertSample_exact F hacc hsample) _ h hfits
  refine hfold.bind fun acc hacc => .of_some ?_
  rw [← Nat.zero_add acc.2] at hacc
  exact hacc.charge

/-! ### Flushes -/

theorem listBytes_append (first second : List (SnapshotSeries ν)) :
    listBytes bits (first ++ second) = listBytes bits first + listBytes bits second := by
  rw [listBytes, List.map_append, List.sum_append]
  rfl

theorem flyingBytes_fold (flushing : Option (SeriesSnapshot ν)) (tenants : SeriesSnapshot ν) :
    flyingBytes bits (some ((flushing.elim [] AList.entries).foldl foldIn tenants)) =
      flyingBytes bits flushing + tally (fun _ list => listBytes bits list) tenants := by
  rw [flyingBytes, Option.elim_some,
    tally_foldl_foldIn (fun _ => rfl) (fun _ => listBytes_append)]
  cases flushing <;> rfl

theorem beginFlush_exact (h : Accounted bits m) :
    Exact (fun sub => beginFlush sub bits m) (Accounted bits) := by
  -- what stays behind of each tenant and what is taken of it
  have hshrinks : ∀ tenant t, (⟨tenant, t⟩ : (_ : String) × TenantSeries ν) ∈ m.inner.entries →
      TenantSeries.Shrinks bits t (t.takeBuffers bits).moved 0 t.flushed := fun tenant t ht =>
    TenantSeries.flushed_shrinks (h.owns tenant t (AList.mem_lookup_iff.2 ht))
  have hweight : tally (fun _ t => t.flushed.weight bits) m.inner +
      tally (fun _ t => (t.takeBuffers bits).moved) m.inner = m.innerBytes := by
    rw [h.innerBytes, ← Table.tally_add]
    exact Table.tally_congr fun tenant t ht => (hshrinks tenant t ht).weight
  have hcount : tally (fun _ t => t.flushed.count) m.inner = m.activeSeries := by
    rw [h.activeSeries]
    exact Table.tally_congr fun tenant t ht => (hshrinks tenant t ht).count
  refine (Exact.release (by omega)).bind fun bytes hbytes => .of_some ⟨?_, ?_, ?_, ?_⟩
  · rw [tally_mapValues]
    exact hcount.symm
  · rw [tally_mapValues]
    dsimp only
    omega
  · have hflying := h.flushingBytes
    rw [flyingBytes_fold, ← hflying]
    rfl
  · intro tenant t hlookup
    rw [Table.lookup_mapValues] at hlookup
    obtain ⟨before, hbefore, rfl⟩ := Option.map_eq_some_iff.1 hlookup
    exact (@TenantSeries.flushed_shrinks ν bits before (h.owns tenant before hbefore)).owns

theorem commitFlush_accounted (h : Accounted bits m) : Accounted bits m.commitFlush :=
  ⟨h.activeSeries, h.innerBytes, rfl, h.owns⟩

/-- The series of a snapshot still have their entries. -/
def Present (m : SeriesMemTable ν) (snapshot : SeriesSnapshot ν) : Prop :=
  ∀ entry ∈ snapshot.entries, ∀ series ∈ entry.2, series.labels ∈ (m.tenantOf entry.1).states

theorem restoreTenant_exact {acc : SeriesMemTable ν × ℕ} (h : Books bits held acc.1 acc.2 0 0)
    {entry : (_ : String) × List (SnapshotSeries ν)}
    (hpresent : ∀ series ∈ entry.2, series.labels ∈ (acc.1.tenantOf entry.1).states) :
    Exact (fun sub => restoreTenant sub bits acc entry) fun acc' =>
      Books bits held acc'.1 acc'.2 0 0 ∧
        ∀ tenant, ∀ labels ∈ (acc.1.tenantOf tenant).states,
          labels ∈ (acc'.1.tenantOf tenant).states := by
  have hfold : ∀ (list : List (SnapshotSeries ν)) (c : Change ν),
      (∀ series ∈ list, series.labels ∈ c.series.states) →
      TenantSeries.Grows bits (acc.1.tenantOf entry.1) c.bytes 0 c.series →
      Exact (fun sub => list.foldlM (TenantSeries.restore bits sub) c) fun c' =>
        TenantSeries.Grows bits (acc.1.tenantOf entry.1) c'.bytes 0 c'.series ∧
          ∀ labels ∈ c.series.states, labels ∈ c'.series.states := by
    intro list
    induction list with
    | nil => exact fun c _ hc => .of_some ⟨hc, fun _ hmem => hmem⟩
    | cons series list ih =>
      intro c hmem hc
      refine (TenantSeries.restore_exact hc (hmem series List.mem_cons_self)).bind
        fun c' ⟨hc', hkept⟩ => ?_
      refine (ih c' (fun other hother => ?_) hc').mono fun c'' ⟨hc'', hkept'⟩ => ?_
      · exact hkept _ (hmem other (List.mem_cons_of_mem _ hother))
      · exact ⟨hc'', fun labels hlabels => hkept' labels (hkept labels hlabels)⟩
  refine (hfold entry.2 ⟨acc.1.tenantOf entry.1, 0, 0⟩ hpresent (.refl (h.owns entry.1))).bind
    fun c ⟨hc, hkept⟩ => .of_some ⟨h.grow hc, fun tenant labels hlabels => ?_⟩
  rw [tenantOf_setTenant]
  split_ifs with heq
  · exact hkept labels (heq ▸ hlabels)
  · exact hlabels

theorem abortFlush_exact (h : Accounted bits m) {snapshot : SeriesSnapshot ν}
    (hpresent : Present m snapshot) :
    Exact (fun sub => abortFlush sub bits snapshot m) (Accounted bits) := by
  have hfold : ∀ (entries : List ((_ : String) × List (SnapshotSeries ν)))
      (acc : SeriesMemTable ν × ℕ),
      (∀ entry ∈ entries, ∀ series ∈ entry.2, series.labels ∈ (acc.1.tenantOf entry.1).states) →
      Books bits (none, m.flushingBytes) acc.1 acc.2 0 0 →
      Exact (fun sub => entries.foldlM (restoreTenant sub bits) acc)
        fun acc' => Books bits (none, m.flushingBytes) acc'.1 acc'.2 0 0 := by
    intro entries
    induction entries with
    | nil => exact fun acc _ hacc => .of_some hacc
    | cons entry entries ih =>
      intro acc hmem hacc
      refine (restoreTenant_exact hacc (hmem entry List.mem_cons_self)).bind
        fun acc' ⟨hacc', hkept⟩ => ?_
      refine ih acc' (fun other hother series hseries => ?_) hacc'
      exact hkept _ _ (hmem other (List.mem_cons_of_mem _ hother) series hseries)
  have hstart : Books bits (none, m.flushingBytes) { m with flushing := none } 0 0 0 :=
    ⟨h.activeSeries, h.innerBytes, rfl, owns_tenantOf h.owns⟩
  refine (hfold snapshot.entries ({ m with flushing := none }, 0) hpresent hstart).bind
    fun acc hacc => .of_some ?_
  rw [← Nat.zero_add acc.2] at hacc
  obtain ⟨hactive, hinner, hkept, howns⟩ := hacc.charge
  have hend : Books bits (none, 0) { acc.1 with
      flushingBytes := 0, innerBytes := acc.1.innerBytes + acc.2 } 0 0 0 :=
    ⟨hactive, hinner, Prod.ext (Prod.ext_iff.1 hkept).1 rfl, howns⟩
  exact hend.accounted rfl

end SeriesMemTable

/-! ### Runs -/

variable [DecidableEq ν]

/-- When a call leaves the counters right: a sample is none that makes its buffer count for less or
leaves a total behind, a failed request does not remove a series whose total is in the arena, and
the series of an aborted flush still have their entries. -/
def Meets (F : Floats ν) (bits : ν → Word) (m : SeriesMemTable ν) : Event ν → Prop
  | .insert samples =>
    Each (SeriesMemTable.insertSample saturating F bits)
      (fun acc sample => TenantSeries.Fits F bits (acc.1.tenantOf sample.tenant) sample)
      (m, 0) samples
  | .rollbackAdmission reserved =>
    Each (fun acc key => some (SeriesMemTable.rollbackOne acc key))
      (fun acc key => ¬ (acc.1.tenantOf key.1).Stranded key.2) (m, 0, 0) reserved
  | .abortFlush snapshot => m.Present snapshot
  | _ => True

/-- **A call** that meets the condition keeps the counters right, and clamps nowhere. -/
theorem step_exact (F : Floats ν) {m : SeriesMemTable ν} (h : Accounted bits m) {event : Event ν}
    (hmeets : Meets F bits m event) :
    Exact (fun sub => step F bits sub m event) (Accounted bits) := by
  have hbooks := h.books
  have hback : ∀ m', Books bits (m.flushing, m.flushingBytes) m' 0 0 0 → Accounted bits m' :=
    fun m' hm' => hm'.accounted h.flushingBytes
  cases event with
  | admitRequest groups maxActive cutoff =>
    exact (SeriesMemTable.admitRequest_exact hbooks groups maxActive cutoff).map
      fun r hr => hback r.1 hr
  | commitAdmission reserved =>
    exact .of_some (hback _ (SeriesMemTable.commitAdmission_books hbooks reserved))
  | rollbackAdmission reserved =>
    have hfold := Each.foldl (I := fun acc => Books bits _ acc.1 0 acc.2.1 acc.2.2)
      (fun acc key hacc hkey => SeriesMemTable.rollbackOne_books hacc hkey) hbooks hmeets
    exact (SeriesMemTable.settle_exact hfold).mono hback
  | insert samples => exact (SeriesMemTable.insert_exact F hbooks hmeets).mono hback
  | beginFlush => exact SeriesMemTable.beginFlush_exact h
  | commitFlush => exact .of_some (SeriesMemTable.commitFlush_accounted h)
  | abortFlush snapshot => exact SeriesMemTable.abortFlush_exact h hmeets
  | retireFlushed snapshot =>
    exact (SeriesMemTable.retireFlushed_exact hbooks snapshot).mono hback
  | evictIdle cutoff => exact (SeriesMemTable.evictIdle_exact hbooks cutoff).mono hback

/-- **The counters are right in every run** whose calls meet the condition, and no subtraction of it
is ever clamped. -/
theorem counters_exact (F : Floats ν) (events : List (Event ν))
    (h : Each (step F bits saturating) (Meets F bits) .new events) :
    Exact (fun sub => events.foldlM (step F bits sub) .new) (Accounted bits) :=
  Exact.foldlM (fun _ _ hm hmeets => step_exact F hm hmeets) events .new h

def unitFloats : Floats Unit := ⟨fun _ => (), fun _ _ => (), fun _ => ""⟩

def aSample : MetricSample Unit := ⟨"acme", ⟨[109]⟩, .zero, .scalar (), .gauge⟩

/-- What a flush takes of it. -/
def aSnapshot : SeriesSnapshot Unit :=
  (∅ : SeriesSnapshot Unit).insert "acme"
    [⟨aSample.labels, [[(.zero, ())]], [], [], some (.zero, .zero)⟩]

/-- A sample that was let in and is taken by a flush. -/
def takenRun : List (Event Unit) :=
  [.admitRequest [("acme", [aSample])] none .zero, .insert [aSample],
    .commitAdmission [("acme", aSample.labels)], .beginFlush]

/-- A flush that is aborted while its series are all there. -/
theorem counters_exact_taken :
    Exact (fun sub => [.insert [aSample], .beginFlush, .abortFlush aSnapshot].foldlM
      (step unitFloats (fun _ => 0) sub) .new) (Accounted fun _ => 0) := by
  have hfits : TenantSeries.Fits unitFloats (fun _ => 0)
      ((SeriesMemTable.new : SeriesMemTable Unit).tenantOf aSample.tenant) aSample :=
    ⟨fun _ _ => trivial, fun _ => nofun, fun _ _ hpoint => nomatch hpoint⟩
  refine counters_exact unitFloats _ ⟨⟨hfits, fun _ _ => trivial⟩, fun m hm => ⟨trivial,
    fun m' hm' => ⟨?_, fun _ _ => trivial⟩⟩⟩
  have hpresent : ([.insert [aSample], .beginFlush].foldlM
      (step unitFloats (fun _ => 0) saturating) .new).map
        (fun m => decide (aSample.labels ∈ (m.tenantOf aSample.tenant).states)) = some true := by
    decide +kernel
  have hrun : [.insert [aSample], .beginFlush].foldlM (step unitFloats (fun _ => 0) saturating)
      .new = some m' := by
    simp only [List.foldlM_cons, List.foldlM_nil, hm, hm', Option.bind_eq_bind, Option.bind_some,
      Option.pure_def]
  rw [hrun] at hpresent
  intro entry hentry series hseries
  obtain rfl := List.mem_singleton.1 hentry
  obtain rfl := List.mem_singleton.1 hseries
  exact of_decide_eq_true (Option.some.inj hpresent)

/-- **An aborted flush does not count the entries it makes again**: an idle series leaves while its
sample is taken, and comes back uncounted. -/
theorem counters_wrong_after_abort :
    (takenRun.foldlM (step unitFloats (fun _ => 0) saturating) .new).map
        (fun m => m.flushing.map AList.entries) = some (some aSnapshot.entries) ∧
      ¬ Exact (fun sub => (takenRun ++ [Event.evictIdle .max, .abortFlush aSnapshot]).foldlM
        (step unitFloats (fun _ => 0) sub) .new) (Accounted fun _ => 0) := by
  refine ⟨by decide +kernel, fun h => ?_⟩
  have hrun : ((takenRun ++ [Event.evictIdle .max, .abortFlush aSnapshot]).foldlM
      (step unitFloats (fun _ => 0) saturating) .new).map
        (fun m => (m.activeSeries, tally (fun _ t => t.count) m.inner)) = some (0, 1) := by
    decide +kernel
  obtain ⟨m, hm, hcounters⟩ := Option.map_eq_some_iff.1 hrun
  have hactive := (h m hm).2.activeSeries
  obtain ⟨hzero, hone⟩ := Prod.mk.inj hcounters
  omega

end Arena

end Metrics

end Obsy
