import Obsy.Admission.Memory
import Obsy.Journal.Record

/-!
# The gates of tenants and of bodies

A tenant has a bound on the queries that it runs at the same time, and the bodies of requests have a
bound on their bytes.  Each gate counts what it lets in, and what it lets in leaves once.

* `TenantQuota.beginQuery`, `TenantQuota.release`; `quotaMachine`: queries that begin and end in any
  order; `quota_isolated`: what decides about a tenant's next query.
* `IngestGate.admitBody`, `IngestGate.release`; `bodyMachine`; `bodies_counted`: the counter is the
  bytes of the bodies in flight, and an empty server lets any body in.
-/

namespace Obsy

namespace Admission

open Machine Runs
open Journal (TenantId)

/-! ### Queries -/

/-- A refusal of the ingest and query gates. -/
structure IngestError where
  /-- The status code. -/
  status : ℕ
  message : String
deriving DecidableEq

/-- The queries that tenants have in flight, under one limit for each of them. -/
structure TenantQuota where
  /-- `max_concurrent_queries_per_tenant as u32`. -/
  limit : ℕ
  /-- How many queries a tenant has in flight. -/
  inFlight : Table TenantId ℕ

namespace TenantQuota

/-- The refusal of a tenant that has as many queries in flight as it may. -/
def queryRefused (quota : TenantQuota) (tenant : TenantId) (running : ℕ) : IngestError :=
  ⟨429, "tenant " ++ tenant.raw ++ " already has " ++ toString running
    ++ " queries in flight, at its limit of " ++ toString quota.limit⟩

/-- `TenantQuota::begin_query`, under the lock. -/
def beginQuery (quota : TenantQuota) (tenant : TenantId) : Except IngestError Unit × TenantQuota :=
  -- `entry(tenant).or_insert(0)`, which stays when the tenant is refused
  let count := (quota.inFlight.lookup tenant).getD 0
  if quota.limit ≤ count then
    (.error (quota.queryRefused tenant count),
      { quota with inFlight := quota.inFlight.insert tenant count })
  else (.ok (), { quota with inFlight := quota.inFlight.insert tenant (count + 1) })

/-- What dropping a `QuerySlot` does, under the lock. -/
def release (quota : TenantQuota) (tenant : TenantId) : TenantQuota :=
  match quota.inFlight.lookup tenant with
  | none => quota
  | some count =>
    if count - 1 = 0 then { quota with inFlight := quota.inFlight.erase tenant }
    else { quota with inFlight := quota.inFlight.insert tenant (count - 1) }

/-- How many queries the quota has for a tenant. -/
def count (quota : TenantQuota) (tenant : TenantId) : ℕ := (quota.inFlight.lookup tenant).getD 0

end TenantQuota

structure Slots (κ : Type) where
  quota : TenantQuota
  /-- The tenant of each slot. -/
  held : Table κ TenantId

/-- A query begins or ends, however it ends. -/
inductive QueryMove (κ : Type)
  | begin (slot : κ) (tenant : TenantId)
  | finish (slot : κ)

variable {κ : Type} [DecidableEq κ]

/-- Queries that begin and end. -/
def quotaMachine : Machine (Slots κ) (QueryMove κ) where
  step s move :=
    match move with
    | .begin slot tenant =>
      if slot ∈ s.held then none else
      match s.quota.beginQuery tenant with
      | (.ok (), quota) => some ⟨quota, s.held.insert slot tenant⟩
      | (.error _, quota) => some ⟨quota, s.held⟩
    | .finish slot => (s.held.lookup slot).map fun tenant =>
      ⟨s.quota.release tenant, s.held.erase slot⟩

/-- A quota under which nobody runs a query. -/
def Slots.start (limit : ℕ) : Slots κ := ⟨⟨limit, ∅⟩, ∅⟩

def Slots.of (s : Slots κ) (tenant : TenantId) : ℕ :=
  Table.tally (fun _ holder => if holder = tenant then 1 else 0) s.held

/-- The quota counts the slots of each tenant, and none is over the limit. -/
structure Counted (s : Slots κ) : Prop where
  counts : ∀ tenant, s.quota.count tenant = s.of tenant
  limited : ∀ tenant, s.of tenant ≤ s.quota.limit
  /-- A tenant without a query has no entry, if queries are allowed. -/
  positive : 0 < s.quota.limit → ∀ tenant count,
    s.quota.inFlight.lookup tenant = some count → 0 < count

namespace TenantQuota

variable {quota : TenantQuota} {tenant other : TenantId}

theorem count_insert (quota : TenantQuota) (tenant other : TenantId) (n : ℕ) :
    TenantQuota.count { quota with inFlight := quota.inFlight.insert tenant n } other =
      if other = tenant then n else quota.count other := by
  rw [count]
  split
  · rename_i hsame
    rw [hsame, AList.lookup_insert, Option.getD_some]
  · rename_i hother
    rw [AList.lookup_insert_ne hother]
    rfl

theorem beginQuery_eq (quota : TenantQuota) (tenant : TenantId) :
    quota.beginQuery tenant =
      if quota.limit ≤ quota.count tenant then
        (.error (quota.queryRefused tenant (quota.count tenant)),
          { quota with inFlight := quota.inFlight.insert tenant (quota.count tenant) })
      else (.ok (),
        { quota with inFlight := quota.inFlight.insert tenant (quota.count tenant + 1) }) := rfl

theorem count_release (h : 0 < quota.count tenant) (other : TenantId) :
    (quota.release tenant).count other =
      if other = tenant then quota.count tenant - 1 else quota.count other := by
  cases hlookup : quota.inFlight.lookup tenant with
  | none =>
    rw [count, hlookup] at h
    cases h
  | some running =>
    have hcount : quota.count tenant = running := by rw [count, hlookup, Option.getD_some]
    rw [release, hlookup]
    dsimp only
    split
    · rename_i hlast
      rw [count]
      split
      · rename_i hsame
        rw [hsame, AList.lookup_erase, hcount, hlast, Option.getD_none]
      · rename_i hother
        rw [AList.lookup_erase_ne hother]
        rfl
    · rw [count_insert, hcount]

theorem release_limit (quota : TenantQuota) (tenant : TenantId) :
    (quota.release tenant).limit = quota.limit := by
  rw [release]
  split
  · rfl
  · split <;> rfl

end TenantQuota

namespace Slots

variable {s : Slots κ} {slot : κ} {tenant : TenantId}

theorem of_insert (hnew : s.held.lookup slot = none) (quota : TenantQuota) (other : TenantId) :
    Slots.of ⟨quota, s.held.insert slot tenant⟩ other =
      (if tenant = other then 1 else 0) + s.of other := by
  rw [Slots.of, Table.tally_insert, Table.erase_eq_self hnew]
  rfl

theorem of_erase (hheld : s.held.lookup slot = some tenant) (quota : TenantQuota)
    (other : TenantId) :
    s.of other =
      (if tenant = other then 1 else 0) + Slots.of ⟨quota, s.held.erase slot⟩ other :=
  Table.tally_erase _ hheld

end Slots

/-- **The step lemma** of the quota. -/
theorem Counted.step {s s' : Slots κ} {move : QueryMove κ} (h : Counted s)
    (hstep : quotaMachine.step s move = some s') :
    Counted s' ∧ s'.quota.limit = s.quota.limit := by
  cases move with
  | begin slot tenant =>
    simp only [quotaMachine, TenantQuota.beginQuery_eq] at hstep
    split at hstep
    · cases hstep
    · rename_i hnew
      have hnew : s.held.lookup slot = none := AList.lookup_eq_none.2 hnew
      by_cases hfull : s.quota.limit ≤ s.quota.count tenant
      · rw [if_pos hfull] at hstep
        obtain rfl := Option.some.inj hstep
        refine ⟨⟨fun other => ?_, h.limited, fun hpos other n hn => ?_⟩, rfl⟩
        · -- the entry that is put in changes no count
          have hcount := s.quota.count_insert tenant other (s.quota.count tenant)
          refine hcount.trans ?_
          split
          · rename_i hsame
            rw [← hsame]
            exact h.counts other
          · exact h.counts other
        · have hn : (s.quota.inFlight.insert tenant (s.quota.count tenant)).lookup other = some n :=
            hn
          by_cases hsame : other = tenant
          · subst hsame
            rw [AList.lookup_insert] at hn
            obtain rfl := Option.some.inj hn
            exact Nat.lt_of_lt_of_le hpos hfull
          · rw [AList.lookup_insert_ne hsame] at hn
            exact h.positive hpos other n hn
      · rw [if_neg hfull] at hstep
        obtain rfl := Option.some.inj hstep
        refine ⟨⟨fun other => ?_, fun other => ?_, fun hpos other n hn => ?_⟩, rfl⟩
        · rw [Slots.of_insert hnew]
          have hcount := s.quota.count_insert tenant other (s.quota.count tenant + 1)
          refine hcount.trans ?_
          rw [← h.counts other]
          split
          · rename_i hsame
            rw [if_pos hsame.symm, hsame, Nat.add_comm]
          · rename_i hother
            rw [if_neg (Ne.symm hother), Nat.zero_add]
        · rw [Slots.of_insert hnew]
          have hlimited := h.limited other
          split
          · rename_i hsame
            subst hsame
            rw [h.counts] at hfull
            show 1 + s.of tenant ≤ s.quota.limit
            omega
          · show 0 + s.of other ≤ s.quota.limit
            omega
        · have hn : (s.quota.inFlight.insert tenant (s.quota.count tenant + 1)).lookup other =
              some n := hn
          by_cases hsame : other = tenant
          · subst hsame
            rw [AList.lookup_insert] at hn
            obtain rfl := Option.some.inj hn
            exact Nat.succ_pos _
          · rw [AList.lookup_insert_ne hsame] at hn
            exact h.positive hpos other n hn
  | finish slot =>
    obtain ⟨tenant, hheld, rfl⟩ := Option.map_eq_some_iff.1 hstep
    have hsplit := Slots.of_erase hheld (s.quota.release tenant)
    have hcount : 0 < s.quota.count tenant := by
      rw [h.counts, hsplit, if_pos rfl]
      omega
    refine ⟨⟨fun other => ?_, fun other => ?_, fun hpos other n hn => ?_⟩,
      TenantQuota.release_limit _ _⟩
    · show (s.quota.release tenant).count other = _
      have hbefore := hsplit other
      rw [TenantQuota.count_release hcount, h.counts, h.counts]
      split
      · rename_i hsame
        subst hsame
        rw [if_pos rfl] at hbefore
        omega
      · rename_i hother
        rw [if_neg (Ne.symm hother)] at hbefore
        omega
    · show _ ≤ (s.quota.release tenant).limit
      rw [TenantQuota.release_limit]
      have hbefore := hsplit other
      have hlimited := h.limited other
      omega
    · have hpos : 0 < s.quota.limit := by
        rw [← TenantQuota.release_limit s.quota tenant]
        exact hpos
      have hn : (s.quota.release tenant).inFlight.lookup other = some n := hn
      rw [TenantQuota.release] at hn
      split at hn
      · exact h.positive hpos other n hn
      · split at hn
        · by_cases hsame : other = tenant
          · subst hsame
            rw [AList.lookup_erase] at hn
            cases hn
          · rw [AList.lookup_erase_ne hsame] at hn
            exact h.positive hpos other n hn
        · rename_i hleft
          by_cases hsame : other = tenant
          · subst hsame
            rw [AList.lookup_insert] at hn
            obtain rfl := Option.some.inj hn
            exact Nat.pos_of_ne_zero hleft
          · rw [AList.lookup_insert_ne hsame] at hn
            exact h.positive hpos other n hn

/-- **One tenant's queries decide about no other's.**  In every state that queries reach, beginning
and ending in any order, a tenant holds no more slots than the limit, its next query is let in
exactly if it holds fewer, and a refusal names the limit as what is running; a tenant that holds
none leaves nothing behind. -/
theorem quota_isolated (limit : ℕ) {moves : List (QueryMove κ)} {s : Slots κ}
    (hrun : quotaMachine.run (.start limit) moves = some s) (tenant : TenantId) :
    s.of tenant ≤ limit ∧
      (s.quota.beginQuery tenant).1 =
        (if s.of tenant < limit then .ok () else .error (s.quota.queryRefused tenant limit)) ∧
      (0 < limit → (tenant ∈ s.quota.inFlight ↔ 0 < s.of tenant)) := by
  have hstart : Counted (.start limit : Slots κ) :=
    ⟨fun _ => rfl, fun _ => Nat.zero_le _, fun _ _ _ hn => by
      have hn : (∅ : Table TenantId ℕ).lookup _ = some _ := hn
      rw [AList.lookup_empty] at hn
      cases hn⟩
  obtain ⟨h, hlimit⟩ : Counted s ∧ s.quota.limit = limit :=
    run_invariant (P := fun s : Slots κ => Counted s ∧ s.quota.limit = limit)
      (fun _ _ _ hs hstep => ⟨(hs.1.step hstep).1, (hs.1.step hstep).2.trans hs.2⟩)
      ⟨hstart, rfl⟩ hrun
  have hle : s.of tenant ≤ limit := hlimit ▸ h.limited tenant
  refine ⟨hle, ?_, fun hpos => ?_⟩
  · rw [TenantQuota.beginQuery_eq, h.counts, hlimit]
    by_cases hroom : s.of tenant < limit
    · rw [if_neg (Nat.not_le.2 hroom), if_pos hroom]
    · rw [if_pos (Nat.le_of_not_lt hroom), if_neg hroom,
        Nat.le_antisymm hle (Nat.le_of_not_lt hroom)]
  · have hcount := h.counts tenant
    rw [TenantQuota.count] at hcount
    constructor
    · intro hmem
      obtain ⟨n, hn⟩ := Option.isSome_iff_exists.1 (AList.lookup_isSome.2 hmem)
      rw [← hcount, hn]
      exact h.positive (hlimit.symm ▸ hpos) tenant n hn
    · intro hholds
      by_contra hnone
      rw [AList.lookup_eq_none.2 hnone, Option.getD_none] at hcount
      omega

def globex : TenantId := ⟨"globex", by decide, by decide, by decide⟩

def initech : TenantId := ⟨"initech", by decide, by decide, by decide⟩

/-- A tenant that may run two queries asks for three, and another one asks for one. -/
def sampleQueries : List (QueryMove ℕ) :=
  [.begin 0 globex, .begin 1 globex, .begin 2 globex, .begin 3 initech, .finish 3]

/-- At the end of such a run the one is refused and the other is not. -/
theorem quota_isolated_sample : ∃ s : Slots ℕ,
    quotaMachine.run (.start 2) sampleQueries = some s ∧
      (s.quota.beginQuery globex).1 = .error (s.quota.queryRefused globex 2) ∧
      (s.quota.beginQuery initech).1 = .ok () := by
  have hrun : (quotaMachine.run (.start 2) sampleQueries).isSome = true := by decide
  obtain ⟨s, hs⟩ := Option.isSome_iff_exists.1 hrun
  have hholds : ∀ s ∈ quotaMachine.run (.start 2) sampleQueries,
      s.of globex = 2 ∧ s.of initech = 0 := by decide
  obtain ⟨hglobex, hinitech⟩ := hholds s hs
  refine ⟨s, hs, ?_, ?_⟩
  · rw [(quota_isolated 2 hs globex).2.1, hglobex, if_neg (by decide)]
  · rw [(quota_isolated 2 hs initech).2.1, hinitech, if_pos (by decide)]

/-! ### Bodies -/

/-- The gate that bodies of requests come in by. -/
structure IngestGate where
  /-- `capacity_probe`: no bound is applied. -/
  capacityProbe : Bool
  /-- `max_inflight_push_bytes`. -/
  maxInflightPushBytes : Option ℕ
  /-- The bytes of the bodies that were let in and are not answered. -/
  inflightBodyBytes : ℕ
  /-- How many requests were told to come back. -/
  ingestThrottled : ℕ

namespace IngestGate

/-- `IngestGate::overloaded`. -/
def overloaded (gate : IngestGate) (message : String) : IngestError × IngestGate :=
  (⟨429, message⟩, { gate with ingestThrottled := increment gate.ingestThrottled })

def bodyRefused (gate : IngestGate) (bytes limit : ℕ) : String :=
  "in-flight request bodies hold " ++ toString gate.inflightBodyBytes
    ++ " bytes and this one is " ++ toString bytes ++ ", over the limit of " ++ toString limit
    ++ "; too many pushes are in flight at once"

/-- `IngestGate::admit_body`: what the body is charged, which its guard returns. -/
def admitBody (gate : IngestGate) (bytes : ℕ) : Except IngestError ℕ × IngestGate :=
  if gate.capacityProbe then (.ok 0, gate)
  else match gate.maxInflightPushBytes with
    | none => (.ok 0, gate)
    | some limit =>
      let current := gate.inflightBodyBytes
      if current = 0 ∨ saturatingAdd current bytes ≤ limit then
        (.ok bytes, { gate with inflightBodyBytes := saturatingAdd current bytes })
      else
        let refused := gate.overloaded (gate.bodyRefused bytes limit)
        (.error refused.1, refused.2)

/-- What dropping an `InflightBody` does. -/
def release (gate : IngestGate) (bytes : ℕ) : IngestGate :=
  { gate with inflightBodyBytes := gate.inflightBodyBytes - bytes }

end IngestGate

/-- The gate and the bodies that were let in, with what each was charged. -/
structure Bodies (κ : Type) where
  gate : IngestGate
  /-- The charges of the bodies in flight. -/
  inFlight : Table κ ℕ

inductive BodyMove (κ : Type)
  /-- A body of so many bytes arrives. -/
  | arrive (body : κ) (bytes : UInt64)
  /-- Its request is answered. -/
  | leave (body : κ)

/-- Bodies that arrive and leave. -/
def bodyMachine : Machine (Bodies κ) (BodyMove κ) where
  step s move :=
    match move with
    | .arrive body bytes =>
      if body ∈ s.inFlight then none else
      match s.gate.admitBody bytes.toNat with
      | (.ok charged, gate) => some ⟨gate, s.inFlight.insert body charged⟩
      | (.error _, gate) => some ⟨gate, s.inFlight⟩
    | .leave body => (s.inFlight.lookup body).map fun charged =>
      ⟨s.gate.release charged, s.inFlight.erase body⟩

/-- A gate with nothing in flight. -/
def Bodies.start (capacityProbe : Bool) (maxInflightPushBytes : Option ℕ) : Bodies κ :=
  ⟨⟨capacityProbe, maxInflightPushBytes, 0, 0⟩, ∅⟩

def Bodies.charged (s : Bodies κ) : ℕ := Table.tally (fun _ bytes => bytes) s.inFlight

/-- The bodies share the limit, or one of them has the server to itself. -/
def Bodies.Shares (s : Bodies κ) (limit : ℕ) : Prop :=
  s.charged ≤ limit ∨ ∃ body, s.inFlight.lookup body = some s.charged

structure Shared (s : Bodies κ) : Prop where
  counted : s.gate.inflightBodyBytes = s.charged
  shares : ∀ limit, s.gate.maxInflightPushBytes = some limit → s.Shares limit
  /-- The counter has the type of the code. -/
  fits : s.charged ≤ u64Max

/-- What `admit_body` lets in. -/
theorem admitBody_ok {gate gate' : IngestGate} {bytes charged : ℕ}
    (hfits : gate.inflightBodyBytes ≤ u64Max)
    (h : gate.admitBody bytes = (.ok charged, gate')) :
    gate'.maxInflightPushBytes = gate.maxInflightPushBytes ∧ charged ≤ bytes ∧
      gate'.inflightBodyBytes = saturatingAdd gate.inflightBodyBytes charged ∧
      (charged = 0 ∨ ∃ limit, gate.maxInflightPushBytes = some limit ∧
        (gate.inflightBodyBytes = 0 ∨ gate'.inflightBodyBytes ≤ limit)) := by
  have hfree : saturatingAdd gate.inflightBodyBytes 0 = gate.inflightBodyBytes :=
    saturatingAdd_eq hfits
  rw [IngestGate.admitBody] at h
  split at h
  · cases h
    exact ⟨rfl, Nat.zero_le _, hfree.symm, .inl rfl⟩
  · split at h
    · cases h
      exact ⟨rfl, Nat.zero_le _, hfree.symm, .inl rfl⟩
    · rename_i limit hlimit
      dsimp only at h
      split at h
      · rename_i hroom
        cases h
        exact ⟨rfl, Nat.le_refl _, rfl, .inr ⟨limit, hlimit, hroom⟩⟩
      · cases h

/-- What it refuses, and that it leaves the counter alone. -/
theorem admitBody_error {gate gate' : IngestGate} {bytes : ℕ} {refusal : IngestError}
    (h : gate.admitBody bytes = (.error refusal, gate')) :
    gate'.maxInflightPushBytes = gate.maxInflightPushBytes ∧
      gate'.inflightBodyBytes = gate.inflightBodyBytes ∧ gate.inflightBodyBytes ≠ 0 := by
  rw [IngestGate.admitBody] at h
  split at h
  · cases h
  · split at h
    · cases h
    · dsimp only at h
      split at h
      · cases h
      · rename_i hroom
        cases h
        exact ⟨rfl, rfl, fun hzero => hroom (.inl hzero)⟩

namespace Bodies

variable {s : Bodies κ} {body : κ} {bytes : ℕ}

theorem charged_insert (hnew : s.inFlight.lookup body = none) (gate : IngestGate) :
    Bodies.charged ⟨gate, s.inFlight.insert body bytes⟩ = bytes + s.charged := by
  rw [charged, Table.tally_insert, Table.erase_eq_self hnew]
  rfl

theorem charged_erase (hheld : s.inFlight.lookup body = some bytes) (gate : IngestGate) :
    s.charged = bytes + Bodies.charged ⟨gate, s.inFlight.erase body⟩ :=
  Table.tally_erase _ hheld

/-- A body that has the server to itself has it when another one leaves. -/
theorem Shares.erase {limit : ℕ} (h : s.Shares limit) (hheld : s.inFlight.lookup body = some bytes)
    (gate : IngestGate) : Bodies.Shares ⟨gate, s.inFlight.erase body⟩ limit := by
  have hsplit := charged_erase hheld gate
  rcases h with hle | ⟨alone, halone⟩
  · exact .inl (by omega)
  · by_cases hsame : alone = body
    · subst hsame
      rw [halone] at hheld
      obtain rfl := Option.some.inj hheld
      exact .inl (by omega)
    · -- what is left is the body that was alone, so the one that leaves was charged nothing
      have hstill : (s.inFlight.erase body).lookup alone = some s.charged := by
        rw [AList.lookup_erase_ne hsame]
        exact halone
      have hle : s.charged ≤ Bodies.charged ⟨gate, s.inFlight.erase body⟩ :=
        Table.le_tally (f := fun _ bytes => bytes) hstill
      refine .inr ⟨alone, ?_⟩
      rw [Nat.le_antisymm (by omega) hle]
      exact hstill

end Bodies

/-- **The step lemma** of the bodies. -/
theorem Shared.step {s s' : Bodies κ} {move : BodyMove κ}
    (hlimit : ∀ limit ∈ s.gate.maxInflightPushBytes, limit < u64Max) (h : Shared s)
    (hstep : bodyMachine.step s move = some s') :
    Shared s' ∧ s'.gate.maxInflightPushBytes = s.gate.maxInflightPushBytes := by
  cases move with
  | arrive body bytes =>
    simp only [bodyMachine] at hstep
    split at hstep
    · cases hstep
    · rename_i hnew
      have hnew : s.inFlight.lookup body = none := AList.lookup_eq_none.2 hnew
      split at hstep
      · rename_i charged gate hadmit
        obtain rfl := Option.some.inj hstep
        obtain ⟨hmax, hle, hcounter, hroom⟩ := admitBody_ok (h.counted ▸ h.fits) hadmit
        have htotal : Bodies.charged ⟨gate, s.inFlight.insert body charged⟩ = charged + s.charged :=
          Bodies.charged_insert hnew gate
        have hbytes : bytes.toNat ≤ u64Max := Nat.le_sub_one_of_lt bytes.toNat_lt
        -- nothing saturates: the server was empty, or the sum is within the limit
        have hsum : charged + s.charged ≤ u64Max := by
          rcases hroom with rfl | ⟨limit, hmaximum, hempty | hwithin⟩
          · rw [Nat.zero_add]
            exact h.fits
          · rw [← h.counted, hempty]
            omega
          · have hbelow := hlimit limit hmaximum
            rw [hcounter, saturatingAdd, h.counted] at hwithin
            omega
        have hcounted : gate.inflightBodyBytes = charged + s.charged := by
          rw [hcounter, h.counted, saturatingAdd_eq (by omega), Nat.add_comm]
        refine ⟨⟨hcounted.trans htotal.symm, fun limit hmaximum => ?_, htotal ▸ hsum⟩, hmax⟩
        have hset : s.gate.maxInflightPushBytes = some limit := hmax ▸ hmaximum
        rcases hroom with rfl | ⟨limit', hmaximum', hempty | hwithin⟩
        · rcases h.shares limit hset with hshare | ⟨alone, halone⟩
          · exact .inl (by rw [htotal]; omega)
          · refine .inr ⟨alone, ?_⟩
            have hne : alone ≠ body := fun hsame => by
              rw [hsame, hnew] at halone
              cases halone
            rw [htotal, Nat.zero_add]
            exact (AList.lookup_insert_ne hne).trans halone
        · refine .inr ⟨body, ?_⟩
          rw [htotal, ← h.counted, hempty, Nat.add_zero]
          exact AList.lookup_insert _
        · obtain rfl := Option.some.inj (hset.symm.trans hmaximum')
          exact .inl (by rw [htotal, ← hcounted]; exact hwithin)
      · rename_i refusal gate hadmit
        obtain rfl := Option.some.inj hstep
        obtain ⟨hmax, hsame, -⟩ := admitBody_error hadmit
        exact ⟨⟨hsame.trans h.counted, fun limit hmaximum => h.shares limit (hmax ▸ hmaximum),
          h.fits⟩, hmax⟩
  | leave body =>
    obtain ⟨charged, hheld, rfl⟩ := Option.map_eq_some_iff.1 hstep
    have hsplit := Bodies.charged_erase hheld (s.gate.release charged)
    refine ⟨⟨?_, fun limit hmaximum => (h.shares limit hmaximum).erase hheld _, ?_⟩, rfl⟩
    · show s.gate.inflightBodyBytes - charged = _
      rw [h.counted]
      omega
    · exact (by omega : _ ≤ s.charged).trans h.fits

/-- **The bodies of whole runs.**  The counter is what the bodies in flight were charged, which is
within the limit or what one body has that is alone in the server; nothing is left of bodies that
are answered; and an empty server lets any body in. -/
theorem bodies_counted (capacityProbe : Bool) (maxInflightPushBytes : Option ℕ)
    (hlimit : ∀ limit ∈ maxInflightPushBytes, limit < u64Max) {moves : List (BodyMove κ)}
    {s : Bodies κ}
    (hrun : bodyMachine.run (.start capacityProbe maxInflightPushBytes) moves = some s) :
    s.gate.inflightBodyBytes = s.charged ∧
      (∀ limit ∈ maxInflightPushBytes, s.Shares limit) ∧
      (s.charged = 0 → ∀ bytes, ∃ charged, (s.gate.admitBody bytes).1 = .ok charged) := by
  have hstart : Shared (.start capacityProbe maxInflightPushBytes : Bodies κ) :=
    ⟨rfl, fun _ _ => .inl (Nat.zero_le _), Nat.zero_le _⟩
  obtain ⟨h, hmax⟩ :
      Shared s ∧ s.gate.maxInflightPushBytes = maxInflightPushBytes :=
    run_invariant
      (P := fun s : Bodies κ => Shared s ∧ s.gate.maxInflightPushBytes = maxInflightPushBytes)
      (fun _ _ _ hs hstep =>
        have hnext := hs.1.step (fun limit hmaximum => hlimit limit (hs.2 ▸ hmaximum)) hstep
        ⟨hnext.1, hnext.2.trans hs.2⟩)
      ⟨hstart, rfl⟩ hrun
  refine ⟨h.counted, fun limit hmaximum => h.shares limit (hmax ▸ hmaximum), fun hempty bytes => ?_⟩
  cases hadmit : s.gate.admitBody bytes with
  | mk result gate =>
    cases result with
    | ok charged => exact ⟨charged, rfl⟩
    | error refusal => exact absurd (h.counted.trans hempty) (admitBody_error hadmit).2.2

/-- A body of more than the limit comes alone, and one behind it is told to come back. -/
def sampleBodies : List (BodyMove ℕ) := [.arrive 0 120, .arrive 1 1, .leave 0, .arrive 2 40]

theorem bodies_counted_sample : ∃ s : Bodies ℕ,
    bodyMachine.run (.start false (some 100)) sampleBodies = some s ∧
      s.gate.inflightBodyBytes = 40 ∧ s.Shares 100 := by
  have hrun : (bodyMachine.run (.start false (some 100)) sampleBodies).isSome = true := by decide
  obtain ⟨s, hs⟩ := Option.isSome_iff_exists.1 hrun
  have hlimit : ∀ limit ∈ some 100, limit < u64Max := by decide
  have hcharged : ∀ s ∈ bodyMachine.run (.start false (some 100)) sampleBodies,
      s.charged = 40 := by decide
  obtain ⟨hcounted, hshares, -⟩ := bodies_counted false (some 100) hlimit hs
  exact ⟨s, hs, hcounted.trans (hcharged s hs), hshares 100 rfl⟩

end Admission

end Obsy
