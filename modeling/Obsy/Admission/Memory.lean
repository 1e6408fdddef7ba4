import Obsy.Machine.Run
import Obsy.Runs.Tally
import Mathlib.Data.List.Infix

/-!
# The memory account

Work declares the bytes that it will hold before it holds them, and is refused when they do not fit
beside what others hold.  The account is one atomic counter; a charge is reconciled by two atomic
operations, and between them the counter and the charge disagree.

* `MemoryAccount.admitBytes`, `tryAdmit`, `take`; `MemoryCharge.swap` and `MemoryAccount.settle`,
  the two halves of a reconciliation; `MemoryAccount.release`, what dropping a charge does.
* `machine`: any interleaving of these.
* `account_exact`: the counter is what it still holds of the charges.
* `refusals_honest`: what a refusal tells the client.
-/

namespace Obsy

namespace Admission

open Machine Runs

/-- `u64::MAX`. -/
def u64Max : ℕ := 2 ^ 64 - 1

/-- `u64::saturating_add`. -/
def saturatingAdd (a b : ℕ) : ℕ := min (a + b) u64Max

theorem saturatingAdd_eq {a b : ℕ} (h : a + b ≤ u64Max) : saturatingAdd a b = a + b := min_eq_left h

/-- `AtomicU64::fetch_add` of one. -/
def increment (counter : ℕ) : ℕ := (counter + 1) % 2 ^ 64

/-- What begins the text of a refusal for want of room. -/
def exhaustedPrefix : String := "memory account of"

/-- What begins the text of a refusal of a request that never fits. -/
def overBudgetPrefix : String := "request needs"

/-- The bytes this process has promised to work that has not finished. -/
structure MemoryAccount where
  /-- The ceiling. -/
  budgetBytes : ℕ
  /-- What is charged and not released. -/
  inUseBytes : ℕ
  /-- The requests refused for want of room. -/
  exhausted : ℕ
  /-- The background passes postponed for want of room. -/
  deferred : ℕ
deriving DecidableEq

namespace MemoryAccount

/-- An account with nothing charged. -/
def new (budgetBytes : ℕ) : MemoryAccount := ⟨budgetBytes, 0, 0, 0⟩

/-- Charge some bytes, if they fit. -/
def take (account : MemoryAccount) (bytes : ℕ) : Option MemoryAccount :=
  let next := saturatingAdd account.inUseBytes bytes
  if next ≤ account.budgetBytes then some { account with inUseBytes := next } else none

/-- The refusal of a request that is larger than the account. -/
def overBudget (account : MemoryAccount) (bytes : ℕ) : String :=
  overBudgetPrefix ++ " " ++ toString bytes
    ++ " bytes, more than the whole instance memory account of "
    ++ toString account.budgetBytes ++ " bytes (SIGNY_MEMORY_ACCOUNT_BYTES) — narrow the query"

/-- The refusal of a request that has no room now.  What is in use is read again for it. -/
def noRoom (account : MemoryAccount) (bytes : ℕ) : String :=
  exhaustedPrefix ++ " " ++ toString account.budgetBytes ++ " bytes holds "
    ++ toString account.inUseBytes ++ " in use and this request needs " ++ toString bytes

/-- What `admit` of the source does first: compare, and take. -/
def admitBytes (account : MemoryAccount) (bytes : ℕ) : Except (Option String) MemoryAccount :=
  if account.budgetBytes < bytes then .error (some (account.overBudget bytes))
  else match account.take bytes with
    | some charged => .ok charged
    | none => .error none

/-- What it does when `take` found no room: count, and say so. -/
def refuse (account : MemoryAccount) (bytes : ℕ) : String × MemoryAccount :=
  let counted := { account with exhausted := increment account.exhausted }
  (counted.noRoom bytes, counted)

/-- `MemoryAccount::try_admit`, when `take` found no room. -/
def postpone (account : MemoryAccount) : MemoryAccount :=
  { account with deferred := increment account.deferred }

/-- The second half of `MemoryCharge::reconcile`: correct the counter. -/
def settle (account : MemoryAccount) (held residentBytes : ℕ) : MemoryAccount :=
  { account with inUseBytes := saturatingAdd (account.inUseBytes - held) residentBytes }

/-- What dropping a charge does. -/
def release (account : MemoryAccount) (bytes : ℕ) : MemoryAccount :=
  { account with inUseBytes := account.inUseBytes - bytes }

end MemoryAccount

/-- One admitted consumer's charge. -/
structure MemoryCharge where
  /-- What the consumer holds, as far as it has said. -/
  bytes : ℕ
  /-- The reconciliations between their two halves: what the charge was and what it became. -/
  settling : List (ℕ × ℕ)
deriving DecidableEq

namespace MemoryCharge

/-- A charge as `take` gives it. -/
def new (bytes : ℕ) : MemoryCharge := ⟨bytes, []⟩

/-- The first half of `MemoryCharge::reconcile`: swap what the charge says. -/
def swap (charge : MemoryCharge) (residentBytes : ℕ) : MemoryCharge :=
  ⟨residentBytes, charge.settling ++ [(charge.bytes, residentBytes)]⟩

/-- A reconciliation is over. -/
def settled (charge : MemoryCharge) (i : ℕ) : MemoryCharge :=
  ⟨charge.bytes, charge.settling.eraseIdx i⟩

/-- What the account has of a charge: what it was before the first swap that is not settled. -/
def recorded (charge : MemoryCharge) : ℕ :=
  match charge.settling with
  | [] => charge.bytes
  | (held, _) :: _ => held

end MemoryCharge

/-! ### The machine -/

/-- The account and those who hold a part of it. -/
structure Instance (κ : Type) where
  account : MemoryAccount
  charges : Table κ MemoryCharge
  /-- The requests that found no room and have not said so. -/
  refused : List ℕ
  /-- What clients asked for in vain and what they were told, in order. -/
  answers : List (ℕ × String)

/-- Who moves. -/
inductive Move (κ : Type)
  /-- `admit` of the source. -/
  | admitBytes (charge : κ) (bytes : ℕ)
  /-- The end of one that found no room. -/
  | refuse (i : ℕ)
  /-- `MemoryAccount::try_admit`. -/
  | tryAdmit (charge : κ) (bytes : ℕ)
  /-- The first half of `MemoryCharge::reconcile`. -/
  | swap (charge : κ) (residentBytes : ℕ)
  /-- The second half of one. -/
  | settle (charge : κ) (i : ℕ)
  | drop (charge : κ)

variable {κ : Type} [DecidableEq κ]

/-- An instance with an account of so many bytes. -/
def Instance.start (budgetBytes : ℕ) : Instance κ := ⟨.new budgetBytes, ∅, [], []⟩

/-- The account with those who hold a part of it, one atomic operation of one of them at a time. -/
def machine : Machine (Instance κ) (Move κ) where
  step s move :=
    match move with
    | .admitBytes charge bytes =>
      if charge ∈ s.charges then none else
      match s.account.admitBytes bytes with
      | .ok account =>
        some { s with account := account, charges := s.charges.insert charge (.new bytes) }
      | .error (some answer) => some { s with answers := s.answers ++ [(bytes, answer)] }
      | .error none => some { s with refused := s.refused ++ [bytes] }
    | .refuse i => s.refused[i]?.map fun bytes =>
      { s with
        account := (s.account.refuse bytes).2
        refused := s.refused.eraseIdx i
        answers := s.answers ++ [(bytes, (s.account.refuse bytes).1)] }
    | .tryAdmit charge bytes =>
      if charge ∈ s.charges then none else
      match s.account.take bytes with
      | some account =>
        some { s with account := account, charges := s.charges.insert charge (.new bytes) }
      | none => some { s with account := s.account.postpone }
    | .swap charge residentBytes => (s.charges.lookup charge).map fun held =>
      { s with charges := s.charges.insert charge (held.swap residentBytes) }
    | .settle charge i => (s.charges.lookup charge).bind fun held =>
      held.settling[i]?.map fun correction =>
        { s with
          account := s.account.settle correction.1 correction.2
          charges := s.charges.insert charge (held.settled i) }
    -- no reconciliation of a charge is under way when its owner drops it
    | .drop charge => (s.charges.lookup charge).bind fun held =>
      if held.settling.isEmpty then
        some { s with
          account := s.account.release held.bytes
          charges := s.charges.erase charge }
      else none

/-! ### What a client is told -/

/-- `str::starts_with`. -/
def startsWith (error p : String) : Bool := p.toList.isPrefixOf error.toList

/-- What begins the text of a refusal by a tenant's own limit. -/
def tenantQuotaPrefix : String := "tenant quota: "

/-- `metric_error_status`: the status code of an error of the scan path. -/
def metricErrorStatus (error : String) : ℕ :=
  if startsWith error tenantQuotaPrefix then 429
  else if startsWith error exhaustedPrefix then 429
  else if startsWith error overBudgetPrefix then 400
  else if startsWith error "metric query exceeds" || startsWith error "query exceeds" then 400
  else if startsWith error "trace query exceeds" then 413
  else if startsWith error "metric selection exceeds" then 413
  else if error = "query timed out" ∨ error = "metric query timed out"
      ∨ error = "object store restore timed out" ∨ error = "trace query timed out"
      ∨ error = "trace object store restore timed out"
      ∨ error = "metric object store restore timed out" then 504
  else 500

theorem startsWith_append (p rest : String) : startsWith (p ++ rest) p = true := by
  rw [startsWith, String.toList_append, List.isPrefixOf_iff_prefix]
  exact List.prefix_append _ _

theorem status_noRoom (account : MemoryAccount) (bytes : ℕ) :
    metricErrorStatus (account.noRoom bytes) = 429 := by
  have htext : ∃ rest, account.noRoom bytes = exhaustedPrefix ++ rest :=
    ⟨_, by
    simp only [MemoryAccount.noRoom, String.append_assoc]
    rfl⟩
  obtain ⟨rest, htext⟩ := htext
  have htenant : startsWith (exhaustedPrefix ++ rest) tenantQuotaPrefix = false := by
    rw [startsWith, String.toList_append]
    rfl
  rw [htext, metricErrorStatus, htenant, if_neg Bool.false_ne_true, startsWith_append, if_pos rfl]

theorem status_overBudget (account : MemoryAccount) (bytes : ℕ) :
    metricErrorStatus (account.overBudget bytes) = 400 := by
  have htext : ∃ rest, account.overBudget bytes = overBudgetPrefix ++ rest :=
    ⟨_, by
    simp only [MemoryAccount.overBudget, String.append_assoc]
    rfl⟩
  obtain ⟨rest, htext⟩ := htext
  have htenant : startsWith (overBudgetPrefix ++ rest) tenantQuotaPrefix = false := by
    rw [startsWith, String.toList_append]
    rfl
  have hroom : startsWith (overBudgetPrefix ++ rest) exhaustedPrefix = false := by
    rw [startsWith, String.toList_append]
    rfl
  rw [htext, metricErrorStatus, htenant, if_neg Bool.false_ne_true, hroom,
    if_neg Bool.false_ne_true, startsWith_append, if_pos rfl]

/-! ### The counter -/

/-- What the account has of all charges. -/
def recorded (s : Instance κ) : ℕ := Table.tally (fun _ charge => charge.recorded) s.charges

/-- What all charges say. -/
def declared (s : Instance κ) : ℕ := Table.tally (fun _ charge => charge.bytes) s.charges

/-- What a charge has been, from what the account has of it to what it says. -/
def MemoryCharge.values (charge : MemoryCharge) : List ℕ :=
  charge.settling.map Prod.fst ++ [charge.bytes]

/-- Each reconciliation of a charge begins where the one before it ended. -/
def MemoryCharge.Linked (charge : MemoryCharge) : Prop :=
  charge.settling.map Prod.snd = charge.values.tail

/-- The reconciliations of a charge are settled in the order of their swaps. -/
def Move.inOrder : Move κ → Bool
  | .settle _ i => i = 0
  | _ => true

/-- A step that reconciles in order, after which what is held fits the counter. -/
def Orderly (_ : Instance κ) (move : Move κ) (s' : Instance κ) : Prop :=
  move.inOrder = true ∧ recorded s' ≤ u64Max

instance (s : Instance κ) (move : Move κ) (s' : Instance κ) : Decidable (Orderly s move s') :=
  inferInstanceAs (Decidable (_ ∧ _))

structure Exact (s : Instance κ) : Prop where
  counted : s.account.inUseBytes = recorded s
  linked : ∀ key charge, s.charges.lookup key = some charge → charge.Linked

namespace MemoryAccount

variable {account charged : MemoryAccount} {bytes : ℕ}

theorem take_spec (h : account.take bytes = some charged) :
    charged = { account with inUseBytes := saturatingAdd account.inUseBytes bytes } ∧
      charged.inUseBytes ≤ account.budgetBytes := by
  rw [take] at h
  split at h
  · rename_i hfits
    obtain rfl := Option.some.inj h
    exact ⟨rfl, hfits⟩
  · cases h

theorem admitBytes_spec (h : account.admitBytes bytes = .ok charged) :
    account.take bytes = some charged := by
  rw [admitBytes] at h
  split at h
  · cases h
  · split at h
    · rename_i taken htake
      obtain rfl := Except.ok.inj h
      exact htake
    · cases h

end MemoryAccount

namespace MemoryCharge

variable {charge : MemoryCharge}

@[simp] theorem recorded_new (bytes : ℕ) : (new bytes).recorded = bytes := rfl

@[simp] theorem recorded_swap (charge : MemoryCharge) (residentBytes : ℕ) :
    (charge.swap residentBytes).recorded = charge.recorded := by
  obtain ⟨bytes, settling⟩ := charge
  cases settling <;> rfl

theorem Linked.new (bytes : ℕ) : (MemoryCharge.new bytes).Linked := rfl

theorem Linked.swap (h : charge.Linked) (residentBytes : ℕ) :
    (charge.swap residentBytes).Linked := by
  show (charge.settling ++ [(charge.bytes, residentBytes)]).map Prod.snd =
    ((charge.settling ++ [(charge.bytes, residentBytes)]).map Prod.fst ++ [residentBytes]).tail
  rw [List.map_append, List.map_append, h, values]
  cases charge.settling <;> simp

/-- The first correction takes a charge from what the account has of it to what it has after. -/
theorem Linked.settle (h : charge.Linked) {correction : ℕ × ℕ}
    (hfirst : charge.settling[0]? = some correction) :
    charge.recorded = correction.1 ∧ (charge.settled 0).recorded = correction.2 ∧
      (charge.settled 0).Linked := by
  obtain ⟨bytes, settling⟩ := charge
  cases settling with
  | nil => cases hfirst
  | cons first rest =>
    obtain rfl := Option.some.inj hfirst
    have hlinked : first.2 :: rest.map Prod.snd = rest.map Prod.fst ++ [bytes] := h
    refine ⟨rfl, ?_, ?_⟩
    · cases rest with
      | nil => exact (List.cons.inj hlinked).1.symm
      | cons second others => exact (List.cons.inj hlinked).1.symm
    · show rest.map Prod.snd = (rest.map Prod.fst ++ [bytes]).tail
      rw [← hlinked, List.tail_cons]

end MemoryCharge

/-- A new charge is one more thing that the account has. -/
theorem recorded_insert {s : Instance κ} {key : κ} {charge : MemoryCharge} (account : MemoryAccount)
    (h : s.charges.lookup key = none) :
    recorded { s with account := account, charges := s.charges.insert key charge } =
      charge.recorded + recorded s := by
  rw [recorded, Table.tally_insert, Table.erase_eq_self h]
  rfl

/-- What the account has of one charge and of the others. -/
theorem recorded_erase {s : Instance κ} {key : κ} {charge : MemoryCharge}
    (h : s.charges.lookup key = some charge) (account : MemoryAccount) :
    recorded s =
      charge.recorded + recorded { s with account := account, charges := s.charges.erase key } :=
  Table.tally_erase _ h

/-- What a move does to the counter and to the charges. -/
inductive Effect (s s' : Instance κ) : Move κ → Prop
  /-- Nothing: somebody was refused. -/
  | refused (move : Move κ) (hcharges : s'.charges = s.charges)
    (hinUse : s'.account.inUseBytes = s.account.inUseBytes) : Effect s s' move
  /-- A new charge that fits. -/
  | charged (move : Move κ) (key : κ) (bytes : ℕ) (hnew : s.charges.lookup key = none)
    (hcharges : s'.charges = s.charges.insert key (.new bytes))
    (hinUse : s'.account.inUseBytes = saturatingAdd s.account.inUseBytes bytes)
    (hfits : s'.account.inUseBytes ≤ s.account.budgetBytes) : Effect s s' move
  /-- A charge says something else. -/
  | swapped (key : κ) (residentBytes : ℕ) (charge : MemoryCharge)
    (hcharge : s.charges.lookup key = some charge)
    (hcharges : s'.charges = s.charges.insert key (charge.swap residentBytes))
    (hinUse : s'.account.inUseBytes = s.account.inUseBytes) : Effect s s' (.swap key residentBytes)
  /-- The counter is corrected. -/
  | settled (key : κ) (i : ℕ) (charge : MemoryCharge) (correction : ℕ × ℕ)
    (hcharge : s.charges.lookup key = some charge)
    (hcorrection : charge.settling[i]? = some correction)
    (hcharges : s'.charges = s.charges.insert key (charge.settled i))
    (hinUse : s'.account.inUseBytes =
      saturatingAdd (s.account.inUseBytes - correction.1) correction.2) :
    Effect s s' (.settle key i)
  /-- A charge is returned. -/
  | dropped (key : κ) (bytes : ℕ) (hcharge : s.charges.lookup key = some (.new bytes))
    (hcharges : s'.charges = s.charges.erase key)
    (hinUse : s'.account.inUseBytes = s.account.inUseBytes - bytes) : Effect s s' (.drop key)

/-- Every move has such an effect, and leaves the budget alone. -/
theorem step_effect {s s' : Instance κ} {move : Move κ} (h : machine.step s move = some s') :
    Effect s s' move ∧ s'.account.budgetBytes = s.account.budgetBytes := by
  have hnew : ∀ {key : κ}, ¬ key ∈ s.charges → s.charges.lookup key = none :=
    fun {key} hkey => AList.lookup_eq_none.2 hkey
  cases move with
  | admitBytes key bytes =>
    simp only [machine] at h
    split at h
    · cases h
    · rename_i hkey
      split at h
      · rename_i charged hadmit
        obtain ⟨rfl, hfits⟩ := MemoryAccount.take_spec (MemoryAccount.admitBytes_spec hadmit)
        obtain rfl := Option.some.inj h
        exact ⟨.charged _ key bytes (hnew hkey) rfl rfl hfits, rfl⟩
      · obtain rfl := Option.some.inj h
        exact ⟨.refused _ rfl rfl, rfl⟩
      · obtain rfl := Option.some.inj h
        exact ⟨.refused _ rfl rfl, rfl⟩
  | refuse i =>
    obtain ⟨bytes, -, rfl⟩ := Option.map_eq_some_iff.1 h
    exact ⟨.refused _ rfl rfl, rfl⟩
  | tryAdmit key bytes =>
    simp only [machine] at h
    split at h
    · cases h
    · rename_i hkey
      split at h
      · rename_i charged htake
        obtain ⟨rfl, hfits⟩ := MemoryAccount.take_spec htake
        obtain rfl := Option.some.inj h
        exact ⟨.charged _ key bytes (hnew hkey) rfl rfl hfits, rfl⟩
      · obtain rfl := Option.some.inj h
        exact ⟨.refused _ rfl rfl, rfl⟩
  | swap key residentBytes =>
    obtain ⟨charge, hcharge, rfl⟩ := Option.map_eq_some_iff.1 h
    exact ⟨.swapped key residentBytes charge hcharge rfl rfl, rfl⟩
  | settle key i =>
    obtain ⟨charge, hcharge, hrest⟩ := Option.bind_eq_some_iff.1 h
    obtain ⟨correction, hcorrection, rfl⟩ := Option.map_eq_some_iff.1 hrest
    exact ⟨.settled key i charge correction hcharge hcorrection rfl rfl, rfl⟩
  | drop key =>
    obtain ⟨charge, hcharge, hrest⟩ := Option.bind_eq_some_iff.1 h
    obtain ⟨bytes, settling⟩ := charge
    split at hrest
    · rename_i hempty
      obtain rfl := List.isEmpty_iff.1 hempty
      obtain rfl := Option.some.inj hrest
      exact ⟨.dropped key bytes hcharge rfl rfl, rfl⟩
    · cases hrest

/-- What is linked stays linked when one charge changes. -/
theorem linked_insert {s : Instance κ} (h : Exact s) {key : κ} {charge : MemoryCharge}
    (hcharge : charge.Linked) :
    ∀ key' charge', (s.charges.insert key charge).lookup key' = some charge' → charge'.Linked := by
  intro key' charge' hlookup
  by_cases hkey : key' = key
  · subst hkey
    rw [AList.lookup_insert] at hlookup
    obtain rfl := Option.some.inj hlookup
    exact hcharge
  · rw [AList.lookup_insert_ne hkey] at hlookup
    exact h.linked key' charge' hlookup

/-- **The step lemma.** -/
theorem Exact.step {s s' : Instance κ} {move : Move κ} (h : Exact s)
    (hstep : machine.step s move = some s') (horderly : Orderly s move s') : Exact s' := by
  obtain ⟨horder, hfits⟩ := horderly
  obtain ⟨heffect, -⟩ := step_effect hstep
  cases heffect with
  | refused _ hcharges hinUse =>
    refine ⟨?_, fun key charge hlookup => h.linked key charge (hcharges ▸ hlookup)⟩
    rw [hinUse, h.counted, recorded, recorded, hcharges]
  | charged _ key bytes hnew hcharges hinUse _ =>
    have htotal : recorded s' = bytes + recorded s := by
      rw [← MemoryCharge.recorded_new bytes, ← recorded_insert s.account hnew, recorded, hcharges]
      rfl
    refine ⟨?_, hcharges ▸ linked_insert h (.new bytes)⟩
    rw [htotal] at hfits
    rw [hinUse, h.counted, htotal, saturatingAdd_eq (by omega), Nat.add_comm]
  | swapped key residentBytes charge hcharge hcharges hinUse =>
    refine ⟨?_, hcharges ▸ linked_insert h ((h.linked key charge hcharge).swap residentBytes)⟩
    have htotal : recorded s' = recorded s := by
      rw [recorded_erase hcharge s.account, ← MemoryCharge.recorded_swap charge residentBytes,
        recorded, hcharges]
      rfl
    rw [hinUse, h.counted, htotal]
  | settled key i charge correction hcharge hcorrection hcharges hinUse =>
    obtain rfl := of_decide_eq_true horder
    obtain ⟨hheld, hresident, hlinked⟩ := (h.linked key charge hcharge).settle hcorrection
    refine ⟨?_, hcharges ▸ linked_insert h hlinked⟩
    have hbefore := recorded_erase hcharge s.account
    have hafter : recorded s' = correction.2 +
        recorded { s with account := s.account, charges := s.charges.erase key } := by
      rw [← hresident, recorded, hcharges]
      rfl
    rw [hheld] at hbefore
    rw [hafter] at hfits
    rw [hinUse, h.counted, hafter, saturatingAdd_eq (by omega)]
    omega
  | dropped key bytes hcharge hcharges hinUse =>
    refine ⟨?_, fun other charge hlookup => ?_⟩
    · have hbefore := recorded_erase hcharge s.account
      have hafter : recorded s' =
          recorded { s with account := s.account, charges := s.charges.erase key } := by
        rw [recorded, hcharges]
        rfl
      rw [MemoryCharge.recorded_new] at hbefore
      rw [hinUse, h.counted, hafter]
      omega
    · rw [hcharges] at hlookup
      by_cases hkey : other = key
      · subst hkey
        rw [AList.lookup_erase] at hlookup
        cases hlookup
      · rw [AList.lookup_erase_ne hkey] at hlookup
        exact h.linked other charge hlookup

theorem exact_start (budgetBytes : ℕ) : Exact (Instance.start budgetBytes : Instance κ) where
  counted := rfl
  linked _ _ h := by rw [Instance.start, AList.lookup_empty] at h; cases h

/-! ### The budget -/

/-- A reconciliation that gives bytes back. -/
def Lowering (s : Instance κ) : Move κ → Instance κ → Prop
  | .swap key residentBytes, _ =>
    ∀ charge ∈ s.charges.lookup key, residentBytes ≤ charge.bytes
  | _, _ => True

instance (s : Instance κ) : ∀ move s', Decidable (Lowering s move s')
  | .swap key residentBytes, _ =>
    inferInstanceAs (Decidable (∀ charge ∈ s.charges.lookup key, residentBytes ≤ charge.bytes))
  | .admitBytes _ _, _ => isTrue trivial
  | .refuse _, _ => isTrue trivial
  | .tryAdmit _ _, _ => isTrue trivial
  | .settle _ _, _ => isTrue trivial
  | .drop _, _ => isTrue trivial

/-- The counter is exact and within the budget, and all corrections under way lower it. -/
structure Budgeted (s : Instance κ) : Prop extends Exact s where
  lowering : ∀ key charge, s.charges.lookup key = some charge →
    ∀ correction ∈ charge.settling, correction.2 ≤ correction.1
  bounded : s.account.inUseBytes ≤ s.account.budgetBytes

theorem Budgeted.step {s s' : Instance κ} {move : Move κ} (h : Budgeted s)
    (hstep : machine.step s move = some s') (horderly : Orderly s move s')
    (hlowering : Lowering s move s') : Budgeted s' := by
  have hexact := h.toExact.step hstep horderly
  obtain ⟨heffect, hbudget⟩ := step_effect hstep
  -- a charge that is put back with corrections that all lower the counter
  have hinsert : ∀ {key : κ} {charge : MemoryCharge},
      s'.charges = s.charges.insert key charge →
      (∀ correction ∈ charge.settling, correction.2 ≤ correction.1) →
      ∀ other charge', s'.charges.lookup other = some charge' →
        ∀ correction ∈ charge'.settling, correction.2 ≤ correction.1 := by
    intro key charge hcharges hall other charge' hlookup
    rw [hcharges] at hlookup
    by_cases hkey : other = key
    · subst hkey
      rw [AList.lookup_insert] at hlookup
      obtain rfl := Option.some.inj hlookup
      exact hall
    · rw [AList.lookup_insert_ne hkey] at hlookup
      exact h.lowering other charge' hlookup
  have hbounded := h.bounded
  refine ⟨hexact, ?_, ?_⟩
  · cases heffect with
    | refused _ hcharges => rw [hcharges]; exact h.lowering
    | charged _ key bytes _ hcharges => exact hinsert hcharges fun _ hmem => (by cases hmem)
    | swapped key residentBytes charge hcharge hcharges =>
      refine hinsert hcharges fun correction hmem => ?_
      rcases List.mem_append.1 hmem with hmem | hmem
      · exact h.lowering key charge hcharge correction hmem
      · obtain rfl := List.mem_singleton.1 hmem
        exact hlowering charge hcharge
    | settled key i charge correction hcharge _ hcharges =>
      exact hinsert hcharges fun other hmem =>
        h.lowering key charge hcharge other (List.mem_of_mem_eraseIdx hmem)
    | dropped key bytes _ hcharges =>
      intro other charge hlookup
      rw [hcharges] at hlookup
      by_cases hkey : other = key
      · subst hkey
        rw [AList.lookup_erase] at hlookup
        cases hlookup
      · rw [AList.lookup_erase_ne hkey] at hlookup
        exact h.lowering other charge hlookup
  · rw [hbudget]
    cases heffect with
    | refused _ _ hinUse => rw [hinUse]; exact hbounded
    | charged _ _ _ _ _ _ hfits => exact hfits
    | swapped _ _ _ _ _ hinUse => rw [hinUse]; exact hbounded
    | settled key i charge correction hcharge hcorrection _ hinUse =>
      obtain rfl := of_decide_eq_true horderly.1
      have hlower := h.lowering key charge hcharge correction (List.mem_of_getElem? hcorrection)
      -- the counter has what the correction takes back
      have hheld : correction.1 ≤ s.account.inUseBytes := by
        rw [h.counted, recorded_erase hcharge s.account,
          ((h.linked key charge hcharge).settle hcorrection).1]
        exact Nat.le_add_right _ _
      have hle := min_le_left (s.account.inUseBytes - correction.1 + correction.2) u64Max
      rw [hinUse]
      exact hle.trans (by omega)
    | dropped _ _ _ _ hinUse => rw [hinUse]; omega

theorem budgeted_start (budgetBytes : ℕ) : Budgeted (Instance.start budgetBytes : Instance κ) where
  toExact := exact_start budgetBytes
  lowering _ _ h := by rw [Instance.start, AList.lookup_empty] at h; cases h
  bounded := Nat.zero_le _

/-- The budget never changes. -/
theorem budget_run {budgetBytes : ℕ} {moves : List (Move κ)} {s : Instance κ}
    (hrun : machine.run (.start budgetBytes) moves = some s) :
    s.account.budgetBytes = budgetBytes :=
  run_invariant (P := fun s : Instance κ => s.account.budgetBytes = budgetBytes)
    (fun _ _ _ hs hstep => (step_effect hstep).2.trans hs) rfl hrun

/-- **The account over whole runs.**  Where the reconciliations of each charge are settled in order
and what is held fits the counter, the counter is what the account has of the charges; when no
reconciliation is under way it is what the charges say; and if reconciliations only give bytes back,
it never passes the budget. -/
theorem account_exact (budgetBytes : ℕ) {moves : List (Move κ)} {s : Instance κ}
    (horderly : machine.Within Orderly (.start budgetBytes) moves)
    (hrun : machine.run (.start budgetBytes) moves = some s) :
    s.account.inUseBytes = recorded s ∧
      ((∀ key charge, s.charges.lookup key = some charge → charge.settling = []) →
        s.account.inUseBytes = declared s) ∧
      (machine.Within Lowering (.start budgetBytes) moves →
        s.account.inUseBytes ≤ budgetBytes) := by
  have hexact : Exact s := run_invariant_within (fun _ _ _ hs hstep hok => hs.step hstep hok)
    (exact_start budgetBytes) horderly hrun
  refine ⟨hexact.counted, fun hquiet => ?_, fun hlowering => ?_⟩
  · rw [hexact.counted]
    refine Table.tally_congr fun key charge hmem => ?_
    have hlookup : s.charges.lookup key = some charge := AList.mem_lookup_iff.2 hmem
    rw [MemoryCharge.recorded, hquiet key charge hlookup]
  · have hbudgeted : Budgeted s :=
      run_invariant_within (fun _ _ _ hs hstep hok => hs.step hstep hok.1 hok.2)
        (budgeted_start budgetBytes) (within_and horderly hlowering) hrun
    rw [← budget_run hrun]
    exact hbudgeted.bounded

/-! ### The refusals -/

/-- Every answer says what is so, and those that were told to wait are counted. -/
structure Honest (s : Instance κ) : Prop where
  told : ∀ answer ∈ s.answers,
    metricErrorStatus answer.2 = if s.account.budgetBytes < answer.1 then 400 else 429
  /-- What is about to be refused would fit an empty account. -/
  waiting : ∀ bytes ∈ s.refused, bytes ≤ s.account.budgetBytes
  counted : s.account.exhausted =
    s.answers.countP (fun answer => metricErrorStatus answer.2 = 429) % 2 ^ 64

/-- An account that finds no room is asked for no more than its budget, and says so. -/
theorem admit_refused {account : MemoryAccount} {bytes : ℕ} {answer : Option String}
    (h : account.admitBytes bytes = .error answer) :
    answer.elim (bytes ≤ account.budgetBytes) fun text =>
      account.budgetBytes < bytes ∧ text = account.overBudget bytes := by
  rw [MemoryAccount.admitBytes] at h
  split at h
  · rename_i hover
    obtain rfl := Except.error.inj h
    exact ⟨hover, rfl⟩
  · rename_i hfits
    split at h
    · cases h
    · obtain rfl := Except.error.inj h
      exact Nat.le_of_not_lt hfits

theorem increment_mod (n : ℕ) : increment (n % 2 ^ 64) = (n + 1) % 2 ^ 64 := by
  rw [increment, Nat.mod_add_mod]

theorem Honest.step {s s' : Instance κ} {move : Move κ} (h : Honest s)
    (hstep : machine.step s move = some s') : Honest s' := by
  -- moves that answer nobody
  have hsilent : s'.answers = s.answers → s'.refused = s.refused →
      s'.account.exhausted = s.account.exhausted → Honest s' := by
    intro hanswers hrefused hexhausted
    have hbudget := (step_effect hstep).2
    exact ⟨by rw [hanswers, hbudget]; exact h.told, by rw [hrefused, hbudget]; exact h.waiting,
      by rw [hanswers, hexhausted]; exact h.counted⟩
  cases move with
  | admitBytes key bytes =>
    simp only [machine] at hstep
    split at hstep
    · cases hstep
    · split at hstep
      · rename_i charged hadmit
        obtain ⟨rfl, -⟩ := MemoryAccount.take_spec (MemoryAccount.admitBytes_spec hadmit)
        obtain rfl := Option.some.inj hstep
        exact hsilent rfl rfl rfl
      · rename_i answer hadmit
        obtain ⟨hover, rfl⟩ := admit_refused hadmit
        obtain rfl := Option.some.inj hstep
        refine ⟨fun other hmem => ?_, h.waiting, ?_⟩
        · rcases List.mem_append.1 hmem with hmem | hmem
          · exact h.told other hmem
          · obtain rfl := List.mem_singleton.1 hmem
            rw [if_pos hover, status_overBudget]
        · show s.account.exhausted = _
          rw [List.countP_append, List.countP_singleton, status_overBudget, if_neg (by decide),
            Nat.add_zero, h.counted]
      · rename_i hadmit
        obtain rfl := Option.some.inj hstep
        refine ⟨h.told, fun other hmem => ?_, h.counted⟩
        rcases List.mem_append.1 hmem with hmem | hmem
        · exact h.waiting other hmem
        · obtain rfl := List.mem_singleton.1 hmem
          exact admit_refused hadmit
  | refuse i =>
    obtain ⟨bytes, hbytes, rfl⟩ := Option.map_eq_some_iff.1 hstep
    have hfits := h.waiting bytes (List.mem_of_getElem? hbytes)
    have hstatus : metricErrorStatus (s.account.refuse bytes).1 = 429 := status_noRoom _ _
    refine ⟨fun other hmem => ?_, fun other hmem => ?_, ?_⟩
    · rcases List.mem_append.1 hmem with hmem | hmem
      · exact h.told other hmem
      · obtain rfl := List.mem_singleton.1 hmem
        rw [hstatus]
        exact (if_neg (Nat.not_lt.2 hfits)).symm
    · exact h.waiting other (List.mem_of_mem_eraseIdx hmem)
    · show increment s.account.exhausted = _
      rw [h.counted, increment_mod, List.countP_append, List.countP_singleton, hstatus,
        if_pos (by decide)]
  | tryAdmit key bytes =>
    simp only [machine] at hstep
    split at hstep
    · cases hstep
    · split at hstep
      · rename_i charged htake
        obtain ⟨rfl, -⟩ := MemoryAccount.take_spec htake
        obtain rfl := Option.some.inj hstep
        exact hsilent rfl rfl rfl
      · obtain rfl := Option.some.inj hstep
        exact hsilent rfl rfl rfl
  | swap key residentBytes =>
    obtain ⟨charge, -, rfl⟩ := Option.map_eq_some_iff.1 hstep
    exact hsilent rfl rfl rfl
  | settle key i =>
    obtain ⟨charge, -, hrest⟩ := Option.bind_eq_some_iff.1 hstep
    obtain ⟨correction, -, rfl⟩ := Option.map_eq_some_iff.1 hrest
    exact hsilent rfl rfl rfl
  | drop key =>
    obtain ⟨charge, -, hrest⟩ := Option.bind_eq_some_iff.1 hstep
    split at hrest
    · obtain rfl := Option.some.inj hrest
      exact hsilent rfl rfl rfl
    · cases hrest

/-- **The refusals of whole runs.**  Whatever is interleaved, a client is told `400` exactly when
its request is larger than the account and `429` otherwise, and the account counts those it told
to wait. -/
theorem refusals_honest (budgetBytes : ℕ) {moves : List (Move κ)} {s : Instance κ}
    (hrun : machine.run (.start budgetBytes) moves = some s) :
    (∀ answer ∈ s.answers,
      metricErrorStatus answer.2 = if budgetBytes < answer.1 then 400 else 429) ∧
      s.account.exhausted = s.answers.countP (fun answer => answer.1 ≤ budgetBytes) % 2 ^ 64 := by
  have hstart : Honest (.start budgetBytes : Instance κ) :=
    ⟨fun _ hmem => (by cases hmem), fun _ hmem => (by cases hmem), rfl⟩
  have hhonest : Honest s := run_invariant (fun _ _ _ hs hstep => hs.step hstep) hstart hrun
  have htold := hhonest.told
  rw [budget_run hrun] at htold
  refine ⟨htold, ?_⟩
  rw [hhonest.counted]
  congr 1
  refine List.countP_congr fun answer hmem => ?_
  rw [decide_eq_true_iff, decide_eq_true_iff, htold answer hmem]
  by_cases hover : budgetBytes < answer.1
  · simp [hover]
  · simp [hover, Nat.le_of_not_lt hover]

/-- Two consumers, one of whom is reconciled while the other arrives. -/
def sampleMoves : List (Move ℕ) :=
  [.admitBytes 0 60, .swap 0 30, .admitBytes 1 50, .settle 0 0, .refuse 0, .admitBytes 2 50,
    .admitBytes 3 101, .drop 0]

/-- Such a run is exact, and within its budget. -/
theorem account_exact_sample : ∃ s : Instance ℕ,
    machine.run (.start 100) sampleMoves = some s ∧ s.account.inUseBytes = declared s ∧
      s.account.inUseBytes ≤ 100 := by
  have hrun : (machine.run (.start 100) sampleMoves).isSome = true := by decide
  obtain ⟨s, hs⟩ := Option.isSome_iff_exists.1 hrun
  obtain ⟨-, hquiet, hbudget⟩ := account_exact 100 (by decide) hs
  have hsettled : ∀ s ∈ machine.run (.start 100) sampleMoves,
      ∀ e ∈ s.charges.entries, e.2.settling = [] := by decide
  exact ⟨s, hs, hquiet fun key charge hlookup =>
    hsettled s hs ⟨key, charge⟩ (AList.mem_lookup_iff.1 hlookup), hbudget (by decide)⟩

/-- Its clients were told to wait and to narrow. -/
theorem refusals_honest_sample : ∃ s : Instance ℕ,
    machine.run (.start 100) sampleMoves = some s ∧ s.answers.map Prod.fst = [50, 101] ∧
      s.account.exhausted = 1 := by
  have hrun : (machine.run (.start 100) sampleMoves).isSome = true := by decide
  obtain ⟨s, hs⟩ := Option.isSome_iff_exists.1 hrun
  have hasked : ∀ s ∈ machine.run (.start 100) sampleMoves, s.answers.map Prod.fst = [50, 101] := by
    decide
  have hcounted := (refusals_honest 100 hs).2
  have hcount : s.answers.countP (fun answer => answer.1 ≤ 100) =
      (s.answers.map Prod.fst).countP (· ≤ 100) := by
    rw [List.countP_map]
    rfl
  rw [hcount, hasked s hs] at hcounted
  exact ⟨s, hs, hasked s hs, hcounted⟩

end Admission

end Obsy
