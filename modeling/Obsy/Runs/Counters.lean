import Mathlib.Algebra.BigOperators.Group.List.Basic
import Mathlib.Data.List.Basic
import Mathlib.Data.Nat.Basic

/-!
# Counters that saturate

A counter that is made smaller by more than it holds stops at zero, and what it should have said is
lost.  Whether this ever happens is asked of a computation that is run a second time with a
subtraction that refuses.

* `Release`: how a counter is made smaller, `saturating` or `checked`.
* `Exact`: what a computation gives by saturating it gives checked, too; with the rules for
  sequences (`Exact.bind`) and folds (`Exact.foldlM`).
* `Each`: a condition on every step of a fold, with what such a fold keeps (`Each.foldlM`) and what
  it adds up (`Each.foldlM_adds`).
-/

namespace Obsy

namespace Runs

/-- How a counter is made smaller. -/
abbrev Release := ℕ → ℕ → Option ℕ

/-- `saturating_sub`: a counter does not go below zero. -/
def saturating : Release := fun counter amount => some (counter - amount)

/-- A counter that would go below zero is refused. -/
def checked : Release := fun counter amount =>
  if amount ≤ counter then some (counter - amount) else none

variable {α β γ : Type}

/-- The steps of a fold that is done meet a condition on the state before them. -/
def Each (step : β → α → Option β) (P : β → α → Prop) : β → List α → Prop
  | _, [] => True
  | b, a :: as => P b a ∧ ∀ b', step b a = some b' → Each step P b' as

theorem each_of_forall {step : β → α → Option β} {P : β → α → Prop} (h : ∀ b a, P b a)
    (b : β) (as : List α) : Each step P b as := by
  induction as generalizing b with
  | nil => trivial
  | cons a as ih => exact ⟨h b a, fun b' _ => ih b'⟩

theorem Each.mono {step : β → α → Option β} {P Q : β → α → Prop} (h : ∀ b a, P b a → Q b a)
    {b : β} {as : List α} (heach : Each step P b as) : Each step Q b as := by
  induction as generalizing b with
  | nil => trivial
  | cons a as ih => exact ⟨h b a heach.1, fun b' hb' => ih (heach.2 b' hb')⟩

/-- A condition on the elements alone joins one on the steps. -/
theorem Each.and_of_mem {step : β → α → Option β} {P : β → α → Prop} {Q : α → Prop} {as : List α}
    {b : β} (h : Each step P b as) (hmem : ∀ a ∈ as, Q a) :
    Each step (fun b a => P b a ∧ Q a) b as := by
  induction as generalizing b with
  | nil => trivial
  | cons a as ih =>
    refine ⟨⟨h.1, hmem a List.mem_cons_self⟩, fun b' hb' => ?_⟩
    exact ih (h.2 b' hb') fun other hother => hmem other (List.mem_cons_of_mem _ hother)

/-- What steps that meet a condition keep, a fold of them keeps. -/
theorem Each.foldl {step : β → α → β} {P : β → α → Prop} {I : β → Prop}
    (hstep : ∀ b a, I b → P b a → I (step b a)) {as : List α} {b : β} (hI : I b)
    (heach : Each (fun b a => some (step b a)) P b as) : I (as.foldl step b) := by
  induction as generalizing b with
  | nil => exact hI
  | cons a as ih => exact ih (hstep b a hI heach.1) (heach.2 _ rfl)

/-- What each step adds, if it meets a condition, a fold adds up. -/
theorem Each.foldlM_adds {M : Type} [AddCommMonoid M] {step : β → α → Option β}
    {P : β → α → Prop} {I : β → Prop} {f : β → M} {d : α → M}
    (hstep : ∀ b a b', I b → P b a → step b a = some b' → I b' ∧ f b' = f b + d a)
    {as : List α} {b b' : β} (hI : I b) (heach : Each step P b as)
    (h : as.foldlM step b = some b') : I b' ∧ f b' = f b + (as.map d).sum := by
  induction as generalizing b with
  | nil =>
    obtain rfl := Option.some.inj h
    exact ⟨hI, (add_zero _).symm⟩
  | cons a as ih =>
    obtain ⟨middle, hfirst, hrest⟩ := Option.bind_eq_some_iff.1 h
    obtain ⟨hmiddle, hadds⟩ := hstep b a middle hI heach.1 hfirst
    obtain ⟨hend, hsum⟩ := ih hmiddle (heach.2 middle hfirst) hrest
    exact ⟨hend, by rw [hsum, hadds, List.map_cons, List.sum_cons, add_assoc]⟩

/-- What steps that meet a condition keep, a fold that can fail keeps. -/
theorem Each.foldlM {step : β → α → Option β} {P : β → α → Prop} {I : β → Prop}
    (hstep : ∀ b a b', I b → P b a → step b a = some b' → I b') {as : List α} {b b' : β}
    (hI : I b) (heach : Each step P b as) (h : as.foldlM step b = some b') : I b' := by
  induction as generalizing b with
  | nil =>
    obtain rfl := Option.some.inj h
    exact hI
  | cons a as ih =>
    obtain ⟨middle, hfirst, hrest⟩ := Option.bind_eq_some_iff.1 h
    exact ih (hstep b a middle hI heach.1 hfirst) (heach.2 middle hfirst) hrest

/-- What every step keeps, a fold keeps. -/
theorem foldlM_keeps {step : β → α → Option β} {I : β → Prop}
    (hstep : ∀ b a b', I b → step b a = some b' → I b') {as : List α} {b b' : β} (hI : I b)
    (h : as.foldlM step b = some b') : I b' :=
  Each.foldlM (P := fun _ _ => True) (fun b a b' hb _ => hstep b a b' hb) hI
    (each_of_forall (fun _ _ => trivial) b as) h

/-- No subtraction of the computation stops at zero, and what it gives meets `Q`. -/
def Exact (p : Release → Option α) (Q : α → Prop) : Prop :=
  ∀ a, p saturating = some a → p checked = some a ∧ Q a

namespace Exact

variable {p : Release → Option α} {Q Q' : α → Prop} {R : β → Prop}

theorem of_some {a : α} (h : Q a) : Exact (fun _ => some a) Q := by
  intro b hb
  obtain rfl := Option.some.inj hb
  exact ⟨rfl, h⟩

/-- A computation that subtracts nothing. -/
theorem of_eq {o : Option α} (h : ∀ a, o = some a → Q a) : Exact (fun _ => o) Q :=
  fun a ha => ⟨ha, h a ha⟩

/-- A subtraction of what is there. -/
theorem release {counter amount : ℕ} (h : amount ≤ counter) :
    Exact (fun sub => sub counter amount) fun rest => rest + amount = counter := by
  intro rest hrest
  obtain rfl : counter - amount = rest := Option.some.inj hrest
  exact ⟨if_pos h, Nat.sub_add_cancel h⟩

theorem mono (h : Exact p Q) (himp : ∀ a, Q a → Q' a) : Exact p Q' :=
  fun a ha => ⟨(h a ha).1, himp a (h a ha).2⟩

/-- **The rule for sequences.** -/
theorem bind {k : Release → α → Option β} (h : Exact p Q)
    (hk : ∀ a, Q a → Exact (fun sub => k sub a) R) :
    Exact (fun sub => p sub >>= fun a => k sub a) R := by
  intro b hb
  obtain ⟨a, ha, hkb⟩ := Option.bind_eq_some_iff.1 hb
  obtain ⟨hchecked, hQ⟩ := h a ha
  obtain ⟨hkchecked, hR⟩ := hk a hQ b hkb
  exact ⟨Option.bind_eq_some_iff.2 ⟨a, hchecked, hkchecked⟩, hR⟩

/-- **The rule for folds**, of steps that meet a condition. -/
theorem foldlM {step : Release → β → α → Option β} {P : β → α → Prop} {I : β → Prop}
    (hstep : ∀ b a, I b → P b a → Exact (fun sub => step sub b a) I) (as : List α) {b : β}
    (hI : I b) (heach : Each (step saturating) P b as) :
    Exact (fun sub => as.foldlM (step sub) b) I := by
  induction as generalizing b with
  | nil => exact of_some hI
  | cons a as ih =>
    intro c hc
    obtain ⟨b', hb', hrest⟩ := Option.bind_eq_some_iff.1 hc
    obtain ⟨hchecked, hI'⟩ := hstep b a hI heach.1 b' hb'
    obtain ⟨hfold, hend⟩ := ih hI' (heach.2 b' hb') c hrest
    exact ⟨Option.bind_eq_some_iff.2 ⟨b', hchecked, hfold⟩, hend⟩

/-- The rule for folds of any steps. -/
theorem foldlM_of_forall {step : Release → β → α → Option β} {I : β → Prop}
    (hstep : ∀ b a, I b → Exact (fun sub => step sub b a) I) (as : List α) {b : β} (hI : I b) :
    Exact (fun sub => as.foldlM (step sub) b) I :=
  foldlM (P := fun _ _ => True) (fun b a hb _ => hstep b a hb) as hI
    (each_of_forall (fun _ _ => trivial) b as)

theorem map {f : α → β} (h : Exact p Q) (hf : ∀ a, Q a → R (f a)) :
    Exact (fun sub => (p sub).map f) R := by
  intro b hb
  obtain ⟨a, ha, rfl⟩ := Option.map_eq_some_iff.1 hb
  obtain ⟨hchecked, hQ⟩ := h a ha
  exact ⟨Option.map_eq_some_iff.2 ⟨a, hchecked, rfl⟩, hf a hQ⟩

end Exact

end Runs

end Obsy
