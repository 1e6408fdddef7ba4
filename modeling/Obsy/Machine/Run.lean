import Mathlib.Data.Option.Basic

/-!
# Runs of a machine

A machine takes labelled steps, each of which may be impossible in a state.

* `Machine.run`: a list of steps one after the other (`Machine.run_append_eq_some`).
* `Machine.run_invariant`: what every step preserves holds after every run.
* `Machine.Within`: every step of a run meets a condition; `Machine.run_invariant_within` is
  the invariant rule for such runs, and `Machine.within_iff` compares two conditions.
-/

namespace Obsy

/-- A machine with states `σ` and labels `ι`. -/
structure Machine (σ ι : Type) where
  /-- The state after a step, when the step is possible. -/
  step : σ → ι → Option σ

namespace Machine

variable {σ ι : Type} (M : Machine σ ι)

/-- The state after a list of steps, when all of them are possible. -/
def run : σ → List ι → Option σ
  | s, [] => some s
  | s, e :: es => (M.step s e).bind fun s' => run s' es

/-- Every step of a run meets a condition on the state before it, its label and the state after
it. -/
def Within (ok : σ → ι → σ → Prop) : σ → List ι → Prop
  | _, [] => True
  | s, e :: es =>
    match M.step s e with
    | some s' => ok s e s' ∧ Within ok s' es
    | none => True

instance decidableWithin (ok : σ → ι → σ → Prop) [hok : ∀ s e s', Decidable (ok s e s')] :
    ∀ s es, Decidable (M.Within ok s es)
  | _, [] => isTrue trivial
  | s, e :: es =>
    match h : M.step s e with
    | some s' =>
      have := decidableWithin ok s' es
      decidable_of_iff (ok s e s' ∧ M.Within ok s' es) (by rw [Within, h])
    | none => isTrue (by rw [Within, h]; trivial)

variable {M}

@[simp] theorem run_nil (s : σ) : M.run s [] = some s := rfl

theorem run_cons_eq_some {s t : σ} {e : ι} {es : List ι} :
    M.run s (e :: es) = some t ↔ ∃ s', M.step s e = some s' ∧ M.run s' es = some t := by
  rw [run, Option.bind_eq_some_iff]

theorem within_cons_iff {ok : σ → ι → σ → Prop} {s s' : σ} {e : ι} {es : List ι}
    (hs : M.step s e = some s') : M.Within ok s (e :: es) ↔ ok s e s' ∧ M.Within ok s' es := by
  rw [Within, hs]

theorem within_cons {ok : σ → ι → σ → Prop} {s s' : σ} {e : ι} {es : List ι}
    (h : M.Within ok s (e :: es)) (hs : M.step s e = some s') : ok s e s' ∧ M.Within ok s' es :=
  (within_cons_iff hs).1 h

/-- A condition that always holds. -/
theorem within_of_forall {ok : σ → ι → σ → Prop} (h : ∀ s e s', ok s e s') (s : σ) (es : List ι) :
    M.Within ok s es := by
  induction es generalizing s with
  | nil => trivial
  | cons e es ih =>
    unfold Within
    split
    · exact ⟨h _ _ _, ih _⟩
    · trivial

/-- A condition on the labels. -/
theorem within_of_labels {ok : σ → ι → σ → Prop} {es : List ι}
    (h : ∀ e ∈ es, ∀ s s', ok s e s') (s : σ) : M.Within ok s es := by
  induction es generalizing s with
  | nil => trivial
  | cons e es ih =>
    unfold Within
    split
    · exact ⟨h e List.mem_cons_self _ _, ih (fun f hf => h f (List.mem_cons_of_mem _ hf)) _⟩
    · trivial

/-- A condition that follows from an invariant. -/
theorem within_of_invariant {ok : σ → ι → σ → Prop} {P : σ → Prop}
    (hstep : ∀ s e s', P s → M.step s e = some s' → P s' ∧ ok s e s') {s : σ} (hs : P s)
    (es : List ι) : M.Within ok s es := by
  induction es generalizing s with
  | nil => trivial
  | cons e es ih =>
    unfold Within
    split
    · rename_i s' hs'
      exact ⟨(hstep s e s' hs hs').2, ih (hstep s e s' hs hs').1⟩
    · trivial

theorem within_mono {ok ok' : σ → ι → σ → Prop} (h : ∀ s e s', ok s e s' → ok' s e s') {s : σ}
    {es : List ι} (hok : M.Within ok s es) : M.Within ok' s es := by
  induction es generalizing s with
  | nil => trivial
  | cons e es ih =>
    unfold Within at hok ⊢
    split at hok
    · exact ⟨h _ _ _ hok.1, ih hok.2⟩
    · trivial

/-- Two conditions that hold throughout a run. -/
theorem within_and {ok ok' : σ → ι → σ → Prop} {s : σ} {es : List ι} (h : M.Within ok s es)
    (h' : M.Within ok' s es) : M.Within (fun s e s' => ok s e s' ∧ ok' s e s') s es := by
  induction es generalizing s with
  | nil => trivial
  | cons e es ih =>
    cases hs : M.step s e with
    | none => rw [Within, hs]; trivial
    | some s' =>
      rw [within_cons_iff hs] at h h' ⊢
      exact ⟨⟨h.1, h'.1⟩, ih h.2 h'.2⟩

theorem run_append_eq_some {s u : σ} {es fs : List ι} :
    M.run s (es ++ fs) = some u ↔ ∃ t, M.run s es = some t ∧ M.run t fs = some u := by
  induction es generalizing s with
  | nil => simp
  | cons e es ih =>
    simp only [List.cons_append, run_cons_eq_some, ih]
    constructor
    · rintro ⟨s', hs, t, ht, hu⟩; exact ⟨t, ⟨s', hs, ht⟩, hu⟩
    · rintro ⟨t, ⟨s', hs, ht⟩, hu⟩; exact ⟨s', hs, t, ht, hu⟩

theorem within_append {ok : σ → ι → σ → Prop} {s t : σ} {es fs : List ι}
    (h : M.Within ok s (es ++ fs)) (hrun : M.run s es = some t) :
    M.Within ok s es ∧ M.Within ok t fs := by
  induction es generalizing s with
  | nil =>
    cases hrun
    exact ⟨trivial, h⟩
  | cons e es ih =>
    obtain ⟨s', hs, hrest⟩ := run_cons_eq_some.1 hrun
    obtain ⟨hfirst, hothers⟩ := within_cons h hs
    rw [Within, hs]
    exact ⟨⟨hfirst, (ih hothers hrest).1⟩, (ih hothers hrest).2⟩

/-- **The invariant rule for runs within a condition.** -/
theorem run_invariant_within {ok : σ → ι → σ → Prop} {P : σ → Prop}
    (hstep : ∀ s e s', P s → M.step s e = some s' → ok s e s' → P s')
    {s t : σ} {es : List ι} (hs : P s) (hok : M.Within ok s es) (hrun : M.run s es = some t) :
    P t := by
  induction es generalizing s with
  | nil => cases hrun; exact hs
  | cons e es ih =>
    obtain ⟨s', hs', hrest⟩ := run_cons_eq_some.1 hrun
    obtain ⟨hcond, hwithin⟩ := within_cons hok hs'
    exact ih (hstep s e s' hs hs' hcond) hwithin hrest

/-- Conditions that are the same while an invariant holds, which either of them keeps, in a run
within a third. -/
theorem within_iff_within {given ok ok' : σ → ι → σ → Prop} {P : σ → Prop}
    (hsame : ∀ s e s', P s → M.step s e = some s' → given s e s' → (ok s e s' ↔ ok' s e s'))
    (hkeep : ∀ s e s', P s → M.step s e = some s' → given s e s' → ok' s e s' → P s') {s : σ}
    (hs : P s) {es : List ι} (hgiven : M.Within given s es) :
    M.Within ok s es ↔ M.Within ok' s es := by
  induction es generalizing s with
  | nil => exact Iff.rfl
  | cons e es ih =>
    unfold Within at hgiven ⊢
    split at hgiven
    · rename_i s' hs'
      obtain ⟨hfirst, hrest⟩ := hgiven
      rw [hsame s e s' hs hs' hfirst]
      exact and_congr_right fun hok => ih (hkeep s e s' hs hs' hfirst hok) hrest
    · exact Iff.rfl

/-- Conditions that are the same while an invariant holds, which either of them keeps. -/
theorem within_iff {ok ok' : σ → ι → σ → Prop} {P : σ → Prop}
    (hsame : ∀ s e s', P s → M.step s e = some s' → (ok s e s' ↔ ok' s e s'))
    (hkeep : ∀ s e s', P s → M.step s e = some s' → ok' s e s' → P s') {s : σ} (hs : P s)
    (es : List ι) : M.Within ok s es ↔ M.Within ok' s es :=
  have hgiven : M.Within (fun _ _ _ => True) s es := within_of_forall (fun _ _ _ => trivial) s es
  within_iff_within (fun s e s' hP hstep _ => hsame s e s' hP hstep)
    (fun s e s' hP hstep _ => hkeep s e s' hP hstep) hs hgiven

/-- **The invariant rule.** -/
theorem run_invariant {P : σ → Prop}
    (hstep : ∀ s e s', P s → M.step s e = some s' → P s')
    {s t : σ} {es : List ι} (hs : P s) (hrun : M.run s es = some t) : P t := by
  induction es generalizing s with
  | nil => cases hrun; exact hs
  | cons e es ih =>
    obtain ⟨s', hs', hrest⟩ := run_cons_eq_some.1 hrun
    exact ih (hstep s e s' hs hs') hrest

end Machine

end Obsy
