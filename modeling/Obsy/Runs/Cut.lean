import Obsy.Runs.Limited

/-!
# Loops that are cut short

A loop that may be ended before its last item, against a fold over all items: it has done the first
steps of the fold and no others.

* `passing`: the states that a fold passes through.
* `CutShort`: a computation that ends with what the fold leaves, or earlier in a state that the fold passes
  through, or with an error of its own.
* `CutShort.steps`: a loop of such computations.
-/

namespace Obsy

namespace Runs

variable {α β σ ε δ : Type*}

/-- The states that a fold passes through, where a step itself passes through some. -/
def passing (step : σ → α → Except δ σ) (within : σ → α → List σ) : List α → σ → List σ
  | [], s => [s]
  | item :: items, s =>
    within s item ++
      match step s item with
      | .ok s' => passing step within items s'
      | .error _ => []

/-- A step that passes through nothing but its beginning. -/
def atOnce (s : σ) (_ : α) : List σ := [s]

theorem self_mem_passing {step : σ → α → Except δ σ} (items : List α) (s : σ) :
    s ∈ passing step atOnce items s := by
  cases items with
  | nil => exact List.mem_singleton_self s
  | cons item items => exact List.mem_append_left _ (List.mem_singleton_self s)

theorem passing_append (step : σ → α → Except δ σ) (first second : List α) (s : σ) :
    (∀ t ∈ passing step atOnce first s, t ∈ passing step atOnce (first ++ second) s) ∧
      ∀ s', first.foldlM step s = .ok s' →
        ∀ t ∈ passing step atOnce second s', t ∈ passing step atOnce (first ++ second) s := by
  induction first generalizing s with
  | nil =>
    refine ⟨fun t ht => ?_, fun s' hs t ht => ?_⟩
    · rw [List.mem_singleton.1 ht]
      exact self_mem_passing second s
    · obtain rfl := Except.ok.inj hs
      exact ht
  | cons item first ih =>
    rw [List.cons_append, passing, passing]
    cases hstep : step s item with
    | error e =>
      refine ⟨fun t ht => ht, fun s' hs => ?_⟩
      rw [List.foldlM_cons, hstep] at hs
      cases hs
    | ok s₁ =>
      obtain ⟨hfirst, hsecond⟩ := ih s₁
      refine ⟨fun t ht => ?_, fun s' hs t ht => ?_⟩
      · exact List.mem_append.2 ((List.mem_append.1 ht).imp id (hfirst t))
      · rw [List.foldlM_cons, hstep] at hs
        exact List.mem_append_right _ (hsecond s' hs t ht)

theorem passing_map {γ : Type*} (step : σ → γ → Except δ σ) (f : α → γ) (items : List α) (s : σ) :
    passing step atOnce (items.map f) s = passing (fun s item => step s (f item)) atOnce items s := by
  induction items generalizing s with
  | nil => rfl
  | cons item items ih =>
    rw [List.map_cons, passing, passing]
    cases step s (f item) with
    | error e => rfl
    | ok s' => exact congrArg (_ ++ ·) (ih s')

/-- A fold over the items of items passes through the states of a fold over all. -/
theorem mem_passing_flatMap {γ : Type*} {step : σ → α → Except δ σ} {f : γ → List α}
    {groups : List γ} {s t : σ}
    (ht : t ∈ passing (fun s group => (f group).foldlM step s)
      (fun s group => passing step atOnce (f group) s) groups s) :
    t ∈ passing step atOnce (groups.flatMap f) s := by
  induction groups generalizing s with
  | nil => exact ht
  | cons group groups ih =>
    obtain ⟨hfirst, hrest⟩ := passing_append step (f group) (groups.flatMap f) s
    rw [List.flatMap_cons]
    rcases List.mem_append.1 ht with ht | ht
    · exact hfirst t ht
    · dsimp only at ht
      cases hgroup : (f group).foldlM step s with
      | error e =>
        rw [hgroup] at ht
        cases ht
      | ok s' =>
        rw [hgroup] at ht
        exact hrest s' hgroup t (ih ht)

/-- What may end a computation before its end, and how. -/
structure Ending (ε δ : Type*) where
  /-- Whether something may stop it. -/
  stops : Prop
  /-- The errors that are its own. -/
  fails : ε → Prop
  /-- What the fold says of any other. -/
  message : ε → δ

/-- A computation against a fold, as far as it comes. -/
structure CutShort (ending : Ending ε δ) (view : β → σ) (run : Except ε (Step β)) (free : Except δ σ)
    (passed : List σ) : Prop where
  next : ∀ b, run = .ok (.next b) → free = .ok (view b)
  stop : ∀ b, run = .ok (.stop b) → ending.stops ∧ view b ∈ passed
  error : ∀ e, run = .error e → ending.fails e ∨ free = .error (ending.message e)

namespace CutShort

variable {ending : Ending ε δ} {view : β → σ} {run : Except ε (Step β)} {free : Except δ σ}
  {passed : List σ}

theorem of_next {b : β} (h : free = .ok (view b)) : CutShort ending view (.ok (.next b)) free passed where
  next _ heq := by
    cases heq
    exact h
  stop _ heq := by cases heq
  error _ heq := by cases heq

theorem of_stop {b : β} (h : ending.stops) (hb : view b ∈ passed) :
    CutShort ending view (.ok (.stop b)) free passed where
  next _ heq := by cases heq
  stop _ heq := by
    cases heq
    exact ⟨h, hb⟩
  error _ heq := by cases heq

theorem of_error {e : ε} (h : ending.fails e ∨ free = .error (ending.message e)) :
    CutShort ending view (.error e) free passed where
  next _ heq := by cases heq
  stop _ heq := by cases heq
  error _ heq := by
    cases heq
    exact h

theorem mono {passed' : List σ} (h : CutShort ending view run free passed)
    (hpassed : ∀ s ∈ passed, s ∈ passed') : CutShort ending view run free passed' where
  next := h.next
  stop b heq := ⟨(h.stop b heq).1, hpassed _ (h.stop b heq).2⟩
  error := h.error

/-- Less may end it. -/
theorem imp {ending' : Ending ε δ} (h : CutShort ending view run free passed)
    (hstops : ending.stops → ending'.stops) (hfails : ∀ e, ending.fails e → ending'.fails e)
    (hmessage : ending'.message = ending.message) : CutShort ending' view run free passed where
  next := h.next
  stop b heq := ⟨hstops (h.stop b heq).1, (h.stop b heq).2⟩
  error e heq := hmessage ▸ (h.error e heq).imp (hfails e) id

/-- Another view of what is left, and of the errors. -/
theorem map {ε' β' : Type*} {ending' : Ending ε' δ} {view' : β' → σ} {f last : β → β'} {g : ε → ε'}
    (h : CutShort ending view run free passed) (hf : ∀ b, view' (f b) = view b)
    (hlast : ∀ b, view' (last b) = view b) (hstops : ending.stops → ending'.stops)
    (hfails : ∀ e, ending.fails e → ending'.fails (g e))
    (hmessage : ∀ e, ending'.message (g e) = ending.message e) :
    CutShort ending' view' ((run.map (Step.map f last)).mapError g) free passed := by
  rcases hrun : run with e | b | b
  · refine of_error ((h.error e hrun).imp (hfails e) fun heq => ?_)
    rw [hmessage]
    exact heq
  · refine of_next ?_
    rw [hf]
    exact h.next b hrun
  · obtain ⟨hstop, hmem⟩ := h.stop b hrun
    refine of_stop (hstops hstop) ?_
    rwa [hlast]

/-- **A loop** of computations each of which may be cut short. -/
theorem steps {step : β → α → Except ε (Step β)} {f : σ → α → Except δ σ} {within : σ → α → List σ}
    {I : β → Prop} (hcut : ∀ b item, I b → CutShort ending view (step b item) (f (view b) item)
      (within (view b) item))
    (hkept : ∀ b item b', I b → step b item = .ok (.next b') → I b') (items : List α) {b : β}
    (hb : I b) : CutShort ending view (Runs.steps step items b) (items.foldlM f (view b))
      (passing f within items (view b)) := by
  induction items generalizing b with
  | nil => exact of_next rfl
  | cons item items ih =>
    have hitem := hcut b item hb
    rw [Runs.steps, List.foldlM_cons, passing]
    rcases hrun : step b item with e | b' | b'
    · refine of_error ((hitem.error e hrun).imp id fun heq => ?_)
      rw [heq]
      rfl
    · have hrest := ih (hkept b item b' hb hrun)
      rw [hitem.next b' hrun]
      exact hrest.mono fun s hs => List.mem_append_right _ hs
    · obtain ⟨hstop, hmem⟩ := hitem.stop b' hrun
      exact of_stop hstop (List.mem_append_left _ hmem)

/-- A computation that nothing ends is the fold. -/
theorem eq_free (h : CutShort ending view run free passed) (hstops : ¬ ending.stops)
    (hfails : ∀ e, ¬ ending.fails e) :
    (run.map fun step => view step.state).mapError ending.message = free := by
  rcases hrun : run with e | b | b
  · exact ((h.error e hrun).resolve_left (hfails e)).symm
  · exact (h.next b hrun).symm
  · exact absurd (h.stop b hrun).1 hstops

end CutShort

/-- What every way to end a computation leaves. -/
def Ends (I : β → Prop) (J : ε → Prop) : Except ε (Step β) → Prop
  | .ok step => I step.state
  | .error e => J e

theorem Ends.of_map {β' ε' : Type*} {I : β' → Prop} {J : ε' → Prop} {f g : β → β'} {k : ε → ε'}
    (hf : ∀ b, I (f b)) (hg : ∀ b, I (g b)) (hk : ∀ e, J (k e)) (run : Except ε (Step β)) :
    Ends I J ((run.map (Step.map f g)).mapError k) := by
  rcases run with e | b | b
  · exact hk e
  · exact hf b
  · exact hg b

theorem steps_ends {step : β → α → Except ε (Step β)} {I : β → Prop} {J : ε → Prop}
    (h : ∀ b item, I b → Ends I J (step b item)) (items : List α) {b : β} (hb : I b) :
    Ends I J (steps step items b) := by
  induction items generalizing b with
  | nil => exact hb
  | cons item items ih =>
    have hitem := h b item hb
    rw [steps]
    rcases hrun : step b item with e | b' | b'
    · rw [hrun] at hitem
      exact hitem
    · rw [hrun] at hitem
      exact ih hitem
    · rw [hrun] at hitem
      exact hitem

end Runs

end Obsy
