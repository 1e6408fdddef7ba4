import Obsy.Runs.Fallible

/-!
# Loops that stop early

A loop whose steps may fail or end it, and what a limit on it changes: it stops where the limit is
reached, fails where the limit is exceeded, and else does what it does without the limit.

* `Step`, `steps`: a step that may be the last, and a loop of steps.
* `Limit.Follows`: a loop with a limit against the same loop without; it is closed under sequencing
  and loops (`Limit.Follows.bind`, `Limit.Follows.steps`).
-/

namespace Obsy

namespace Runs

variable {α β γ ε : Type*}

/-- What a step leaves, and whether it is the last. -/
inductive Step (β : Type*) where
  | next (b : β)
  | stop (b : β)

namespace Step

def state : Step β → β
  | next b => b
  | stop b => b

/-- Another view of what is left, which may depend on whether the step is the last. -/
def map (f last : β → γ) : Step β → Step γ
  | next b => next (f b)
  | stop b => stop (last b)

/-- Goes on unless the step was the last. -/
def andThen (f : β → Except ε (Step β)) : Step β → Except ε (Step β)
  | next b => f b
  | stop b => .ok (.stop b)

end Step

/-- Takes a step for each item, up to one that is the last. -/
def steps (step : β → α → Except ε (Step β)) : List α → β → Except ε (Step β)
  | [], b => .ok (.next b)
  | item :: items, b => step b item >>= Step.andThen (steps step items)

/-- What every step keeps is kept by a loop that goes on to its end. -/
theorem steps_invariant {step : β → α → Except ε (Step β)} (I : β → Prop)
    (h : ∀ b item b', I b → step b item = .ok (.next b') → I b') {items : List α} {b b' : β}
    (hb : I b) (hrun : steps step items b = .ok (.next b')) : I b' := by
  induction items generalizing b with
  | nil =>
    cases hrun
    exact hb
  | cons item items ih =>
    rw [steps] at hrun
    obtain ⟨s, hstep, hrest⟩ := exists_of_bind hrun
    cases s with
    | next b₁ => exact ih (h b item b₁ hb hstep) hrest
    | stop b₁ => cases hrest

/-- A loop none of whose steps is the last is a fold. -/
theorem steps_eq_foldlM {step : β → α → Except ε (Step β)} {f : γ → α → Except ε γ} {view : β → γ}
    (h : ∀ b item, ((step b item).map Step.state).map view = f (view b) item)
    (hnext : ∀ b item b', step b item ≠ .ok (.stop b')) (items : List α) (b : β) :
    ((steps step items b).map Step.state).map view = items.foldlM f (view b) ∧
      ∀ b', steps step items b ≠ .ok (.stop b') := by
  induction items generalizing b with
  | nil => exact ⟨rfl, fun b' h => (by cases h)⟩
  | cons item items ih =>
    have hitem := h b item
    have hlast := hnext b item
    rw [List.foldlM_cons, steps, ← hitem]
    rcases hrun : step b item with e | b' | b'
    · exact ⟨rfl, fun _ h => (by cases h)⟩
    · exact ih b'
    · exact absurd hrun (hlast b')

/-- A limit: where a loop stops at it, and where it has gone beyond. -/
structure Limit (β : Type*) where
  reached : β → Prop
  exceeded : β → Prop

/-- What is read is not given back. -/
structure Limit.Grows (limit : Limit β) (b b' : β) : Prop where
  reached : limit.reached b → limit.reached b'
  exceeded : limit.exceeded b → limit.exceeded b'

namespace Limit.Grows

variable {limit : Limit β}

theorem refl (b : β) : limit.Grows b b := ⟨id, id⟩

theorem trans {a b c : β} (hab : limit.Grows a b) (hbc : limit.Grows b c) : limit.Grows a c :=
  ⟨hbc.reached ∘ hab.reached, hbc.exceeded ∘ hab.exceeded⟩

end Limit.Grows

/-- What a limit changes of a computation that starts at `b` and never stops by itself: it stops
where the limit is reached, and fails where the computation without it ends beyond. -/
structure Limit.Follows (limit : Limit β) (b : β) (limited unlimited : Except ε (Step β)) : Prop where
  next : ∀ b', limited = .ok (.next b') → unlimited = .ok (.next b')
  stop : ∀ b', limited = .ok (.stop b') →
    limit.reached b' ∧ ∀ b'', unlimited = .ok (.next b'') → limit.reached b''
  error : ∀ e, limited = .error e →
    unlimited = .error e ∨ ∀ b', unlimited = .ok (.next b') → limit.exceeded b'
  endless : ∀ b', unlimited ≠ .ok (.stop b')
  grows : ∀ b', unlimited = .ok (.next b') → limit.Grows b b'

namespace Limit.Follows

variable {limit : Limit β} {limited unlimited : Except ε (Step β)} {b : β}

theorem refl (hnext : ∀ b', unlimited ≠ .ok (.stop b'))
    (hgrows : ∀ b', unlimited = .ok (.next b') → limit.Grows b b') :
    limit.Follows b unlimited unlimited where
  next _ heq := heq
  stop b' heq := absurd heq (hnext b')
  error _ heq := .inl heq
  endless := hnext
  grows := hgrows

/-- A computation to which the limit does nothing. -/
theorem of_next {b' : β} (h : limit.Grows b b') :
    limit.Follows b (.ok (.next b') : Except ε (Step β)) (.ok (.next b')) :=
  refl (fun _ heq => by cases heq) fun _ heq => by
    cases heq
    exact h

/-- The limit ends the computation. -/
theorem of_reached (h : limit.Follows b unlimited unlimited) (hb : limit.reached b) :
    limit.Follows b (.ok (.stop b)) unlimited where
  next _ heq := by cases heq
  stop _ heq := by
    cases heq
    exact ⟨hb, fun b'' hend => (h.grows b'' hend).reached hb⟩
  error _ heq := by cases heq
  endless := h.endless
  grows := h.grows

/-- The limit makes the computation fail. -/
theorem of_exceeded {other : Except ε (Step β)} (h : limit.Follows b other unlimited) (e : ε)
    (hb : limit.exceeded b) : limit.Follows b (.error e) unlimited where
  next _ heq := by cases heq
  stop _ heq := by cases heq
  error _ _ := .inr fun b' heq => (h.grows b' heq).exceeded hb
  endless := h.endless
  grows := h.grows

/-- The start may be put earlier. -/
theorem mono {b' : β} (h : limit.Follows b' limited unlimited) (hb : limit.Grows b b') :
    limit.Follows b limited unlimited where
  next := h.next
  stop := h.stop
  error := h.error
  endless := h.endless
  grows b'' heq := hb.trans (h.grows b'' heq)

theorem bind (h : limit.Follows b limited unlimited) {f g : β → Except ε (Step β)}
    (hfg : ∀ b, limit.Follows b (f b) (g b)) :
    limit.Follows b (limited >>= Step.andThen f) (unlimited >>= Step.andThen g) := by
  rcases hrun : unlimited with e | b₁ | b₁
  · refine ⟨fun b' heq => ?_, fun b' heq => ?_, fun _ _ => .inr fun _ heq => (by cases heq),
      fun _ heq => (by cases heq), fun _ heq => (by cases heq)⟩
    · rcases hlimited : limited with e' | b'' | b''
      · rw [hlimited] at heq
        cases heq
      · have hnext := h.next b'' hlimited
        rw [hrun] at hnext
        cases hnext
      · rw [hlimited] at heq
        cases heq
    · rcases hlimited : limited with e' | b'' | b''
      · rw [hlimited] at heq
        cases heq
      · have hnext := h.next b'' hlimited
        rw [hrun] at hnext
        cases hnext
      · rw [hlimited] at heq
        cases heq
        exact ⟨(h.stop b' hlimited).1, fun _ hend => (by cases hend)⟩
  · have hg := (hfg b₁).mono (h.grows b₁ hrun)
    rcases hlimited : limited with e' | b' | b'
    · rcases h.error e' hlimited with heq | hexceeded
      · rw [hrun] at heq
        cases heq
      · -- the computation had gone beyond before the second part
        exact ⟨fun _ heq => (by cases heq), fun _ heq => (by cases heq),
          fun _ _ => .inr fun b'' heq => ((hfg b₁).grows b'' heq).exceeded (hexceeded b₁ hrun),
          hg.endless, hg.grows⟩
    · have heq := h.next b' hlimited
      rw [hrun] at heq
      cases heq
      exact hg
    · obtain ⟨hstop, hend⟩ := h.stop b' hlimited
      exact ⟨fun _ heq => (by cases heq), fun _ heq => (by
          cases heq
          exact ⟨hstop, fun b'' hrest => ((hfg b₁).grows b'' hrest).reached (hend b₁ hrun)⟩),
        fun _ heq => (by cases heq), hg.endless, hg.grows⟩
  · exact absurd hrun (h.endless b₁)

theorem steps {step step' : β → α → Except ε (Step β)}
    (h : ∀ b item, limit.Follows b (step b item) (step' b item)) (items : List α) (b : β) :
    limit.Follows b (Runs.steps step items b) (Runs.steps step' items b) := by
  induction items generalizing b with
  | nil => exact of_next (.refl b)
  | cons item items ih => exact (h b item).bind ih

/-- A view of the state, in which as much was read. -/
theorem map (h : limit.Follows b limited unlimited) {limit' : Limit γ} {f last : β → γ} {c : γ}
    (hf : ∀ b, (limit'.reached (f b) ↔ limit.reached b) ∧ (limit'.exceeded (f b) ↔ limit.exceeded b))
    (hlast : ∀ b, limit'.reached (last b) ↔ limit.reached b)
    (hstart : (limit'.reached c → limit.reached b) ∧ (limit'.exceeded c → limit.exceeded b)) :
    limit'.Follows c (limited.map (Step.map f last)) (unlimited.map (Step.map f last)) where
  next c' heq := by
    rcases hlimited : limited with e | b' | b' <;> rw [hlimited] at heq <;> cases heq
    rw [h.next b' hlimited]
    rfl
  stop c' heq := by
    rcases hlimited : limited with e | b' | b' <;> rw [hlimited] at heq <;> cases heq
    obtain ⟨hstop, hend⟩ := h.stop b' hlimited
    refine ⟨(hlast b').2 hstop, fun c'' hrest => ?_⟩
    rcases hrun : unlimited with e | b'' | b'' <;> rw [hrun] at hrest <;> cases hrest
    exact (hf b'').1.2 (hend b'' hrun)
  error e heq := by
    rcases hlimited : limited with e | b' | b' <;> rw [hlimited] at heq <;> cases heq
    rcases h.error e hlimited with heq | hexceeded
    · exact .inl (by rw [heq]; rfl)
    · refine .inr fun c' hrest => ?_
      rcases hrun : unlimited with e | b'' | b'' <;> rw [hrun] at hrest <;> cases hrest
      exact (hf b'').2.2 (hexceeded b'' hrun)
  endless c' heq := by
    rcases hrun : unlimited with e | b' | b' <;> rw [hrun] at heq <;> cases heq
    exact h.endless b' hrun
  grows c' heq := by
    rcases hrun : unlimited with e | b' | b' <;> rw [hrun] at heq <;> cases heq
    have hgrows := h.grows b' hrun
    exact ⟨fun hc => (hf b').1.2 (hgrows.reached (hstart.1 hc)),
      fun hc => (hf b').2.2 (hgrows.exceeded (hstart.2 hc))⟩

/-- A computation that ends within the limit is not changed by it. -/
theorem eq_of_within (h : limit.Follows b limited unlimited) {b' : β}
    (hrun : unlimited = .ok (.next b')) (hreached : ¬ limit.reached b')
    (hexceeded : ¬ limit.exceeded b') : limited = .ok (.next b') := by
  rcases hlimited : limited with e | b'' | b''
  · rcases h.error e hlimited with heq | hend
    · rw [hrun] at heq
      cases heq
    · exact absurd (hend b' hrun) hexceeded
  · rw [← hrun]
    exact (h.next b'' hlimited).symm
  · exact absurd ((h.stop b'' hlimited).2 b' hrun) hreached

end Limit.Follows

end Runs

end Obsy
