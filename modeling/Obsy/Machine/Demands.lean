import Obsy.Machine.Build

/-!
# What a computation demands

Whether a computation stops by a fault is read off what its input declares: a survey of the input
collects the demands in the order they come up, and gives up where the computation refuses its
input.

* `Survey`: the demands that were met with, and how the survey ended.
* `Meets`: a computation that stops by a fault exactly when a demand is not granted, and else ends as
  the survey does; it is closed under sequencing (`Meets.bind`).
* `Meets.harmless_iff`: such a computation stops by no fault exactly when all demands are granted.
-/

namespace Obsy

namespace Machine

variable {ε δ α β α' β' : Type}

/-! ### Computations without faults -/

/-- The computation ends with a value or an error. -/
def Harmless (run : Except (Stop ε) α) : Prop := ∀ stop, run = .error stop → stop.isFault = false

namespace Harmless

theorem ok (a : α) : Harmless (.ok a : Except (Stop ε) α) := by
  intro stop h
  cases h

theorem refused (error : ε) : Harmless (.error (.refused error) : Except (Stop ε) α) := by
  intro stop h
  obtain rfl := Except.error.inj h
  rfl

theorem bind {run : Except (Stop ε) α} {f : α → Except (Stop ε) β} (h : Harmless run)
    (hf : ∀ a, Harmless (f a)) : Harmless (run >>= f) := by
  cases run with
  | error stop => exact fun stop' hstop => h stop' (by rw [← Except.error.inj hstop])
  | ok a => exact hf a

end Harmless

/-! ### Surveys -/

structure Survey (δ ε α : Type) where
  demands : List δ
  result : Except (Stop ε) α

namespace Survey

instance : Monad (Survey δ ε) where
  pure a := ⟨[], .ok a⟩
  bind survey f :=
    match survey.result with
    | .ok a => ⟨survey.demands ++ (f a).demands, (f a).result⟩
    | .error stop => ⟨survey.demands, .error stop⟩

def demand (d : δ) : Survey δ ε Unit := ⟨[d], .ok ()⟩

/-- A computation that demands nothing. -/
def lift (run : Except (Stop ε) α) : Survey δ ε α := ⟨[], run⟩

end Survey

/-! ### Agreement -/

/-- Both refuse alike, or both have a value. -/
inductive Agrees (R : α → β → Prop) : Except (Stop ε) α → Except (Stop ε) β → Prop
  | refused {stop : Stop ε} (h : stop.isFault = false) : Agrees R (.error stop) (.error stop)
  | ok {a : α} {b : β} (h : R a b) : Agrees R (.ok a) (.ok b)

/-- A computation that faults when a demand of the survey is not granted, and only then. -/
structure Meets (granted : δ → Prop) (R : α → β → Prop) (survey : Survey δ ε α)
    (run : Except (Stop ε) β) : Prop where
  agrees : (∀ d ∈ survey.demands, granted d) → Agrees R survey.result run
  faults : ¬ (∀ d ∈ survey.demands, granted d) → ∃ stop, run = .error stop ∧ stop.isFault = true

namespace Meets

variable {granted : δ → Prop} {R : α → β → Prop} {S : α' → β' → Prop}

/-- Where nothing is demanded there is agreement. -/
theorem of_agrees {result : Except (Stop ε) α} {run : Except (Stop ε) β} (h : Agrees R result run) :
    Meets granted R ⟨[], result⟩ run where
  agrees _ := h
  faults hnot := absurd (fun _ hd => absurd hd List.not_mem_nil) hnot

theorem pure {a : α} {b : β} (h : R a b) : Meets (ε := ε) granted R (Pure.pure a) (.ok b) :=
  of_agrees (.ok h)

theorem lift {run : Except (Stop ε) α} (h : Harmless run) :
    Meets granted (fun a b => a = b ∧ run = .ok b) (.lift run) run := by
  refine of_agrees ?_
  cases run with
  | error stop => exact .refused (h stop rfl)
  | ok a => exact .ok ⟨rfl, rfl⟩

theorem demand {d : δ} {run : Except (Stop ε) β} {R : Unit → β → Prop}
    (hyes : granted d → ∃ b, run = .ok b ∧ R () b)
    (hno : ¬ granted d → ∃ stop, run = .error stop ∧ stop.isFault = true) :
    Meets granted R (.demand d) run where
  agrees h := by
    obtain ⟨b, rfl, hb⟩ := hyes (h d List.mem_cons_self)
    exact .ok hb
  faults h := hno fun hd => h fun _ hmem => List.mem_singleton.1 hmem ▸ hd

theorem bind {survey : Survey δ ε α} {run : Except (Stop ε) β} {f : α → Survey δ ε α'}
    {g : β → Except (Stop ε) β'} (h : Meets granted R survey run)
    (hf : ∀ a b, R a b → Meets granted S (f a) (g b)) :
    Meets granted S (survey >>= f) (run >>= g) := by
  obtain ⟨demands, result⟩ := survey
  by_cases hall : ∀ d ∈ demands, granted d
  · cases h.agrees hall with
    | refused hfault => exact ⟨fun _ => .refused hfault, fun hnot => absurd hall hnot⟩
    | @ok a b hab =>
      have hnext := hf a b hab
      constructor
      · intro hdemands
        exact hnext.agrees fun d hd => hdemands d (List.mem_append_right _ hd)
      · intro hnot
        refine hnext.faults fun hdemands => hnot fun d hd => ?_
        exact (List.mem_append.1 hd).elim (hall d) (hdemands d)
  · -- what comes after the fault is not reached, whatever it demands
    obtain ⟨stop, rfl, hfault⟩ := h.faults hall
    refine ⟨fun hdemands => absurd (fun d hd => hdemands d ?_) hall, fun _ => ⟨stop, rfl, hfault⟩⟩
    cases result with
    | error _ => exact hd
    | ok a => exact List.mem_append_left _ hd

/-- The computation goes on without demands. -/
theorem bind_ok {S : α → β' → Prop} {survey : Survey δ ε α} {run : Except (Stop ε) β}
    {g : β → Except (Stop ε) β'} (h : Meets granted R survey run)
    (hg : ∀ a b, R a b → ∃ c, g b = .ok c ∧ S a c) : Meets granted S survey (run >>= g) := by
  obtain ⟨demands, result⟩ := survey
  constructor
  · intro hall
    cases h.agrees hall with
    | refused hfault => exact .refused hfault
    | @ok a b hab =>
      obtain ⟨c, hc, hac⟩ := hg a b hab
      change Agrees S (.ok a) (g b)
      rw [hc]
      exact .ok hac
  · intro hnot
    obtain ⟨stop, rfl, hfault⟩ := h.faults hnot
    exact ⟨stop, rfl, hfault⟩

/-- What demands nothing and has no fault comes first in both. -/
theorem bind_lift {run : Except (Stop ε) β} (h : Harmless run) {f : β → Survey δ ε α'}
    {g : β → Except (Stop ε) β'} (hf : ∀ b, run = .ok b → Meets granted S (f b) (g b)) :
    Meets granted S (.lift run >>= f) (run >>= g) :=
  (lift h).bind fun _ b ⟨hab, hrun⟩ => hab ▸ hf b hrun

/-- **No fault exactly when everything is granted.** -/
theorem harmless_iff {survey : Survey δ ε α} {run : Except (Stop ε) β}
    (h : Meets granted R survey run) : Harmless run ↔ ∀ d ∈ survey.demands, granted d := by
  obtain ⟨demands, result⟩ := survey
  constructor
  · intro hharmless
    by_contra hnot
    obtain ⟨stop, hstop, hfault⟩ := h.faults hnot
    exact absurd (hharmless stop hstop) (by rw [hfault]; decide)
  · intro hall stop hstop
    cases h.agrees hall with
    | refused hfault =>
      obtain rfl := Except.error.inj hstop
      exact hfault
    | ok _ => cases hstop

end Meets

end Machine

end Obsy
