import Obsy.Machine.Program
import Obsy.Machine.Run
import Mathlib.Data.List.Basic

/-!
# Interleaved programs

Tasks run programs on one shared device, one operation of one task at a time.  A task begins,
moves, reports its result, or is killed between two operations.

* `interleave`: the machine of such runs.
* `Contract`: for each kind of task, what it relies on, what it may change, next to which kinds it
  may run, and what its result says.
* `Program.guarded`: a program keeps the invariant of a contract at each of its operations, changes
  the device only as its kind may, and ends with its postcondition, whatever the other tasks do in
  between.
* `Contract.run`: if every program is guarded, the invariant holds in every run that the contract
  admits, and every report meets its postcondition, also relative to the reports that were there
  when its task began.
-/

namespace Obsy

namespace Machine

/-- A running task. -/
structure Task (I : Interface) (σ κ ε α : Type) where
  /-- What it was started for. -/
  kind : κ
  /-- The device when it began. -/
  began : σ
  /-- How many reports there were when it began. -/
  since : ℕ
  /-- What it has left to do. -/
  rest : Program I Unit ε α

/-- The result of a task. -/
structure Report (σ κ ε α : Type) where
  /-- What the task was started for. -/
  kind : κ
  /-- The device when the task began. -/
  began : σ
  /-- How many reports there were when the task began. -/
  since : ℕ
  /-- What it returned or threw. -/
  result : Except ε α

/-- A device with the tasks that run on it. -/
structure Crew (I : Interface) (σ κ ε α : Type) where
  /-- The device. -/
  shared : σ
  /-- The running tasks. -/
  tasks : List (Task I σ κ ε α)
  /-- The results so far, in order. -/
  reports : List (Report σ κ ε α)

/-- Who moves. -/
inductive Turn (κ F : Type)
  /-- A task begins. -/
  | start (kind : κ)
  /-- A task does its next operation, or reports. -/
  | move (i : ℕ) (fate : F)
  /-- A task is killed. -/
  | kill (i : ℕ)

variable {I : Interface} {σ κ ε α β F : Type}

def Crew.move (D : Device I σ F) (c : Crew I σ κ ε α) (i : ℕ) (fate : F) (t : Task I σ κ ε α) :
    Crew I σ κ ε α :=
  match t.rest with
  | .ret a => { c with
      tasks := c.tasks.eraseIdx i
      reports := c.reports ++ [⟨t.kind, t.began, t.since, .ok a⟩] }
  | .throw e => { c with
      tasks := c.tasks.eraseIdx i
      reports := c.reports ++ [⟨t.kind, t.began, t.since, .error e⟩] }
  | .get k => { c with tasks := c.tasks.set i { t with rest := k () } }
  | .set _ k => { c with tasks := c.tasks.set i { t with rest := k } }
  | .call op k => { c with
      shared := (D.apply fate c.shared op).2
      tasks := c.tasks.set i { t with rest := k (D.apply fate c.shared op).1 } }

/-- Tasks that run the programs of their kinds, interleaved. -/
def interleave (D : Device I σ F) (program : κ → Program I Unit ε α) :
    Machine (Crew I σ κ ε α) (Turn κ F) where
  step c turn :=
    match turn with
    | .start kind =>
      some { c with
        tasks := c.tasks ++ [⟨kind, c.shared, c.reports.length, program kind⟩] }
    | .move i fate => c.tasks[i]?.map (c.move D i fate)
    | .kill i => c.tasks[i]?.map fun _ => { c with tasks := c.tasks.eraseIdx i }

/-- What each kind of task may rely on and promises. -/
structure Contract (I : Interface) (σ κ ε α : Type) where
  /-- What always holds. -/
  inv : σ → Prop
  /-- How the device may change while a task of a kind runs. -/
  later : κ → σ → σ → Prop
  change : κ → σ → σ → Prop
  begins : κ → σ → Prop
  /-- Where a task of a kind may ask for an operation. -/
  asks : κ → σ → I.Op → Prop
  /-- A task of the one kind may run next to a task of the other. -/
  fits : κ → κ → Prop
  /-- What a result says about the device when its task began and now. -/
  post : κ → σ → Except ε α → σ → Prop
  refl : ∀ k s, later k s s
  trans : ∀ {k s t u}, later k s t → later k t u → later k s u
  own : ∀ {k s t}, change k s t → later k s t
  other : ∀ {k k' s t}, fits k k' → change k s t → later k' s t
  stable : ∀ {k k' s₀ r s t}, post k s₀ r s → later k' s t → post k s₀ r t

namespace Contract

variable (C : Contract I σ κ ε α)

/-- A condition that no change breaks while a task of a kind runs. -/
def Stable (k : κ) {ρ : Type} (Q : ρ → σ → Prop) : Prop := ∀ r s t, Q r s → C.later k s t → Q r t

/-- A turn that the contract covers: tasks begin where they may and next to tasks they may run
next to, and ask for operations where they may. -/
def Admits (c : Crew I σ κ ε α) : Turn κ F → Prop
  | .start kind => C.begins kind c.shared ∧ ∀ t ∈ c.tasks, C.fits kind t.kind ∧ C.fits t.kind kind
  | .move i _ => ∀ t ∈ c.tasks[i]?, ∀ op ∈ t.rest.next, C.asks t.kind c.shared op
  | .kill _ => True

end Contract

namespace Program

/-- A program keeps a contract as a task of a kind, whatever other tasks do before each of its
operations, and ends with a postcondition. -/
def guarded {ε' : Type} (D : Device I σ F) (C : Contract I σ κ ε' α) (k : κ) :
    Program I Unit ε β → (Except ε β → σ → Prop) → σ → Prop
  | ret a, Q, s => Q (.ok a) s
  | throw e, Q, s => Q (.error e) s
  | get p, Q, s => (p ()).guarded D C k Q s
  | set _ p, Q, s => p.guarded D C k Q s
  | call op p, Q, s => ∀ t, C.later k s t → C.inv t → C.asks k t op → ∀ f,
      C.inv (D.apply f t op).2 ∧ C.change k t (D.apply f t op).2 ∧
        (p (D.apply f t op).1).guarded D C k Q (D.apply f t op).2

variable {ε' ε'' γ : Type} {D : Device I σ F} {C : Contract I σ κ ε' α} {k : κ}

/-- What a program is guarded with it is guarded with later. -/
theorem guarded_later {p : Program I Unit ε β} {Q : Except ε β → σ → Prop} (hQ : C.Stable k Q)
    {s t : σ} (h : p.guarded D C k Q s) (hst : C.later k s t) : p.guarded D C k Q t := by
  induction p with
  | ret a => exact hQ _ _ _ h hst
  | throw e => exact hQ _ _ _ h hst
  | get p ih => exact ih () h
  | set m p ih => exact ih h
  | call op p ih => exact fun u htu => h u (C.trans hst htu)

theorem guarded_mono {p : Program I Unit ε β} {Q Q' : Except ε β → σ → Prop} {s : σ}
    (h : p.guarded D C k Q s) (hQ : ∀ r s, Q r s → Q' r s) : p.guarded D C k Q' s := by
  induction p generalizing s with
  | ret a => exact hQ _ _ h
  | throw e => exact hQ _ _ h
  | get p ih => exact ih () h
  | set m p ih => exact ih h
  | call op p ih =>
    intro t hst hinv hasks f
    obtain ⟨hinv', hchange, hrest⟩ := h t hst hinv hasks f
    exact ⟨hinv', hchange, ih _ hrest⟩

/-- **The sequencing rule.** -/
theorem guarded_bind {p : Program I Unit ε β} {q : β → Program I Unit ε γ}
    {R : β → σ → Prop} {Q : Except ε γ → σ → Prop} {s : σ}
    (hp : p.guarded D C k (fun r s => match r with
      | .ok b => R b s
      | .error e => Q (.error e) s) s)
    (hq : ∀ b s, R b s → (q b).guarded D C k Q s) : (p.bind q).guarded D C k Q s := by
  induction p generalizing s with
  | ret a => exact hq a s hp
  | throw e => exact hp
  | get g ih => exact ih () hp
  | set m p ih => exact ih hp
  | call op g ih =>
    intro t hst hinv hasks f
    obtain ⟨hinv', hchange, hrest⟩ := hp t hst hinv hasks f
    exact ⟨hinv', hchange, ih _ hrest⟩

/-- A contract that relies on more and promises no more. -/
theorem guarded_transfer {κ' α' ε₁ : Type} {C' : Contract I σ κ' ε₁ α'} {k' : κ'}
    (hinv : ∀ t, C'.inv t → C.inv t) (hlater : ∀ s t, C'.later k' s t → C.later k s t)
    (hasks : ∀ t op, C'.asks k' t op → C.asks k t op)
    (hchange : ∀ t op f, C'.inv t → C'.asks k' t op → C.inv (D.apply f t op).2 →
      C.change k t (D.apply f t op).2 →
      C'.inv (D.apply f t op).2 ∧ C'.change k' t (D.apply f t op).2)
    {p : Program I Unit ε β} {Q : Except ε β → σ → Prop} {s : σ} (h : p.guarded D C k Q s) :
    p.guarded D C' k' Q s := by
  induction p generalizing s with
  | ret a => exact h
  | throw e => exact h
  | get p ih => exact ih () h
  | set m p ih => exact ih h
  | call op p ih =>
    intro t hst ht hop f
    obtain ⟨hnext, hgrown, hrest⟩ := h t (hlater s t hst) (hinv t ht) (hasks t op hop) f
    obtain ⟨hinv', hchange'⟩ := hchange t op f ht hop hnext hgrown
    exact ⟨hinv', hchange', ih _ hrest⟩

/-- The device at the end is a later one. -/
theorem guarded_frame {p : Program I Unit ε β} {Q : Except ε β → σ → Prop} {s₀ s : σ}
    (h : p.guarded D C k Q s) (hs : C.later k s₀ s) :
    p.guarded D C k (fun r t => C.later k s₀ t ∧ Q r t) s := by
  induction p generalizing s with
  | ret a => exact ⟨hs, h⟩
  | throw e => exact ⟨hs, h⟩
  | get p ih => exact ih () h hs
  | set m p ih => exact ih h hs
  | call op p ih =>
    intro t hst ht hasks f
    obtain ⟨hinv, hchange, hrest⟩ := h t hst ht hasks f
    exact ⟨hinv, hchange, ih _ hrest (C.trans hs (C.trans hst (C.own hchange)))⟩

theorem guarded_attempt {p : Program I Unit ε β} {Q : Except ε'' (Except ε β) → σ → Prop} {s : σ}
    (h : p.guarded D C k (fun r s => Q (.ok r) s) s) :
    (p.attempt : Program I Unit ε'' (Except ε β)).guarded D C k Q s := by
  induction p generalizing s with
  | ret a => exact h
  | throw e => exact h
  | get p ih => exact ih () h
  | set m p ih => exact ih h
  | call op p ih =>
    intro t hst ht hasks f
    obtain ⟨hinv, hchange, hrest⟩ := h t hst ht hasks f
    exact ⟨hinv, hchange, ih _ hrest⟩

/-- **The rule for one operation.** -/
theorem guarded_perform {op : I.Op} {Q : Except ε (I.Ans op) → σ → Prop} {s : σ}
    (h : ∀ t, C.later k s t → C.inv t → C.asks k t op → ∀ f, C.inv (D.apply f t op).2 ∧
      C.change k t (D.apply f t op).2 ∧ Q (.ok (D.apply f t op).1) (D.apply f t op).2) :
    (perform op : Program I Unit ε (I.Ans op)).guarded D C k Q s := h

end Program

namespace Contract

variable (C : Contract I σ κ ε α) {D : Device I σ F} {program : κ → Program I Unit ε α}

/-- All these reports are true of the device. -/
def Hold (reports : List (Report σ κ ε α)) (s : σ) : Prop :=
  ∀ r ∈ reports, C.post r.kind r.began r.result s

/-- What a task or a report that began at this point may rely on. -/
structure Since (c : Crew I σ κ ε α) (began : σ) (since : ℕ) : Prop where
  hold : C.Hold (c.reports.take since) began
  le : since ≤ c.reports.length

/-- The invariant of a crew: the device's, the tasks may run next to each other, every task is
guarded with its postcondition, and every report is true, also relative to the reports before its
task. -/
structure Kept (D : Device I σ F) (c : Crew I σ κ ε α) : Prop where
  inv : C.inv c.shared
  fits : (c.tasks.map (·.kind)).Pairwise fun k k' => C.fits k k' ∧ C.fits k' k
  tasks : ∀ t ∈ c.tasks, C.Since c t.began t.since ∧
    t.rest.guarded D C t.kind (C.post t.kind t.began) c.shared
  reports : ∀ r ∈ c.reports, C.Since c r.began r.since ∧
    C.post r.kind r.began r.result c.shared

variable {C}

theorem Kept.hold {c : Crew I σ κ ε α} (h : C.Kept D c) : C.Hold c.reports c.shared :=
  fun r hr => (h.reports r hr).2

theorem Since.report {c : Crew I σ κ ε α} {began : σ} {since : ℕ} (h : C.Since c began since)
    (tasks : List (Task I σ κ ε α)) (r : Report σ κ ε α) :
    C.Since { c with tasks := tasks, reports := c.reports ++ [r] } began since where
  hold := by
    show C.Hold ((c.reports ++ [r]).take since) began
    rw [List.take_append_of_le_length h.le]
    exact h.hold
  le := by
    show since ≤ (c.reports ++ [r]).length
    rw [List.length_append]
    exact Nat.le_trans h.le (Nat.le_add_right _ _)

/-- One more report of a task that ends. -/
theorem Kept.report {c : Crew I σ κ ε α} (h : C.Kept D c) (i : ℕ) {r : Report σ κ ε α}
    (hsince : C.Since c r.began r.since) (hpost : C.post r.kind r.began r.result c.shared) :
    C.Kept D { c with tasks := c.tasks.eraseIdx i, reports := c.reports ++ [r] } := by
  refine ⟨h.inv, h.fits.sublist ((List.eraseIdx_sublist _ _).map _), fun t ht => ?_,
    fun r' hr' => ?_⟩
  · obtain ⟨hs, hrest⟩ := h.tasks t (List.mem_of_mem_eraseIdx ht)
    exact ⟨hs.report _ r, hrest⟩
  · rcases List.mem_append.1 hr' with hr' | hr'
    · obtain ⟨hs, hp⟩ := h.reports r' hr'
      exact ⟨hs.report _ r, hp⟩
    · cases List.mem_singleton.1 hr'
      exact ⟨hsince.report _ r, hpost⟩

/-- Two running tasks may run next to each other. -/
theorem Kept.fits_of_ne {c : Crew I σ κ ε α} (h : C.Kept D c) {i j : ℕ} {t t' : Task I σ κ ε α}
    (hi : c.tasks[i]? = some t) (hj : c.tasks[j]? = some t') (hne : i ≠ j) :
    C.fits t.kind t'.kind := by
  have hkind : ∀ {n : ℕ} {u : Task I σ κ ε α}, c.tasks[n]? = some u →
      (c.tasks.map (·.kind))[n]? = some u.kind := fun {n u} hn => by
    rw [List.getElem?_map, hn]
    rfl
  obtain ⟨hi', hti⟩ := List.getElem?_eq_some_iff.1 (hkind hi)
  obtain ⟨hj', htj⟩ := List.getElem?_eq_some_iff.1 (hkind hj)
  rcases Nat.lt_or_gt_of_ne hne with hlt | hlt
  · have := (List.pairwise_iff_getElem.1 h.fits i j hi' hj' hlt).1
    rwa [hti, htj] at this
  · have := (List.pairwise_iff_getElem.1 h.fits j i hj' hi' hlt).2
    rwa [hti, htj] at this

/-- One task goes on, after a change that its kind may make. -/
theorem Kept.go {c : Crew I σ κ ε α} (h : C.Kept D c) {i : ℕ} {t : Task I σ κ ε α}
    (hi : c.tasks[i]? = some t) {s : σ} (hinv : C.inv s) (hown : C.later t.kind c.shared s)
    (hother : ∀ k, C.fits t.kind k → C.later k c.shared s) {rest : Program I Unit ε α}
    (hrest : rest.guarded D C t.kind (C.post t.kind t.began) s) :
    C.Kept D { c with shared := s, tasks := c.tasks.set i { t with rest := rest } } := by
  have hstable : ∀ k' k s₀, C.Stable k' (C.post k s₀) := fun _ _ _ _ _ _ hp hl => C.stable hp hl
  refine ⟨hinv, ?_, fun t' ht' => ?_, fun r hr => ?_⟩
  · -- the kinds are the same
    have hkinds : (c.tasks.set i { t with rest := rest }).map (·.kind) = c.tasks.map (·.kind) := by
      apply List.ext_getElem?
      intro n
      rw [List.getElem?_map, List.getElem?_map, List.getElem?_set]
      split_ifs with hn hlt
      · subst hn
        rw [hi]
        rfl
      · rw [List.getElem?_eq_none (by omega)]
      · rfl
    show ((c.tasks.set i { t with rest := rest }).map (·.kind)).Pairwise _
    rw [hkinds]
    exact h.fits
  · obtain ⟨j, hj⟩ := List.mem_iff_getElem?.1 ht'
    have hj : (c.tasks.set i { t with rest := rest })[j]? = some t' := hj
    rw [List.getElem?_set] at hj
    split_ifs at hj with hij hlt
    · cases hj
      obtain ⟨hs, -⟩ := h.tasks t (List.mem_of_getElem? hi)
      exact ⟨⟨hs.hold, hs.le⟩, hrest⟩
    · obtain ⟨hs, hguarded⟩ := h.tasks t' (List.mem_of_getElem? hj)
      exact ⟨⟨hs.hold, hs.le⟩, Program.guarded_later (hstable _ _ _) hguarded
        (hother _ (h.fits_of_ne hi hj hij))⟩
  · obtain ⟨hs, hpost⟩ := h.reports r hr
    exact ⟨⟨hs.hold, hs.le⟩, C.stable hpost hown⟩

/-- **The step lemma**: every turn that the contract admits keeps it. -/
theorem Kept.step
    (hprogram : ∀ k s, C.inv s → C.begins k s → (program k).guarded D C k (C.post k s) s)
    {c c' : Crew I σ κ ε α} (h : C.Kept D c) {turn : Turn κ F}
    (hstep : (interleave D program).step c turn = some c') (hadmits : C.Admits c turn) :
    C.Kept D c' := by
  cases turn with
  | start kind =>
    cases hstep
    obtain ⟨hbegins, hfits⟩ := hadmits
    refine ⟨h.inv, ?_, fun t ht => ?_, fun r hr => ?_⟩
    · show ((c.tasks ++ [(⟨kind, c.shared, c.reports.length, program kind⟩ :
        Task I σ κ ε α)]).map (·.kind)).Pairwise _
      rw [List.map_append, List.pairwise_append]
      refine ⟨h.fits, List.pairwise_singleton _ _, fun k hk k' hk' => ?_⟩
      obtain ⟨t, ht, rfl⟩ := List.mem_map.1 hk
      rw [List.map_singleton, List.mem_singleton] at hk'
      subst hk'
      exact (hfits t ht).symm
    · rcases List.mem_append.1 ht with ht | ht
      · obtain ⟨hs, hguarded⟩ := h.tasks t ht
        exact ⟨⟨hs.hold, hs.le⟩, hguarded⟩
      · cases List.mem_singleton.1 ht
        refine ⟨⟨?_, Nat.le_refl _⟩, hprogram kind _ h.inv hbegins⟩
        show C.Hold (c.reports.take c.reports.length) c.shared
        rw [List.take_length]
        exact h.hold
    · obtain ⟨hs, hpost⟩ := h.reports r hr
      exact ⟨⟨hs.hold, hs.le⟩, hpost⟩
  | kill i =>
    obtain ⟨t, -, rfl⟩ := Option.map_eq_some_iff.1 hstep
    refine ⟨h.inv, h.fits.sublist ((List.eraseIdx_sublist _ _).map _), fun t ht => ?_,
      fun r hr => ?_⟩
    · obtain ⟨hs, hguarded⟩ := h.tasks t (List.mem_of_mem_eraseIdx ht)
      exact ⟨⟨hs.hold, hs.le⟩, hguarded⟩
    · obtain ⟨hs, hpost⟩ := h.reports r hr
      exact ⟨⟨hs.hold, hs.le⟩, hpost⟩
  | move i fate =>
    obtain ⟨t, hi, rfl⟩ := Option.map_eq_some_iff.1 hstep
    obtain ⟨hsince, hguarded⟩ := h.tasks t (List.mem_of_getElem? hi)
    have hasks := hadmits t hi
    obtain ⟨kind, began, since, rest⟩ := t
    have hstill : ∀ k, C.fits kind k → C.later k c.shared c.shared := fun k _ => C.refl _ _
    cases rest with
    | ret a => exact h.report i (r := ⟨kind, began, since, .ok a⟩) hsince hguarded
    | throw e => exact h.report i (r := ⟨kind, began, since, .error e⟩) hsince hguarded
    | get p => exact h.go hi h.inv (C.refl _ _) hstill hguarded
    | set m p => exact h.go hi h.inv (C.refl _ _) hstill hguarded
    | call op p =>
      obtain ⟨hinv, hchange, hrest⟩ := hguarded c.shared (C.refl _ _) h.inv (hasks op rfl) fate
      exact h.go hi hinv (C.own hchange) (fun k hk => C.other hk hchange) hrest

/-- A crew with nothing under way. -/
def Crew.idle (s : σ) : Crew I σ κ ε α := ⟨s, [], []⟩

/-- **Interleaving**: guarded programs keep the contract in every run that it admits. -/
theorem run
    (hprogram : ∀ k s, C.inv s → C.begins k s → (program k).guarded D C k (C.post k s) s)
    {s : σ} (hs : C.inv s) {turns : List (Turn κ F)} {c : Crew I σ κ ε α}
    (hadmits : (interleave D program).Within (fun c turn _ => C.Admits c turn) (Crew.idle s) turns)
    (hrun : (interleave D program).run (Crew.idle s) turns = some c) : C.Kept D c :=
  run_invariant_within (P := C.Kept D) (fun _ _ _ h hstep hok => h.step hprogram hstep hok)
    ⟨hs, List.Pairwise.nil, fun _ ht => (by cases ht), fun _ hr => (by cases hr)⟩ hadmits hrun

end Contract

end Machine

end Obsy
