import Obsy.Machine.Interleave
import Mathlib.Data.List.InsertIdx

/-!
# Tasks and the others

What a task relies on may be less than what it does itself: of two tasks that never run at the same
time each may change what the other one trusts.

* `Pact`: for each kind of task, what the other tasks may change while it runs, what it may change
  itself, next to which kinds it may run, and what its result says.
* `Program.heeds`: a program keeps the invariant of a pact at each of its operations, changes the
  device only as its kind may, and ends with its postcondition, whatever the others do in between.
* `Pact.step`: if every program heeds the pact, every turn that it admits keeps it.
* `Device.ghost`, `ghost_step`: a device whose states an observer follows; what tasks do on the
  device they do with the observer.
-/

namespace Obsy

namespace Machine

variable {I : Interface} {σ κ ε α β F : Type}

/-- What each kind of task may rely on the others for, and promises. -/
structure Pact (I : Interface) (σ κ ε α : Type) where
  /-- What always holds. -/
  inv : σ → Prop
  /-- How the other tasks may change the device while a task of a kind runs. -/
  others : κ → σ → σ → Prop
  change : κ → σ → σ → Prop
  begins : κ → σ → Prop
  /-- Where a task of a kind may ask for an operation. -/
  asks : κ → σ → I.Op → Prop
  /-- A task of the one kind may run next to a task of the other. -/
  fits : κ → κ → Prop
  /-- What a result says about the device when its task began and now. -/
  post : κ → σ → Except ε α → σ → Prop
  refl : ∀ k s, others k s s
  trans : ∀ {k s t u}, others k s t → others k t u → others k s u
  other : ∀ {k k' s t}, fits k k' → change k s t → others k' s t
  stable : ∀ {k k' s₀ r s t}, post k s₀ r s → change k' s t → post k s₀ r t
  steady : ∀ {k s₀ r s t}, post k s₀ r s → others k s t → post k s₀ r t

namespace Pact

variable (C : Pact I σ κ ε α)

/-- A turn that the pact covers. -/
def Admits (c : Crew I σ κ ε α) : Turn κ F → Prop
  | .start kind => C.begins kind c.shared ∧ ∀ t ∈ c.tasks, C.fits kind t.kind ∧ C.fits t.kind kind
  | .move i _ => ∀ t ∈ c.tasks[i]?, ∀ op ∈ t.rest.next, C.asks t.kind c.shared op
  | .kill _ => True

end Pact

/-! ### Programs -/

namespace Program

/-- A program asks only for some operations, whatever they answer. -/
def Only (ok : I.Op → Prop) : Program I Unit ε β → Prop
  | ret _ => True
  | throw _ => True
  | get p => (p ()).Only ok
  | set _ p => p.Only ok
  | call op p => ok op ∧ ∀ r, (p r).Only ok

/-- A program keeps a pact as a task of a kind, whatever other tasks do before each of its
operations, and ends with a postcondition. -/
def heeds {ε' : Type} (D : Device I σ F) (C : Pact I σ κ ε' α) (k : κ) :
    Program I Unit ε β → (Except ε β → σ → Prop) → σ → Prop
  | ret a, Q, s => Q (.ok a) s
  | throw e, Q, s => Q (.error e) s
  | get p, Q, s => (p ()).heeds D C k Q s
  | set _ p, Q, s => p.heeds D C k Q s
  | call op p, Q, s => ∀ t, C.others k s t → C.inv t → C.asks k t op → ∀ f,
      C.inv (D.apply f t op).2 ∧ C.change k t (D.apply f t op).2 ∧
        (p (D.apply f t op).1).heeds D C k Q (D.apply f t op).2

variable {ε' ε'' γ : Type} {ok : I.Op → Prop} {D : Device I σ F} {C : Pact I σ κ ε' α} {k : κ}

theorem only_bind {p : Program I Unit ε β} {q : β → Program I Unit ε γ} (hp : p.Only ok)
    (hq : ∀ b, (q b).Only ok) : (p.bind q).Only ok := by
  induction p with
  | ret a => exact hq a
  | throw e => trivial
  | get p ih => exact ih () hp
  | set m p ih => exact ih hp
  | call op p ih => exact ⟨hp.1, fun r => ih r (hp.2 r)⟩

theorem only_perform {op : I.Op} (h : ok op) :
    (perform op : Program I Unit ε (I.Ans op)).Only ok := ⟨h, fun _ => trivial⟩

theorem only_attempt {p : Program I Unit ε β} (hp : p.Only ok) :
    (p.attempt : Program I Unit ε'' (Except ε β)).Only ok := by
  induction p with
  | ret a => trivial
  | throw e => trivial
  | get p ih => exact ih () hp
  | set m p ih => exact ih hp
  | call op p ih => exact ⟨hp.1, fun r => ih r (hp.2 r)⟩

/-- Where a program heeds a pact it does so after a change by the others. -/
theorem heeds_after {p : Program I Unit ε β} {Q : Except ε β → σ → Prop}
    (hQ : ∀ r s t, Q r s → C.others k s t → Q r t) {s t : σ} (h : p.heeds D C k Q s)
    (hst : C.others k s t) : p.heeds D C k Q t := by
  induction p with
  | ret a => exact hQ _ _ _ h hst
  | throw e => exact hQ _ _ _ h hst
  | get p ih => exact ih () h
  | set m p ih => exact ih h
  | call op p ih => exact fun u htu => h u (C.trans hst htu)

theorem heeds_mono {p : Program I Unit ε β} {Q Q' : Except ε β → σ → Prop} {s : σ}
    (h : p.heeds D C k Q s) (hQ : ∀ r s, Q r s → Q' r s) : p.heeds D C k Q' s := by
  induction p generalizing s with
  | ret a => exact hQ _ _ h
  | throw e => exact hQ _ _ h
  | get p ih => exact ih () h
  | set m p ih => exact ih h
  | call op p ih =>
    intro t hst hinv hasks f
    obtain ⟨hinv', hchange, hrest⟩ := h t hst hinv hasks f
    exact ⟨hinv', hchange, ih _ hrest⟩

/-- **The sequencing rule.** -/
theorem heeds_bind {p : Program I Unit ε β} {q : β → Program I Unit ε γ}
    {R : β → σ → Prop} {Q : Except ε γ → σ → Prop} {s : σ}
    (hp : p.heeds D C k (fun r s => match r with
      | .ok b => R b s
      | .error e => Q (.error e) s) s)
    (hq : ∀ b s, R b s → (q b).heeds D C k Q s) : (p.bind q).heeds D C k Q s := by
  induction p generalizing s with
  | ret a => exact hq a s hp
  | throw e => exact hp
  | get g ih => exact ih () hp
  | set m p ih => exact ih hp
  | call op g ih =>
    intro t hst hinv hasks f
    obtain ⟨hinv', hchange, hrest⟩ := hp t hst hinv hasks f
    exact ⟨hinv', hchange, ih _ hrest⟩

/-- A program that begins under the invariant ends under it. -/
theorem heeds_inv {p : Program I Unit ε β} {Q : Except ε β → σ → Prop} {s : σ} (hs : C.inv s)
    (h : p.heeds D C k Q s) : p.heeds D C k (fun r t => C.inv t ∧ Q r t) s := by
  induction p generalizing s with
  | ret a => exact ⟨hs, h⟩
  | throw e => exact ⟨hs, h⟩
  | get p ih => exact ih () hs h
  | set m p ih => exact ih hs h
  | call op p ih =>
    intro t hst ht hasks f
    obtain ⟨hinv, hchange, hrest⟩ := h t hst ht hasks f
    exact ⟨hinv, hchange, ih _ hinv hrest⟩

/-- A program that keeps a contract on a device without an observer, and asks only for operations
that the pact bears. -/
theorem heeds_of_guarded {σ' κ' α' ε₁ : Type} (D' : Device I σ' F) (C' : Contract I σ' κ' ε₁ α')
    (k' : κ') (view : σ → σ') (happly : ∀ f s op, (D'.apply f (view s) op).1 = (D.apply f s op).1 ∧
      (D'.apply f (view s) op).2 = view (D.apply f s op).2)
    (hinv : ∀ t, C.inv t → C'.inv (view t))
    (hlater : ∀ s t, C.others k s t → C'.later k' (view s) (view t))
    (hasks : ∀ t op, C'.asks k' (view t) op)
    (hchange : ∀ t op f, ok op → C.inv t → C'.inv (view (D.apply f t op).2) →
      C'.change k' (view t) (view (D.apply f t op).2) →
      C.inv (D.apply f t op).2 ∧ C.change k t (D.apply f t op).2 ∧
        C.others k t (D.apply f t op).2)
    {p : Program I Unit ε β} (hp : p.Only ok) {Q : Except ε β → σ' → Prop} {s₀ s : σ}
    (h : p.guarded D' C' k' Q (view s)) (hs : C.others k s₀ s) :
    p.heeds D C k (fun r t => C.others k s₀ t ∧ Q r (view t)) s := by
  induction p generalizing s with
  | ret a => exact ⟨hs, h⟩
  | throw e => exact ⟨hs, h⟩
  | get p ih => exact ih () hp h hs
  | set m p ih => exact ih hp h hs
  | call op p ih =>
    intro t hst ht _ f
    obtain ⟨hnext, hgrown, hrest⟩ := h (view t) (hlater s t hst) (hinv t ht) (hasks t op) f
    obtain ⟨hans, hstate⟩ := happly f t op
    rw [hstate] at hnext hgrown hrest
    rw [hans] at hrest
    obtain ⟨hinv', hchange', hown⟩ := hchange t op f hp.1 ht hnext hgrown
    exact ⟨hinv', hchange', ih _ (hp.2 _) hrest (C.trans hs (C.trans hst hown))⟩

end Program

/-! ### Crews -/

namespace Pact

variable (C : Pact I σ κ ε α) {D : Device I σ F} {program : κ → Program I Unit ε α}

/-- All these reports are true of the device. -/
def Hold (reports : List (Report σ κ ε α)) (s : σ) : Prop :=
  ∀ r ∈ reports, C.post r.kind r.began r.result s

/-- What a task or a report that began at this point may rely on. -/
structure Since (reports : List (Report σ κ ε α)) (kind : κ) (began : σ) (since : ℕ) : Prop where
  begins : C.begins kind began
  hold : C.Hold (reports.take since) began
  le : since ≤ reports.length

/-- The invariant of a crew. -/
structure Kept (D : Device I σ F) (c : Crew I σ κ ε α) : Prop where
  inv : C.inv c.shared
  fits : (c.tasks.map (·.kind)).Pairwise fun k k' => C.fits k k' ∧ C.fits k' k
  tasks : ∀ t ∈ c.tasks, C.Since c.reports t.kind t.began t.since ∧
    t.rest.heeds D C t.kind (C.post t.kind t.began) c.shared
  reports : ∀ r ∈ c.reports, C.Since c.reports r.kind r.began r.since ∧
    C.post r.kind r.began r.result c.shared

variable {C}

theorem Since.report {reports : List (Report σ κ ε α)} {kind : κ} {began : σ} {since : ℕ}
    (h : C.Since reports kind began since) (r : Report σ κ ε α) :
    C.Since (reports ++ [r]) kind began since where
  begins := h.begins
  hold := by
    rw [List.take_append_of_le_length h.le]
    exact h.hold
  le := by
    rw [List.length_append]
    exact Nat.le_trans h.le (Nat.le_add_right _ _)

/-- One more report of a task that ends. -/
theorem Kept.report {c : Crew I σ κ ε α} (h : C.Kept D c) (i : ℕ) {r : Report σ κ ε α}
    (hsince : C.Since c.reports r.kind r.began r.since)
    (hpost : C.post r.kind r.began r.result c.shared) :
    C.Kept D { c with tasks := c.tasks.eraseIdx i, reports := c.reports ++ [r] } := by
  refine ⟨h.inv, h.fits.sublist ((List.eraseIdx_sublist _ _).map _), fun t ht => ?_,
    fun r' hr' => ?_⟩
  · obtain ⟨hs, hrest⟩ := h.tasks t (List.mem_of_mem_eraseIdx ht)
    exact ⟨hs.report r, hrest⟩
  · rcases List.mem_append.1 hr' with hr' | hr'
    · obtain ⟨hs, hp⟩ := h.reports r' hr'
      exact ⟨hs.report r, hp⟩
    · cases List.mem_singleton.1 hr'
      exact ⟨hsince.report r, hpost⟩

/-- Two running tasks may run next to each other. -/
theorem Kept.fits_of_ne {c : Crew I σ κ ε α} (h : C.Kept D c) {i j : ℕ} {t t' : Task I σ κ ε α}
    (hi : c.tasks[i]? = some t) (hj : c.tasks[j]? = some t') (hne : i ≠ j) :
    C.fits t.kind t'.kind := by
  obtain ⟨hi', rfl⟩ := List.getElem?_eq_some_iff.1 hi
  obtain ⟨hj', rfl⟩ := List.getElem?_eq_some_iff.1 hj
  have hpairs := List.pairwise_map.1 h.fits
  rcases Nat.lt_or_gt_of_ne hne with hlt | hlt
  · exact (List.pairwise_iff_getElem.1 hpairs i j hi' hj' hlt).1
  · exact (List.pairwise_iff_getElem.1 hpairs j i hj' hi' hlt).2

/-- One task goes on, after a change that its kind may make. -/
theorem Kept.go {c : Crew I σ κ ε α} (h : C.Kept D c) {i : ℕ} {t : Task I σ κ ε α}
    (hi : c.tasks[i]? = some t) {s : σ} (hinv : C.inv s)
    (hpost : ∀ k s₀ r, C.post k s₀ r c.shared → C.post k s₀ r s)
    (hother : ∀ k, C.fits t.kind k → C.others k c.shared s)
    {rest : Program I Unit ε α} (hrest : rest.heeds D C t.kind (C.post t.kind t.began) s) :
    C.Kept D { c with shared := s, tasks := c.tasks.set i { t with rest := rest } } := by
  refine ⟨hinv, ?_, fun t' ht' => ?_, fun r hr =>
    ⟨(h.reports r hr).1, hpost _ _ _ (h.reports r hr).2⟩⟩
  · have hkinds : (c.tasks.set i { t with rest := rest }).map (·.kind) = c.tasks.map (·.kind) := by
      obtain ⟨hlt, heq⟩ := List.getElem?_eq_some_iff.1 hi
      rw [List.map_set]
      refine (congrArg ((c.tasks.map (·.kind)).set i) ?_).trans (List.set_getElem_self (by
        rwa [List.length_map]))
      rw [List.getElem_map, heq]
    dsimp only
    rw [hkinds]
    exact h.fits
  · obtain ⟨j, hj⟩ := List.mem_iff_getElem?.1 ht'
    dsimp only at hj
    rw [List.getElem?_set] at hj
    split_ifs at hj with hij hlt
    · cases hj
      exact ⟨(h.tasks t (List.mem_of_getElem? hi)).1, hrest⟩
    · obtain ⟨hs, hheeds⟩ := h.tasks t' (List.mem_of_getElem? hj)
      have hsteady : ∀ r u v, C.post t'.kind t'.began r u → C.others t'.kind u v →
          C.post t'.kind t'.began r v := fun _ _ _ => C.steady
      exact ⟨hs, Program.heeds_after hsteady hheeds (hother _ (h.fits_of_ne hi hj hij))⟩

/-- **The step lemma**: every turn that the pact admits keeps it. -/
theorem Kept.step
    (hprogram : ∀ k s, C.inv s → C.begins k s → (program k).heeds D C k (C.post k s) s)
    {c c' : Crew I σ κ ε α} (h : C.Kept D c) {turn : Turn κ F}
    (hstep : (interleave D program).step c turn = some c') (hadmits : C.Admits c turn) :
    C.Kept D c' := by
  cases turn with
  | start kind =>
    cases hstep
    obtain ⟨hbegins, hfits⟩ := hadmits
    refine ⟨h.inv, ?_, fun t ht => ?_, h.reports⟩
    · dsimp only
      rw [List.map_append, List.pairwise_append]
      refine ⟨h.fits, List.pairwise_singleton _ _, fun k hk k' hk' => ?_⟩
      obtain ⟨t, ht, rfl⟩ := List.mem_map.1 hk
      rw [List.map_singleton, List.mem_singleton] at hk'
      subst hk'
      exact (hfits t ht).symm
    · rcases List.mem_append.1 ht with ht | ht
      · exact h.tasks t ht
      · cases List.mem_singleton.1 ht
        refine ⟨⟨hbegins, ?_, Nat.le_refl _⟩, hprogram kind _ h.inv hbegins⟩
        dsimp only
        rw [List.take_length]
        exact fun r hr => (h.reports r hr).2
  | kill i =>
    obtain ⟨t, -, rfl⟩ := Option.map_eq_some_iff.1 hstep
    exact ⟨h.inv, h.fits.sublist ((List.eraseIdx_sublist _ _).map _),
      fun t ht => h.tasks t (List.mem_of_mem_eraseIdx ht), h.reports⟩
  | move i fate =>
    obtain ⟨t, hi, rfl⟩ := Option.map_eq_some_iff.1 hstep
    obtain ⟨hsince, hheeds⟩ := h.tasks t (List.mem_of_getElem? hi)
    have hasks := hadmits t hi
    obtain ⟨kind, began, since, rest⟩ := t
    have hstill : ∀ k, C.fits kind k → C.others k c.shared c.shared := fun k _ => C.refl _ _
    have hsame : ∀ k s₀ r, C.post k s₀ r c.shared → C.post k s₀ r c.shared := fun _ _ _ h => h
    cases rest with
    | ret a => exact h.report i (r := ⟨kind, began, since, .ok a⟩) hsince hheeds
    | throw e => exact h.report i (r := ⟨kind, began, since, .error e⟩) hsince hheeds
    | get p => exact h.go hi h.inv hsame hstill hheeds
    | set m p => exact h.go hi h.inv hsame hstill hheeds
    | call op p =>
      obtain ⟨hinv, hchange, hrest⟩ := hheeds c.shared (C.refl _ _) h.inv (hasks op rfl) fate
      exact h.go hi hinv (fun _ _ _ hp => C.stable hp hchange) (fun k hk => C.other hk hchange)
        hrest

theorem kept_idle {s : σ} (hs : C.inv s) : C.Kept D (Contract.Crew.idle s) :=
  ⟨hs, List.Pairwise.nil, fun _ ht => (by cases ht), fun _ hr => (by cases hr)⟩

end Pact

/-! ### Observers -/

section

variable {ω τ : Type}

/-- A device whose states an observer follows. -/
def Device.ghost (D : Device I σ F) (observe : ω → σ → ω) : Device I (σ × ω) F where
  apply f s op := ((D.apply f s.1 op).1, (D.apply f s.1 op).2, observe s.2 (D.apply f s.1 op).2)

/-- A crew without its observer and without what was noted when a task began. -/
def Crew.plain (c : Crew I (σ × ω) (κ × τ) ε α) : Crew I σ κ ε α where
  shared := c.shared.1
  tasks := c.tasks.map fun t => ⟨t.kind.1, t.began.1, t.since, t.rest⟩
  reports := c.reports.map fun r => ⟨r.kind.1, r.began.1, r.since, r.result⟩

/-- A turn that notes something of the device when a task begins. -/
def Turn.noted (note : σ → τ) (s : σ) : Turn κ F → Turn (κ × τ) F
  | .start kind => .start (kind, note s)
  | .move i fate => .move i fate
  | .kill i => .kill i

variable {D : Device I σ F} {program : κ → Program I Unit ε α} (observe : ω → σ → ω) (note : σ → τ)

/-- A turn leaves the device as it is, or does one operation. -/
theorem step_shared {c c' : Crew I σ κ ε α} {turn : Turn κ F}
    (h : (interleave D program).step c turn = some c') :
    c'.shared = c.shared ∨ ∃ fate op, c'.shared = (D.apply fate c.shared op).2 := by
  cases turn with
  | start kind =>
    cases h
    exact .inl rfl
  | kill i =>
    obtain ⟨t, -, rfl⟩ := Option.map_eq_some_iff.1 h
    exact .inl rfl
  | move i fate =>
    obtain ⟨t, -, rfl⟩ := Option.map_eq_some_iff.1 h
    obtain ⟨kind, began, since, rest⟩ := t
    cases rest with
    | call op p => exact .inr ⟨fate, op, rfl⟩
    | _ => exact .inl rfl

theorem plain_set (c : Crew I (σ × ω) (κ × τ) ε α) {i : ℕ} {t : Task I (σ × ω) (κ × τ) ε α}
    (shared : σ × ω) (rest : Program I Unit ε α) :
    ({ c with
        shared := shared, tasks := c.tasks.set i { t with rest := rest } } : Crew I _ _ ε α).plain =
      { c.plain with
        shared := shared.1
        tasks := c.plain.tasks.set i ⟨t.kind.1, t.began.1, t.since, rest⟩ } := by
  rw [Crew.plain, Crew.plain]
  dsimp only
  rw [List.map_set]

/-- **What tasks do on a device, they do with an observer.** -/
theorem ghost_step {c : Crew I (σ × ω) (κ × τ) ε α} {c' : Crew I σ κ ε α} {turn : Turn κ F}
    (h : (interleave D program).step c.plain turn = some c') :
    ∃ d, (interleave (D.ghost observe) fun k : κ × τ => program k.1).step c
        (turn.noted note c.shared.1) = some d ∧ d.plain = c' := by
  cases turn with
  | start kind =>
    cases h
    refine ⟨_, rfl, ?_⟩
    rw [Crew.plain, Crew.plain]
    dsimp only
    rw [List.map_append, List.length_map]
    rfl
  | kill i =>
    obtain ⟨t, ht, rfl⟩ := Option.map_eq_some_iff.1 h
    rw [Crew.plain, List.getElem?_map] at ht
    obtain ⟨u, hu, -⟩ := Option.map_eq_some_iff.1 ht
    refine ⟨_, congrArg (Option.map _) hu, ?_⟩
    rw [Crew.plain, Crew.plain]
    dsimp only
    rw [List.eraseIdx_map]
  | move i fate =>
    obtain ⟨t, ht, rfl⟩ := Option.map_eq_some_iff.1 h
    rw [Crew.plain, List.getElem?_map] at ht
    obtain ⟨u, hu, rfl⟩ := Option.map_eq_some_iff.1 ht
    refine ⟨_, congrArg (Option.map _) hu, ?_⟩
    obtain ⟨kind, began, since, rest⟩ := u
    have hreport : ∀ result : Except ε α,
        ({ c with
          tasks := c.tasks.eraseIdx i, reports := c.reports ++ [⟨kind, began, since, result⟩] } :
            Crew I _ _ ε α).plain = { c.plain with
              tasks := c.plain.tasks.eraseIdx i
              reports := c.plain.reports ++ [⟨kind.1, began.1, since, result⟩] } := by
      intro result
      rw [Crew.plain, Crew.plain]
      dsimp only
      rw [List.map_append, List.eraseIdx_map]
      rfl
    cases rest with
    | ret a => exact hreport (.ok a)
    | throw e => exact hreport (.error e)
    | get p => exact plain_set c _ _
    | set m p => exact plain_set c _ _
    | call op p => exact plain_set c _ _

end

end Machine

end Obsy
