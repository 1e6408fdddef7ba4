import Mathlib.Logic.Basic

/-!
# Sequential programs over a device

A `Program` asks a device for operations one after the other, works on a memory between them,
and returns or throws.  A `Device` answers an operation and changes its state; what it does is
decided by a *fate*, one for each operation.

* `Program.exec`: a program run on a script of fates.  A script that ends before the program
  does is a crash at that point.
* `Program.wp`: what must hold for a run to end well, computed over the program.  A condition
  on the device must hold whenever the program is about to ask for an operation, since it may
  crash there.
* `Program.exec_of_wp`: every run of a program meets what its `wp` says.
* `Device.restrict`: a device under some of its fates; a program that throws under none of them
  returns under some (`Program.exists_done`).
* `Device.watch`: a device whose operations and answers an observer follows; the observer
  changes nothing (`Program.exec_watch`).
* `Program.Preserves`: an invariant that a program keeps however it ends, with its rules.
-/

namespace Obsy

namespace Machine

/-- The operations a device offers and the answer each of them gives. -/
structure Interface where
  Op : Type
  /-- What an operation answers. -/
  Ans : Op → Type

/-- A sequential program with a memory `μ`, errors `ε` and results `α`. -/
inductive Program (I : Interface) (μ ε α : Type) : Type
  /-- Return a result. -/
  | ret (a : α)
  /-- Throw an error; the memory stays as it is. -/
  | throw (e : ε)
  /-- Read the memory. -/
  | get (k : μ → Program I μ ε α)
  /-- Replace the memory. -/
  | set (m : μ) (k : Program I μ ε α)
  /-- Ask the device for an operation. -/
  | call (op : I.Op) (k : I.Ans op → Program I μ ε α)

/-- A device: its answer to an operation and its next state, under a fate. -/
structure Device (I : Interface) (σ F : Type) where
  /-- One operation. -/
  apply : F → σ → (op : I.Op) → I.Ans op × σ

/-- A device that meets only some fates. -/
def Device.restrict {I : Interface} {σ F : Type} (D : Device I σ F) (ok : F → Prop) :
    Device I σ {f // ok f} where
  apply f s op := D.apply f.1 s op

/-- A device with an observer, who sees each operation and its answer. -/
def Device.watch {I : Interface} {σ F ω : Type} (D : Device I σ F)
    (see : ω → (op : I.Op) → I.Ans op → ω) : Device I (σ × ω) F where
  apply f s op := ((D.apply f s.1 op).1, (D.apply f s.1 op).2, see s.2 op (D.apply f s.1 op).1)

/-- How a run ended. -/
inductive Ending (ε α : Type)
  /-- It returned. -/
  | done (a : α)
  /-- It threw. -/
  | failed (e : ε)
  | crashed
deriving DecidableEq

/-- What a run leaves behind. -/
structure Outcome (μ σ ε α F : Type) where
  /-- How it ended. -/
  ending : Ending ε α
  memory : μ
  device : σ
  /-- The fates that were not used. -/
  rest : List F

/-- An outcome without its observer. -/
def Outcome.forget {μ σ ε α F ω : Type} (o : Outcome μ (σ × ω) ε α F) : Outcome μ σ ε α F :=
  ⟨o.ending, o.memory, o.device.1, o.rest⟩

/-- What must hold at the end of a run, for each way to end. -/
structure Post (μ σ ε α : Type) where
  /-- After a result. -/
  done : α → μ → σ → Prop
  /-- After an error. -/
  failed : ε → μ → σ → Prop
  /-- After a crash, which leaves only the device. -/
  crashed : σ → Prop

variable {I : Interface} {μ σ ε α β F : Type}

/-- The end of a run meets a postcondition. -/
def Outcome.Meets (o : Outcome μ σ ε α F) (post : Post μ σ ε α) : Prop :=
  match o.ending with
  | .done a => post.done a o.memory o.device
  | .failed e => post.failed e o.memory o.device
  | .crashed => post.crashed o.device

namespace Program

/-- One program after the other. -/
def bind : Program I μ ε α → (α → Program I μ ε β) → Program I μ ε β
  | ret a, k => k a
  | throw e, _ => throw e
  | get g, k => get fun m => (g m).bind k
  | set m p, k => set m (p.bind k)
  | call op g, k => call op fun r => (g r).bind k

instance : Monad (Program I μ ε) where
  pure := ret
  bind := bind

/-- Ask the device for one operation. -/
def perform (op : I.Op) : Program I μ ε (I.Ans op) := call op ret

/-- The memory. -/
def load : Program I μ ε μ := get ret

/-- A new memory. -/
def store (m : μ) : Program I μ ε Unit := set m (ret ())

/-- A program whose errors are results. -/
def attempt {ε' : Type} : Program I μ ε α → Program I μ ε' (Except ε α)
  | ret a => ret (.ok a)
  | throw e => ret (.error e)
  | get k => get fun m => (k m).attempt
  | set m k => set m k.attempt
  | call op k => call op fun r => (k r).attempt

/-- The operation that a program asks for first. -/
def next : Program I μ ε α → Option I.Op
  | call op _ => some op
  | _ => none

/-- A program for each element of a list, with the results in order. -/
def each {γ : Type} (body : γ → Program I μ ε β) : List γ → Program I μ ε (List β)
  | [] => ret []
  | x :: xs => (body x).bind fun b => (each body xs).bind fun bs => ret (b :: bs)

/-- Run a program on a script of fates. -/
def exec (D : Device I σ F) : Program I μ ε α → List F → μ → σ → Outcome μ σ ε α F
  | ret a, fs, m, s => ⟨.done a, m, s, fs⟩
  | throw e, fs, m, s => ⟨.failed e, m, s, fs⟩
  | get k, fs, m, s => (k m).exec D fs m s
  | set m k, fs, _, s => k.exec D fs m s
  | call _ _, [], m, s => ⟨.crashed, m, s, []⟩
  | call op k, f :: fs, m, s => (k (D.apply f s op).1).exec D fs m (D.apply f s op).2

/-- Run a program under one fate throughout. -/
def steady (D : Device I σ F) (f : F) : Program I μ ε α → μ → σ → Except ε α × σ
  | ret a, _, s => (.ok a, s)
  | throw e, _, s => (.error e, s)
  | get k, m, s => (k m).steady D f m s
  | set m k, _, s => k.steady D f m s
  | call op k, m, s => (k (D.apply f s op).1).steady D f m (D.apply f s op).2

/-- One step of a program: an operation, or what it does with its memory. -/
def once (D : Device I σ F) (f : F) : Program I μ ε α → μ → σ → Program I μ ε α × μ × σ
  | get k, m, s => (k m, m, s)
  | set m k, _, s => (k, m, s)
  | call op k, m, s => (k (D.apply f s op).1, m, (D.apply f s op).2)
  | p, m, s => (p, m, s)

/-- What must hold now for every run to meet a postcondition. -/
def wp (D : Device I σ F) : Program I μ ε α → Post μ σ ε α → μ → σ → Prop
  | ret a, post, m, s => post.done a m s
  | throw e, post, m, s => post.failed e m s
  | get k, post, m, s => (k m).wp D post m s
  | set m k, post, _, s => k.wp D post m s
  | call op k, post, m, s => post.crashed s ∧
      ∀ f, (k (D.apply f s op).1).wp D post m (D.apply f s op).2

variable {D : Device I σ F}

@[simp] theorem pure_eq (a : α) : (pure a : Program I μ ε α) = ret a := rfl

@[simp] theorem bind_eq (p : Program I μ ε α) (k : α → Program I μ ε β) : p >>= k = p.bind k :=
  rfl

@[simp] theorem ret_bind (a : α) (k : α → Program I μ ε β) : (ret a).bind k = k a := rfl

/-- **Runs meet their precondition.** -/
theorem exec_of_wp {p : Program I μ ε α} {post : Post μ σ ε α} {m : μ} {s : σ}
    (h : p.wp D post m s) (fs : List F) : (p.exec D fs m s).Meets post := by
  induction p generalizing fs m s with
  | ret a => exact h
  | throw e => exact h
  | get k ih => exact ih m h fs
  | set m' k ih => exact ih h fs
  | call op k ih =>
    cases fs with
    | nil => exact h.1
    | cons f fs => exact ih _ (h.2 f) fs

/-- **The sequencing rule.** -/
@[simp] theorem wp_bind (p : Program I μ ε α) (k : α → Program I μ ε β) (post : Post μ σ ε β)
    (m : μ) (s : σ) : (p.bind k).wp D post m s ↔
      p.wp D ⟨fun a m s => (k a).wp D post m s, post.failed, post.crashed⟩ m s := by
  induction p generalizing m s with
  | ret a => rfl
  | throw e => rfl
  | get g ih => exact ih m m s
  | set m' p ih => exact ih m' s
  | call op g ih => exact and_congr_right fun _ => forall_congr' fun f => ih _ m _

@[simp] theorem wp_ret (a : α) (post : Post μ σ ε α) (m : μ) (s : σ) :
    (ret a : Program I μ ε α).wp D post m s ↔ post.done a m s := Iff.rfl

@[simp] theorem wp_throw (e : ε) (post : Post μ σ ε α) (m : μ) (s : σ) :
    (throw e : Program I μ ε α).wp D post m s ↔ post.failed e m s := Iff.rfl

@[simp] theorem wp_load (post : Post μ σ ε μ) (m : μ) (s : σ) :
    (load : Program I μ ε μ).wp D post m s ↔ post.done m m s := Iff.rfl

@[simp] theorem wp_store (m' : μ) (post : Post μ σ ε Unit) (m : μ) (s : σ) :
    (store m' : Program I μ ε Unit).wp D post m s ↔ post.done () m' s := Iff.rfl

@[simp] theorem wp_attempt {ε' : Type} (p : Program I μ ε α) (post : Post μ σ ε' (Except ε α))
    (m : μ) (s : σ) : (p.attempt : Program I μ ε' (Except ε α)).wp D post m s ↔
      p.wp D ⟨fun a m s => post.done (.ok a) m s, fun e m s => post.done (.error e) m s,
        post.crashed⟩ m s := by
  induction p generalizing m s with
  | ret a => rfl
  | throw e => rfl
  | get k ih => exact ih m m s
  | set m' p ih => exact ih m' s
  | call op k ih => exact and_congr_right fun _ => forall_congr' fun f => ih _ m _

/-- **The consequence rule.** -/
theorem wp_mono {p : Program I μ ε α} {Q Q' : α → μ → σ → Prop} {E E' : ε → μ → σ → Prop}
    {K K' : σ → Prop} {m : μ} {s : σ} (h : p.wp D ⟨Q, E, K⟩ m s)
    (hdone : ∀ a m s, Q a m s → Q' a m s) (hfailed : ∀ e m s, E e m s → E' e m s)
    (hcrashed : ∀ s, K s → K' s) : p.wp D ⟨Q', E', K'⟩ m s := by
  induction p generalizing m s with
  | ret a => exact hdone a m s h
  | throw e => exact hfailed e m s h
  | get k ih => exact ih m h
  | set m' k ih => exact ih h
  | call op k ih => exact ⟨hcrashed s h.1, fun f => ih _ (h.2 f)⟩

/-- One program after the other, when errors and crashes mean the same for both. -/
theorem wp_seq {p : Program I μ ε α} {k : α → Program I μ ε β} {R : α → μ → σ → Prop}
    {Q : β → μ → σ → Prop} {E : ε → μ → σ → Prop} {K : σ → Prop} {m : μ} {s : σ}
    (hp : p.wp D ⟨R, E, K⟩ m s) (hk : ∀ a m s, R a m s → (k a).wp D ⟨Q, E, K⟩ m s) :
    (p.bind k).wp D ⟨Q, E, K⟩ m s :=
  (wp_bind p k _ m s).2 (wp_mono hp hk (fun _ _ _ h => h) fun _ h => h)

/-- **The loop rule.**  `inv done todo` holds before each element, with the results so far and
the elements to come. -/
theorem wp_each {γ : Type} {body : γ → Program I μ ε β} {Q : List β → μ → σ → Prop}
    {E : ε → μ → σ → Prop} {K : σ → Prop} (inv : List β → List γ → μ → σ → Prop)
    (hstep : ∀ x xs bs m s, inv bs (x :: xs) m s →
      (body x).wp D ⟨fun b m s => inv (bs ++ [b]) xs m s, E, K⟩ m s)
    (xs : List γ) (bs : List β) {m : μ} {s : σ} (h : inv bs xs m s)
    (hdone : ∀ cs m s, inv (bs ++ cs) [] m s → Q cs m s) :
    (each body xs).wp D ⟨Q, E, K⟩ m s := by
  induction xs generalizing bs m s Q with
  | nil => exact hdone [] m s (by rwa [List.append_nil])
  | cons x xs ih =>
    simp only [each, wp_bind]
    refine wp_mono (hstep x xs bs m s h) (fun b m s hb => ?_) (fun _ _ _ he => he)
      (fun _ hk => hk)
    refine ih (bs ++ [b]) hb fun cs m s hc => hdone (b :: cs) m s ?_
    rwa [List.append_assoc] at hc

/-! ### Scripts of chosen fates -/

/-- **Runs under chosen fates meet their precondition**, computed on the device that knows no
others. -/
theorem exec_of_wp_restrict {ok : F → Prop} {p : Program I μ ε α} {post : Post μ σ ε α} {m : μ}
    {s : σ} (h : p.wp (D.restrict ok) post m s) (fs : List F) (hfs : ∀ f ∈ fs, ok f) :
    (p.exec D fs m s).Meets post := by
  induction p generalizing fs m s with
  | ret a => exact h
  | throw e => exact h
  | get k ih => exact ih m h fs hfs
  | set m' k ih => exact ih h fs hfs
  | call op k ih =>
    cases fs with
    | nil => exact h.1
    | cons f fs =>
      exact ih _ (h.2 ⟨f, hfs f List.mem_cons_self⟩) fs fun g hg =>
        hfs g (List.mem_cons_of_mem _ hg)

/-- A step of a program under a chosen fate. -/
theorem wp_once {ok : F → Prop} {f : F} (hf : ok f) {p : Program I μ ε α} {post : Post μ σ ε α}
    {m : μ} {s : σ} (h : p.wp (D.restrict ok) post m s) :
    (p.once D f m s).1.wp (D.restrict ok) post (p.once D f m s).2.1 (p.once D f m s).2.2 := by
  cases p with
  | ret a => exact h
  | throw e => exact h
  | get k => exact h
  | set m' k => exact h
  | call op k => exact h.2 ⟨f, hf⟩

/-- What holds after a crash holds now, when it holds at each end. -/
theorem crashed_of_wp {p : Program I μ ε α} {post : Post μ σ ε α} {m : μ} {s : σ}
    (h : p.wp D post m s) (hdone : ∀ a m s, post.done a m s → post.crashed s)
    (hfailed : ∀ e m s, post.failed e m s → post.crashed s) : post.crashed s := by
  induction p generalizing m with
  | ret a => exact hdone a m s h
  | throw e => exact hfailed e m s h
  | get k ih => exact ih m h
  | set m' k ih => exact ih h
  | call op k ih => exact h.1

/-- Fewer fates. -/
theorem wp_restrict_mono {ok ok' : F → Prop} (hok : ∀ f, ok' f → ok f) {p : Program I μ ε α}
    {post : Post μ σ ε α} {m : μ} {s : σ} (h : p.wp (D.restrict ok) post m s) :
    p.wp (D.restrict ok') post m s := by
  induction p generalizing m s with
  | ret a => exact h
  | throw e => exact h
  | get k ih => exact ih m h
  | set m' k ih => exact ih h
  | call op k ih => exact ⟨h.1, fun f => ih _ (h.2 ⟨f.1, hok f.1 f.2⟩)⟩

/-- **A program that never throws under a fate returns** under it. -/
theorem steady_of_wp {f : F} {p : Program I μ ε α} {Q : α → μ → σ → Prop} {K : σ → Prop} {m : μ}
    {s : σ} (h : p.wp (D.restrict (· = f)) ⟨Q, fun _ _ _ => False, K⟩ m s) :
    ∃ a m', (p.steady D f m s).1 = .ok a ∧ Q a m' (p.steady D f m s).2 := by
  induction p generalizing m s with
  | ret a => exact ⟨a, m, rfl, h⟩
  | throw e => exact absurd h id
  | get k ih => exact ih m h
  | set m' k ih => exact ih h
  | call op k ih => exact ih _ (h.2 ⟨f, rfl⟩)

/-- **A program that never throws returns** on a long enough script of chosen fates. -/
theorem exists_done {ok : F → Prop} (hok : ∃ f, ok f) {p : Program I μ ε α}
    {Q : α → μ → σ → Prop} {K : σ → Prop} {m : μ} {s : σ}
    (h : p.wp (D.restrict ok) ⟨Q, fun _ _ _ => False, K⟩ m s) :
    ∃ fs a, (p.exec D fs m s).ending = .done a ∧
      Q a (p.exec D fs m s).memory (p.exec D fs m s).device := by
  induction p generalizing m s with
  | ret a => exact ⟨[], a, rfl, h⟩
  | throw e => exact absurd h id
  | get k ih => exact ih m h
  | set m' k ih => exact ih h
  | call op k ih =>
    obtain ⟨f, hf⟩ := hok
    obtain ⟨fs, a, hdone, hQ⟩ := ih _ (h.2 ⟨f, hf⟩)
    exact ⟨f :: fs, a, hdone, hQ⟩

/-! ### Watching a run -/

section Watch

variable {ω : Type} {see : ω → (op : I.Op) → I.Ans op → ω}

/-- What the observer has seen at the end of a run. -/
def seen (D : Device I σ F) (see : ω → (op : I.Op) → I.Ans op → ω) (p : Program I μ ε α)
    (fs : List F) (m : μ) (s : σ) (w : ω) : ω := (p.exec (D.watch see) fs m (s, w)).device.2

/-- **The observer changes nothing.** -/
theorem exec_watch (see : ω → (op : I.Op) → I.Ans op → ω) (p : Program I μ ε α) (fs : List F) (m : μ) (s : σ) (w : ω) :
    (p.exec (D.watch see) fs m (s, w)).forget = p.exec D fs m s := by
  induction p generalizing fs m s w with
  | ret a => rfl
  | throw e => rfl
  | get k ih => exact ih m fs m s w
  | set m' k ih => exact ih fs m' s w
  | call op k ih =>
    cases fs with
    | nil => rfl
    | cons f fs => exact ih _ fs m _ _

/-- **Runs meet what the observer is promised**, computed on the watched device. -/
theorem exec_of_wp_watch {p : Program I μ ε α} {post : Post μ (σ × ω) ε α} {m : μ} {s : σ}
    {w : ω} (h : p.wp (D.watch see) post m (s, w)) (fs : List F) :
    (p.exec D fs m s).Meets ⟨fun a m' s' => post.done a m' (s', p.seen D see fs m s w),
      fun e m' s' => post.failed e m' (s', p.seen D see fs m s w),
      fun s' => post.crashed (s', p.seen D see fs m s w)⟩ := by
  rw [← exec_watch see p fs m s w]
  exact exec_of_wp h fs

end Watch

/-! ### Invariants of programs -/

/-- A program keeps `P`, however it returns or throws, and crashes only where `K` holds. -/
def Preserves (D : Device I σ F) (P : μ → σ → Prop) (K : σ → Prop) (p : Program I μ ε α) : Prop :=
  ∀ m s, P m s → p.wp D ⟨fun _ m s => P m s, fun _ m s => P m s, K⟩ m s

variable {P : μ → σ → Prop} {K : σ → Prop}

theorem preserves_ret (a : α) : Preserves D P K (ret a : Program I μ ε α) := fun _ _ h => h

theorem preserves_throw (e : ε) : Preserves D P K (throw e : Program I μ ε α) := fun _ _ h => h

theorem Preserves.bind {p : Program I μ ε α} {k : α → Program I μ ε β} (hp : Preserves D P K p)
    (hk : ∀ a, Preserves D P K (k a)) : Preserves D P K (p.bind k) :=
  fun m s h => wp_seq (hp m s h) fun a m s h => hk a m s h

theorem preserves_load {k : μ → Program I μ ε α} (hk : ∀ m, Preserves D P K (k m)) :
    Preserves D P K (load.bind k) := fun m s h => hk m m s h

/-- What is said of the device alone does not depend on the memory. -/
theorem preserves_store {S : σ → Prop} (m : μ) :
    Preserves D (fun _ s => S s) K (store m : Program I μ ε Unit) := fun _ _ h => h

theorem preserves_ite {c : Prop} [Decidable c] {p q : Program I μ ε α} (hp : Preserves D P K p)
    (hq : Preserves D P K q) : Preserves D P K (if c then p else q) := by
  split
  · exact hp
  · exact hq

theorem preserves_each {γ : Type} {body : γ → Program I μ ε β}
    (hbody : ∀ x, Preserves D P K (body x)) (xs : List γ) : Preserves D P K (each body xs) :=
  fun _ _ h => wp_each (fun _ _ m s => P m s) (fun x _ _ m s hi => hbody x m s hi) xs [] h
    fun _ _ _ hc => hc

end Program

end Machine

end Obsy
