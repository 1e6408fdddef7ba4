import Obsy.Catalog.Agreement
import Obsy.Machine.Rely

/-!
# The catalog in memory

A process keeps the catalog that it read or committed last.  Its commits wait for each other; a load
that finds no catalog in memory reads the store, next to them, and stores what it has read.

* `memoryMachine`: the loads and commits of one process.
* `Undisturbed`: a turn in which no load stores a catalog that it began to read before a commit.
* `NoOlder`, `LoadsContain`: the catalog in memory does not go back, and a load that begins after an
  acknowledgement has its commit.
* `Marks`: the highest generation that was in memory, and when memory was empty last.
* `memoryPact`: what loads and commits may rely on and promise; `quiet_heeds`: the programs that
  leave memory alone keep it.
-/

namespace Obsy

namespace Catalog

open Machine Machine.Program

open Shared (Grown)

variable (digests : Digests) (process : ProcessId)

/-! ### Runs -/

def CatalogTask.commits : CatalogTask → Bool
  | .commit _ _ _ => true
  | _ => false

def CatalogTask.Of (process : ProcessId) : CatalogTask → Prop
  | .load caller => caller = process
  | .commit caller _ _ => caller = process
  | .claim _ _ => False

/-- A call of the process; a commit has the lock. -/
def mayBegin (c : CatalogCrew) : Turn CatalogTask RequestFate → Bool
  | .start (.load caller) => caller == process
  | .start (.commit caller _ _) => caller == process && !c.tasks.any (·.kind.commits)
  | .start (.claim _ _) => false
  | .move _ _ => true
  | .kill _ => true

/-- The loads and commits of one process, interleaved. -/
def memoryMachine : Machine CatalogCrew (Turn CatalogTask RequestFate) where
  step c turn := if mayBegin process c turn then (catalogMachine digests).step c turn else none

/-- A process that has just started, on a store that any processes have left. -/
def Started (s : Shared) : Prop :=
  ∃ (legacy : LegacyManifest → Bool) (turns : List (Turn CatalogTask RequestFate))
      (c : CatalogCrew) (held : ℕ),
    (catalogMachine digests).run (Contract.Crew.idle (Shared.empty legacy)) turns = some c ∧
      s = c.shared.withProcess process fun _ => ⟨none, held⟩

/-- An operation that stores a catalog in the memory of the process. -/
def CatalogOp.stores : CatalogOp → Bool
  | .setCached caller (some _) => caller == process
  | _ => false

/-- A load that is about to store the catalog it read began after the last commit was created. -/
def Undisturbed (c : CatalogCrew) : Turn CatalogTask RequestFate → Prop
  | .move i _ => ∀ t ∈ c.tasks[i]?, t.kind.commits = false →
      t.rest.next.any (·.stores process) = true → c.shared.chain.length = t.began.chain.length
  | _ => True

instance (c : CatalogCrew) : DecidablePred (Undisturbed process c)
  | .move i _ => inferInstanceAs (Decidable (∀ t ∈ c.tasks[i]?, t.kind.commits = false →
      t.rest.next.any (·.stores process) = true → c.shared.chain.length = t.began.chain.length))
  | .start _ => isTrue trivial
  | .kill _ => isTrue trivial

/-- The catalog in memory at the second point is not older than that at the first. -/
def NoOlder (c c' : CatalogCrew) : Prop :=
  ∀ state state', (c.shared.processes process).cached = some state →
    (c'.shared.processes process).cached = some state' → state.generation ≤ state'.generation

/-- A load that began after an acknowledgement gives a catalog with its commit. -/
def LoadsContain (c : CatalogCrew) : Prop :=
  ∀ i r, c.reports[i]? = some r → ∀ k, r.result = .ok (.committed k) →
    ∀ r' ∈ c.reports, i < r'.since → ∀ state fromStore, r'.result = .ok (.loaded state fromStore) →
    ∃ commits, commits <+: c.shared.chain ∧ replayChain commits = .ok state ∧
      k.state.generation ≤ state.generation ∧ (k.ack ≠ .unchanged →
        ∃ commit, commits[k.state.generation - 1]? = some commit ∧
          commit.mutation.transactionId = k.mutation.transactionId ∧
          (k.ack = .produced → commit.mutation = k.mutation))

/-! ### What a process has known -/

/-- The highest generation that a process has had in memory, and how many commits there were when it
last had none. -/
structure Marks where
  highest : ℕ
  emptied : ℕ

def Marks.observe (g : Marks) (s : Shared) : Marks :=
  match (s.processes process).cached with
  | some state => { g with highest := max g.highest state.generation }
  | none => { g with emptied := s.chain.length }

/-- The store and the processes, with the marks of one of them. -/
abbrev Marked := Shared × Marks

def markedDevice : Device catalogInterface Marked RequestFate :=
  catalogDevice.ghost (Marks.observe process)

/-- The catalog in memory is the highest that was there, and the newest of all unless a commit was
created since memory was empty. -/
structure Marks.Fit (s : Shared) (g : Marks) : Prop where
  highest_le : g.highest ≤ s.chain.length
  emptied_le : g.emptied ≤ s.chain.length
  held : ∀ state, (s.processes process).cached = some state → state.generation = g.highest ∧
    (g.emptied = s.chain.length → state.generation = s.chain.length)
  empty : (s.processes process).cached = none → g.emptied = s.chain.length

/-- Commits may have been created. -/
structure Marks.Grows (x y : Marked) : Prop where
  chain : x.1.Grown y.1
  deleted : y.1.store.deleted = x.1.store.deleted
  highest : x.2.highest ≤ y.2.highest
  emptied : x.2.emptied ≤ y.2.emptied

/-- No commit was created, and memory was not emptied; where a commit was created since memory was
empty, it has kept its catalog. -/
structure Marks.Still (x y : Marked) : Prop where
  chain : y.1.chain = x.1.chain
  deleted : y.1.store.deleted = x.1.store.deleted
  highest : x.2.highest ≤ y.2.highest
  emptied : x.2.emptied ≤ y.2.emptied
  held : ∀ state, (x.1.processes process).cached = some state →
    (y.1.processes process).cached.isSome ∧ y.2.emptied = x.2.emptied ∧
      (x.2.emptied < x.1.chain.length → (y.1.processes process).cached = some state)

variable {digests process}

namespace Marks

theorem Grows.trans {x y z : Marked} (h : Grows x y) (h' : Grows y z) : Grows x z :=
  ⟨h.chain.trans h'.chain, h'.deleted.trans h.deleted, h.highest.trans h'.highest,
    h.emptied.trans h'.emptied⟩

theorem Still.refl (x : Marked) : Still process x x :=
  ⟨rfl, rfl, le_rfl, le_rfl, fun _ h => ⟨by rw [h]; rfl, rfl, fun _ => h⟩⟩

theorem Still.trans {x y z : Marked} (h : Still process x y) (h' : Still process y z) :
    Still process x z where
  chain := h'.chain.trans h.chain
  deleted := h'.deleted.trans h.deleted
  highest := h.highest.trans h'.highest
  emptied := h.emptied.trans h'.emptied
  held state hstate := by
    obtain ⟨hsome, hemptied, hkept⟩ := h.held state hstate
    obtain ⟨middle, hmiddle⟩ := Option.isSome_iff_exists.1 hsome
    obtain ⟨hsome', hemptied', hkept'⟩ := h'.held middle hmiddle
    refine ⟨hsome', hemptied'.trans hemptied, fun hlt => ?_⟩
    rw [hkept' (by rw [hemptied, h.chain]; exact hlt), ← hmiddle, hkept hlt]

theorem Still.grows {x y : Marked} (h : Still process x y) : Grows x y :=
  ⟨by rw [Grown, h.chain], h.deleted, h.highest, h.emptied⟩

/-- What the marks are after a change that leaves the memory of the process as it was. -/
theorem Fit.same {s t : Shared} {g : Marks} (h : g.Fit process s) (hchain : t.chain = s.chain)
    (hdeleted : t.store.deleted = s.store.deleted)
    (hcached : (t.processes process).cached = (s.processes process).cached) :
    (g.observe process t).Fit process t ∧ Still process (s, g) (t, g.observe process t) := by
  have hsame : g.observe process t = g := by
    rw [observe, hcached]
    cases hmemory : (s.processes process).cached with
    | none => exact congrArg (Marks.mk g.highest) ((congrArg _ hchain).trans (h.empty hmemory).symm)
    | some state => exact congrArg (Marks.mk · g.emptied) (max_eq_left (h.held state hmemory).1.le)
  rw [hsame]
  refine ⟨⟨hchain ▸ h.highest_le, hchain ▸ h.emptied_le, ?_, ?_⟩, hchain, hdeleted, le_rfl,
    le_rfl, ?_⟩
  · rw [hcached, hchain]
    exact h.held
  · rw [hcached, hchain]
    exact h.empty
  · intro state hstate
    dsimp only at hstate
    dsimp only
    rw [hcached, hstate]
    exact ⟨rfl, rfl, fun _ => rfl⟩

theorem Fit.grow {s t : Shared} {g : Marks} (h : g.Fit process s) (hgrown : s.Grown t)
    (hlt : s.chain.length < t.chain.length) (hdeleted : t.store.deleted = s.store.deleted)
    (hcached : (t.processes process).cached = (s.processes process).cached) :
    (g.observe process t).Fit process t ∧ Grows (s, g) (t, g.observe process t) := by
  have hle := h.highest_le
  have hemptied := h.emptied_le
  rw [observe, hcached]
  cases hmemory : (s.processes process).cached with
  | none =>
    refine ⟨⟨hle.trans hlt.le, le_rfl, fun state hstate => ?_, fun _ => rfl⟩, hgrown, hdeleted,
      le_rfl, hemptied.trans hlt.le⟩
    rw [hcached, hmemory] at hstate
    cases hstate
  | some state =>
    have hgeneration := (h.held state hmemory).1
    have hmax : max g.highest state.generation = g.highest := max_eq_left hgeneration.le
    dsimp only
    rw [hmax]
    refine ⟨⟨hle.trans hlt.le, hemptied.trans hlt.le, fun state' hstate' => ?_, fun hnone => ?_⟩,
      hgrown, hdeleted, le_rfl, le_rfl⟩
    · rw [hcached, hmemory] at hstate'
      obtain rfl := Option.some.inj hstate'
      exact ⟨hgeneration, fun heq => absurd heq (Nat.ne_of_lt (hemptied.trans_lt hlt))⟩
    · rw [hcached, hmemory] at hnone
      cases hnone

/-- The newest catalog of all in memory. -/
theorem Fit.hold {s t : Shared} {g : Marks} (h : g.Fit process s) (hchain : t.chain = s.chain)
    (hdeleted : t.store.deleted = s.store.deleted) {state : CatalogState}
    (hstate : (t.processes process).cached = some state)
    (hnewest : state.generation = s.chain.length) :
    (g.observe process t).Fit process t ∧ Grows (s, g) (t, g.observe process t) ∧
      state.generation ≤ (g.observe process t).highest ∧
      (((s.processes process).cached = none ∨ g.emptied = s.chain.length) →
        Still process (s, g) (t, g.observe process t)) := by
  have hmax : max g.highest state.generation = state.generation :=
    max_eq_right (hnewest ▸ h.highest_le)
  rw [observe, hstate]
  dsimp only
  rw [hmax]
  have hhighest : g.highest ≤ state.generation := hnewest ▸ h.highest_le
  refine ⟨⟨?_, hchain ▸ h.emptied_le, fun state' hstate' => ?_, fun hnone => ?_⟩,
    ⟨by rw [Grown, hchain], hdeleted, hhighest, le_rfl⟩, le_rfl,
    fun hfresh => ⟨hchain, hdeleted, hhighest, le_rfl, fun old hold => ?_⟩⟩
  · rw [hchain]
    exact hnewest.le
  · rw [hstate] at hstate'
    obtain rfl := Option.some.inj hstate'
    exact ⟨rfl, fun _ => hnewest.trans (congrArg _ hchain.symm)⟩
  · rw [hstate] at hnone
    cases hnone
  · refine ⟨by rw [hstate]; rfl, rfl, fun hlt => ?_⟩
    rcases hfresh with hnone | hemptied
    · rw [hnone] at hold
      cases hold
    · exact absurd hemptied (Nat.ne_of_lt hlt)

/-- Memory is emptied. -/
theorem Fit.drop {s t : Shared} {g : Marks} (h : g.Fit process s) (hchain : t.chain = s.chain)
    (hdeleted : t.store.deleted = s.store.deleted)
    (hcached : (t.processes process).cached = none) :
    (g.observe process t).Fit process t ∧ Grows (s, g) (t, g.observe process t) := by
  rw [observe, hcached]
  refine ⟨⟨?_, le_rfl, fun state hstate => ?_, fun _ => rfl⟩, by rw [Grown, hchain],
    hdeleted, le_rfl, ?_⟩
  · rw [hchain]
    exact h.highest_le
  · rw [hcached] at hstate
    cases hstate
  · dsimp only
    rw [hchain]
    exact h.emptied_le

end Marks

/-! ### The pact -/

/-- A task that creates no commit and deletes nothing. -/
def Footprint.idle : Footprint where
  adds _ _ := False
  deletes _ _ := False
  carries _ := False
  disjoint _ _ h := h.elim

theorem Footprint.idle_clear (s : Shared) : Footprint.idle.Clear s where
  spared _ _ := id
  settled h := (by obtain ⟨_, _, h⟩ := h; cases h)

theorem Footprint.idle_asks (s : Shared) (op : CatalogOp) : Footprint.idle.Asks s op :=
  fun _ _ _ _ _ _ _ _ _ h => (by cases h)

theorem Footprint.free_clear {s : Shared} (hs : s.store.deleted = []) : Footprint.free.Clear s where
  spared x hx := (by rw [hs] at hx; cases hx)
  settled h := (by obtain ⟨_, _, h⟩ := h; cases h)

/-- An idle task creates no commit. -/
theorem Footprint.chain_of_idle {s t : Shared} (h : Footprint.idle.Change s t) :
    t.chain = s.chain := by
  obtain ⟨more, hmore, howns⟩ := h.chain
  cases more with
  | nil => rw [hmore, List.append_nil]
  | cons commit more => exact (howns commit List.mem_cons_self).carries.elim

theorem deleted_of_change {f : Footprint} (hf : ∀ signal id, ¬ f.deletes signal id) {s t : Shared}
    (hs : s.store.deleted = []) (h : f.Change s t) : t.store.deleted = [] := by
  refine List.eq_nil_iff_forall_not_mem.2 fun x hx => ?_
  rcases h.own x hx with hx | hx
  · rw [hs] at hx
    cases hx
  · exact hf _ _ hx

variable (process) in
/-- How the others change a process while a task runs that is a commit or is none. -/
def Marks.others : Bool → Marked → Marked → Prop
  | true => Marks.Still process
  | false => Marks.Grows

variable (process) in
/-- What a result says of the highest generation when its task began and now. -/
def Marks.post (x : Marked) : Except CatalogError CatalogResult → Marked → Prop
  | .ok (.loaded state _), _ => x.2.highest ≤ state.generation
  | .ok (.committed c), y => c.state.generation ≤ y.2.highest
  | .error _, _ => True

theorem Marks.others_grows {commits : Bool} {x y : Marked} (h : Marks.others process commits x y) :
    Marks.Grows x y := by
  cases commits with
  | true => exact Marks.Still.grows h
  | false => exact h

theorem Marks.others_of_still {x y : Marked} (h : Marks.Still process x y) (commits : Bool) :
    Marks.others process commits x y := by
  cases commits with
  | true => exact h
  | false => exact h.grows

theorem Marks.post_grows {x y z : Marked} {r : Except CatalogError CatalogResult}
    (h : Marks.post x r y) (hyz : Marks.Grows y z) : Marks.post x r z :=
  match r, h with
  | .ok (.loaded _ _), h => h
  | .ok (.committed _), h => h.trans hyz.highest
  | .error _, _ => trivial

variable (process) in
/-- What the loads and the commits of a process rely on and promise.  A load stores a catalog only
if no commit was created since it began. -/
def memoryPact : Pact catalogInterface Marked (CatalogTask × ℕ) CatalogError CatalogResult where
  inv x := (x.1.Coherent ∧ x.1.store.deleted = []) ∧ x.2.Fit process x.1
  others k := Marks.others process k.1.commits
  change k := Marks.others process !k.1.commits
  begins k x := k.1.Of process ∧ x.1.chain.length = k.2
  asks k x op := k.1.commits = false → ∀ state, op = .setCached process (some state) →
    x.1.chain.length = k.2
  fits k k' := ¬ (k.1.commits = true ∧ k'.1.commits = true)
  post _ := Marks.post
  refl k x := Marks.others_of_still (Marks.Still.refl x) _
  trans {k x y z} h h' := by
    cases hk : k.1.commits with
    | true =>
      rw [hk] at h h'
      exact Marks.Still.trans h h'
    | false =>
      rw [hk] at h h'
      exact Marks.Grows.trans h h'
  other {k k' x y} hfits h := by
    cases hk : k.1.commits with
    | true =>
      rw [hk] at h
      rw [Bool.eq_false_of_not_eq_true fun hk' => hfits ⟨hk, hk'⟩]
      exact h
    | false =>
      rw [hk] at h
      exact Marks.others_of_still h _
  stable hpost h := Marks.post_grows hpost (Marks.others_grows h)
  steady hpost h := Marks.post_grows hpost (Marks.others_grows h)

variable {k : CatalogTask × ℕ} {x y : Marked}

/-- An operation that stores no catalog in memory. -/
def CatalogOp.Quiet : CatalogOp → Prop
  | .setCached _ _ => False
  | _ => True

theorem cached_effect {s : Shared} {op : CatalogOp} (h : op.Quiet) :
    ((s.effect op).processes process).cached = (s.processes process).cached := by
  cases op with
  | createCommit replica generation commit =>
    rw [Shared.effect]
    split <;> rfl
  | createSnapshot replica generation snapshot =>
    rw [Shared.effect]
    split <;> rfl
  | setCached p state => exact h.elim
  | setEpoch p epoch =>
    by_cases hp : process = p
    · rw [hp, Shared.effect, Shared.withProcess]
      dsimp only
      rw [Function.update_self]
    · rw [Shared.effect, Shared.withProcess]
      dsimp only
      rw [Function.update_of_ne hp]
  | _ => rfl

/-- What becomes of a request, with the marks. -/
theorem markedDevice_cases (fate : RequestFate) (x : Marked) (op : CatalogOp) :
    (markedDevice process).apply fate x op = (.error .io, x.1, x.2.observe process x.1) ∨
      (markedDevice process).apply fate x op =
        (.error .io, x.1.effect op, x.2.observe process (x.1.effect op)) ∨
      (markedDevice process).apply fate x op =
        (.ok (x.1.answer op), x.1.effect op, x.2.observe process (x.1.effect op)) := by
  rw [markedDevice, Device.ghost]
  dsimp only [catalogDevice]
  split
  · cases fate.applied with
    | true => exact .inr (.inl rfl)
    | false => exact .inl rfl
  · exact .inr (.inr rfl)

/-- An operation of an idle task, whatever becomes of it. -/
theorem quiet_apply {op : CatalogOp} (hop : op.Quiet) {fate : RequestFate}
    (hx : (memoryPact process).inv x)
    (hnext : ((markedDevice process).apply fate x op).2.1.Coherent)
    (hchange : Footprint.idle.Change x.1 ((markedDevice process).apply fate x op).2.1) :
    (memoryPact process).inv ((markedDevice process).apply fate x op).2 ∧
      Marks.Still process x ((markedDevice process).apply fate x op).2 := by
  have hdeleted := deleted_of_change (fun _ _ => id) hx.1.2 hchange
  have hchain := Footprint.chain_of_idle hchange
  have hkept : ∀ t, ((markedDevice process).apply fate x op).2 = (t, x.2.observe process t) →
      (t.processes process).cached = (x.1.processes process).cached →
      (memoryPact process).inv ((markedDevice process).apply fate x op).2 ∧
        Marks.Still process x ((markedDevice process).apply fate x op).2 := by
    intro t ht hcached
    rw [ht] at hnext hdeleted hchain ⊢
    obtain ⟨hfit, hstill⟩ := hx.2.same hchain (hdeleted.trans hx.1.2.symm) hcached
    exact ⟨⟨⟨hnext, hdeleted⟩, hfit⟩, hstill⟩
  rcases markedDevice_cases fate x op with h | h | h
  · exact hkept _ (congrArg Prod.snd h) rfl
  · exact hkept _ (congrArg Prod.snd h) (cached_effect hop)
  · exact hkept _ (congrArg Prod.snd h) (cached_effect hop)

/-- A program that touches neither memory nor the chain of commits. -/
theorem quiet_heeds {α : Type} {p : CatalogProgram α} (hp : p.Only CatalogOp.Quiet)
    {P : α → Shared → Prop} (h : safe Footprint.idle p P x.1) :
    p.heeds (markedDevice process) (memoryPact process) k
      (fun r y => (memoryPact process).others k x y ∧ Ends P r y.1) x := by
  refine heeds_of_guarded catalogDevice keeping Footprint.idle Prod.fst (fun _ _ _ => ⟨rfl, rfl⟩)
    (fun t (ht : (memoryPact process).inv t) => ht.1.1) (fun s t hst => ?_)
    (fun t op => Footprint.idle_asks t.1 op) (fun t op fate hop ht hnext hchange => ?_) hp
    (h (Footprint.idle_clear x.1)) ((memoryPact process).refl k x)
  · have hgrows := Marks.others_grows hst
    obtain ⟨more, hmore⟩ := hgrows.chain
    have hbears : ∀ m, Footprint.idle.Bears m := fun m =>
      ⟨fun _ _ h => h.elim, fun h => (by obtain ⟨_, _, h⟩ := h; cases h)⟩
    exact ⟨⟨more, hmore.symm, fun commit _ => hbears commit.mutation⟩,
      hgrows.deleted.symm ▸ List.Subset.refl _, fun _ _ => .inr id⟩
  · obtain ⟨hinv, hstill⟩ := quiet_apply hop ht hnext hchange
    exact ⟨hinv, Marks.others_of_still hstill _, Marks.others_of_still hstill _⟩

end Catalog

end Obsy
