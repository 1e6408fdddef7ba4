import Obsy.Catalog.Journal
import Obsy.Machine.Interleave
import Mathlib.Data.List.Infix

/-!
# Coherent catalogs

The replicas `a` of the commits are the chain.  Whatever the tasks do, the chain applies from the
empty catalog, every replica `b` repeats a commit of the chain, every catalog that a snapshot holds
or a process remembers is what some first commits of the chain make, and no file of a part was
deleted that the catalog lists since.

* `Shared.Coherent`: this invariant.
* `Footprint`: the parts a task adds and those whose files it deletes, `Footprint.Later` and
  `Footprint.Change`: what it relies on and what it may do.
* `Shared.Allowed`: the operations that keep the invariant; `Coherent.effect`: they do.
* `safe`: a program that asks only for such operations, whatever other programs do in between,
  with the rules to show it.
-/

namespace Obsy

namespace Catalog

open Machine Machine.Program

/-! ### Chains -/

theorem replayChain_concat (chain : List CatalogCommit) (commit : CatalogCommit) :
    replayChain (chain ++ [commit]) =
      replayChain chain >>= fun state => applyCatalogMutation state commit := by
  unfold replayChain
  rw [List.foldlM_append]
  simp only [List.foldlM_cons, List.foldlM_nil, bind_pure]

/-- A chain leads to the generation that is its length. -/
theorem replayChain_generation {chain : List CatalogCommit} {state : CatalogState}
    (h : replayChain chain = .ok state) : state.generation = chain.length := by
  induction chain using List.reverseRecOn generalizing state with
  | nil => cases h; rfl
  | append_singleton chain commit ih =>
    rw [replayChain_concat] at h
    obtain ⟨before, hbefore, happly⟩ := bind_eq_ok.1 h
    rw [(applied_of_apply happly).succ_eq, ih hbefore, List.length_append, List.length_singleton]

/-- Where a chain applies, its first commits do. -/
theorem replayChain_take {chain : List CatalogCommit} {state : CatalogState}
    (h : replayChain chain = .ok state) (n : ℕ) : ∃ state, replayChain (chain.take n) = .ok state := by
  induction chain using List.reverseRecOn generalizing state with
  | nil => exact ⟨_, by rw [List.take_nil]; exact h⟩
  | append_singleton chain commit ih =>
    have hall := h
    rw [replayChain_concat] at h
    obtain ⟨before, hbefore, -⟩ := bind_eq_ok.1 h
    rcases Nat.lt_or_ge chain.length n with hn | hn
    · refine ⟨state, ?_⟩
      rw [List.take_of_length_le (by rw [List.length_append, List.length_singleton]; omega)]
      exact hall
    · rw [List.take_append_of_le_length hn]
      exact ih hbefore

/-- The state is the one its last commit makes. -/
theorem replayChain_last {chain : List CatalogCommit} {commit : CatalogCommit}
    {state : CatalogState} (h : replayChain (chain ++ [commit]) = .ok state) :
    ∃ before, replayChain chain = .ok before ∧ Applied before commit state := by
  rw [replayChain_concat] at h
  obtain ⟨before, hbefore, happly⟩ := bind_eq_ok.1 h
  exact ⟨before, hbefore, applied_of_apply happly⟩

/-- A part that no later commit adds stays away. -/
theorem unlisted_of_append {chain more : List CatalogCommit} {state last : CatalogState}
    {signal : Signal} {id : String} (hstate : replayChain chain = .ok state)
    (hlast : replayChain (chain ++ more) = .ok last) (hunlisted : ¬ state.Lists signal id)
    (hmore : ∀ commit ∈ more, ¬ commit.mutation.Adds signal id) : ¬ last.Lists signal id := by
  induction more using List.reverseRecOn generalizing last with
  | nil =>
    rw [List.append_nil, hstate] at hlast
    cases hlast
    exact hunlisted
  | append_singleton more commit ih =>
    rw [← List.append_assoc] at hlast
    obtain ⟨before, hbefore, happlied⟩ := replayChain_last hlast
    have hnot := ih hbefore fun c hc => hmore c (List.mem_append_left _ hc)
    rw [happlied.lists_iff]
    rintro (⟨hlists, -⟩ | hadds)
    · exact hnot hlists
    · exact hmore commit (List.mem_append_right _ (List.mem_singleton.2 rfl)) hadds

/-- **Epochs never go back**: along a chain, and up to the state it leads to. -/
theorem replayChain_epochs {chain : List CatalogCommit} {state : CatalogState}
    (h : replayChain chain = .ok state) :
    (chain.map (·.mutation.writerEpoch)).Pairwise (· ≤ ·) ∧
      ∀ commit ∈ chain, commit.mutation.writerEpoch ≤ state.writerEpoch := by
  induction chain using List.reverseRecOn generalizing state with
  | nil => exact ⟨List.Pairwise.nil, fun _ h => (by cases h)⟩
  | append_singleton chain commit ih =>
    obtain ⟨before, hbefore, happlied⟩ := replayChain_last h
    obtain ⟨hpairwise, hle⟩ := ih hbefore
    have hgrow : before.writerEpoch ≤ state.writerEpoch := by
      rw [happlied.epoch_eq]
      split_ifs
      · exact Nat.le_succ _
      · exact Nat.le_refl _
    constructor
    · rw [List.map_append, List.pairwise_append]
      refine ⟨hpairwise, List.pairwise_singleton _ _, fun e he e' he' => ?_⟩
      obtain ⟨old, hold, rfl⟩ := List.mem_map.1 he
      rw [List.map_singleton, List.mem_singleton] at he'
      rw [he', ← happlied.writerEpoch]
      exact (hle old hold).trans hgrow
    · intro c hc
      rcases List.mem_append.1 hc with hc | hc
      · exact (hle c hc).trans hgrow
      · rw [List.mem_singleton.1 hc, happlied.writerEpoch]

/-! ### Shelves -/

namespace Shelf

variable {α : Type} {shelf : Shelf α} {generation : ℕ} {object : α}

theorem mem_of_find (h : shelf.find generation = some object) : (generation, object) ∈ shelf := by
  obtain ⟨⟨g, o⟩, hfind, rfl⟩ := Option.map_eq_some_iff.1 h
  have hg : decide (g = generation) = true :=
    List.find?_some (p := fun x : ℕ × α => decide (x.1 = generation)) hfind
  obtain rfl := of_decide_eq_true hg
  exact List.mem_of_find?_eq_some hfind

theorem isSome_find_of_mem (h : (generation, object) ∈ shelf) :
    (shelf.find generation).isSome = true := by
  unfold find
  rw [Option.isSome_map, List.find?_isSome]
  exact ⟨_, h, decide_eq_true rfl⟩

end Shelf

namespace Shared

/-! ### Coherence -/

/-- The commits, in order. -/
def chain (s : Shared) : List CatalogCommit := (s.store.commits .a).map (·.2)

def Stands (s : Shared) (generation : ℕ) (commit : CatalogCommit) : Prop :=
  ∃ i, generation = i + 1 ∧ s.chain[i]? = some commit

/-- What the first commits of the chain make. -/
def Seen (s : Shared) (state : CatalogState) : Prop :=
  state.generation ≤ s.chain.length ∧ replayChain (s.chain.take state.generation) = .ok state

/-- A mutation was decided on this generation: the catalog listed what it replaces. -/
def Found (s : Shared) (mutation : CatalogMutation) (generation : ℕ) : Prop :=
  ∃ state, s.Seen state ∧ state.generation = generation ∧ ∀ signal, mutation.Replaces signal →
    ∀ id ∈ mutation.removed signal, state.Lists signal id

/-- The commits that were there are still there. -/
def Grown (s t : Shared) : Prop := s.chain <+: t.chain

/-- The invariant of the catalog. -/
structure Coherent (s : Shared) : Prop where
  numbered : (s.store.commits .a).generations = List.range' 1 s.chain.length
  replays : ∃ state, replayChain s.chain = .ok state
  repaired : ∀ x ∈ s.store.commits .b, x ∈ s.store.commits .a
  snapshots : ∀ replica, ∀ x ∈ s.store.snapshots replica, s.Seen x.2.state
  cached : ∀ process state, (s.processes process).cached = some state → s.Seen state
  retired : ∀ x ∈ s.store.deleted, x.2 ≤ s.chain.length ∧ ∀ state, s.Seen state →
    x.2 ≤ state.generation → ¬ state.Lists x.1.signal x.1.part.id
  decided : ∀ x ∈ s.decided, s.Found x.1 x.2

variable {s t u : Shared}

theorem Grown.trans (h : s.Grown t) (h' : t.Grown u) : s.Grown u := List.IsPrefix.trans h h'

theorem Grown.length_le (h : s.Grown t) : s.chain.length ≤ t.chain.length :=
  List.IsPrefix.length_le h

theorem Stands.grown {generation : ℕ} {commit : CatalogCommit} (h : s.Stands generation commit)
    (hst : s.Grown t) : t.Stands generation commit := by
  obtain ⟨i, rfl, hi⟩ := h
  obtain ⟨hlt, -⟩ := List.getElem?_eq_some_iff.1 hi
  refine ⟨i, rfl, ?_⟩
  rw [← hi]
  exact (List.prefix_iff_getElem?.1 hst i hlt).trans (List.getElem?_eq_getElem hlt).symm

theorem Seen.grown {state : CatalogState} (h : s.Seen state) (hst : s.Grown t) : t.Seen state := by
  refine ⟨h.1.trans hst.length_le, ?_⟩
  obtain ⟨later, hlater⟩ := hst
  rw [← hlater, List.take_append_of_le_length h.1]
  exact h.2

theorem Found.grown {mutation : CatalogMutation} {generation : ℕ} (h : s.Found mutation generation)
    (hst : s.Grown t) : t.Found mutation generation := by
  obtain ⟨state, hseen, hfound⟩ := h
  exact ⟨state, hseen.grown hst, hfound⟩

theorem seen_default (s : Shared) : s.Seen CatalogState.default :=
  ⟨Nat.zero_le _, by rw [show CatalogState.default.generation = 0 from rfl, List.take_zero]; rfl⟩

/-- The next commit of the chain leads to the next state. -/
theorem Seen.next {state next : CatalogState} {generation : ℕ} {commit : CatalogCommit}
    (h : s.Seen state) (hstands : s.Stands generation commit)
    (happly : applyCatalogMutation state commit = .ok next)
    (hgeneration : generation = state.generation + 1) : s.Seen next := by
  obtain ⟨i, rfl, hi⟩ := hstands
  obtain rfl : i = state.generation := Nat.succ.inj hgeneration
  obtain ⟨hlt, -⟩ := List.getElem?_eq_some_iff.1 hi
  have hsucc := (applied_of_apply happly).succ_eq
  refine ⟨hsucc ▸ hlt, ?_⟩
  rw [hsucc, List.take_add_one, hi, Option.toList_some, replayChain_concat]
  exact bind_eq_ok.2 ⟨state, h.2, happly⟩

/-- The commit that a state ends with. -/
theorem Seen.last {state : CatalogState} (h : s.Seen state) (hpos : 0 < state.generation) :
    ∃ commit before, s.Stands state.generation commit ∧ Applied before commit state := by
  obtain ⟨n, hn⟩ : ∃ n, state.generation = n + 1 := ⟨_, (Nat.succ_pred_eq_of_pos hpos).symm⟩
  have hlt : n < s.chain.length := Nat.lt_of_succ_le (hn.symm.le.trans h.1)
  have hreplay := h.2
  rw [hn, List.take_add_one, List.getElem?_eq_getElem hlt, Option.toList_some] at hreplay
  obtain ⟨before, -, happlied⟩ := replayChain_last hreplay
  exact ⟨s.chain[n], before, ⟨n, hn, List.getElem?_eq_getElem hlt⟩, happlied⟩

theorem Stands.unique {generation : ℕ} {commit commit' : CatalogCommit}
    (h : s.Stands generation commit) (h' : s.Stands generation commit') : commit = commit' := by
  obtain ⟨i, rfl, hi⟩ := h
  obtain ⟨j, hj, hj'⟩ := h'
  obtain rfl := Nat.succ.inj hj
  exact Option.some.inj (hi.symm.trans hj')

/-- The first replica of a commit is its place in the chain. -/
theorem Coherent.mem_iff (h : s.Coherent) {generation : ℕ} {commit : CatalogCommit} :
    (generation, commit) ∈ s.store.commits .a ↔ s.Stands generation commit := by
  have hnumber : ∀ i x, (s.store.commits .a)[i]? = some x → x.1 = i + 1 := fun i x hi => by
    have hg : (s.store.commits .a).generations[i]? = some x.1 := by
      rw [Shelf.generations, List.getElem?_map, hi]
      rfl
    obtain ⟨hlt, -⟩ := List.getElem?_eq_some_iff.1 hg
    rw [h.numbered, List.length_range'] at hlt
    rw [h.numbered, List.getElem?_range' hlt] at hg
    have := Option.some.inj hg
    omega
  constructor
  · intro hmem
    obtain ⟨i, hi⟩ := List.mem_iff_getElem?.1 hmem
    refine ⟨i, hnumber i _ hi, ?_⟩
    rw [chain, List.getElem?_map, hi]
    rfl
  · rintro ⟨i, rfl, hi⟩
    rw [chain, List.getElem?_map] at hi
    obtain ⟨⟨g, c⟩, hget, rfl⟩ := Option.map_eq_some_iff.1 hi
    obtain rfl : g = i + 1 := hnumber i _ hget
    exact List.mem_of_getElem? hget

theorem Coherent.stands_of_find (h : s.Coherent) {replica : Replica} {generation : ℕ}
    {commit : CatalogCommit} (hfind : (s.store.commits replica).find generation = some commit) :
    s.Stands generation commit := by
  cases replica with
  | a => exact h.mem_iff.1 (Shelf.mem_of_find hfind)
  | b => exact h.mem_iff.1 (h.repaired _ (Shelf.mem_of_find hfind))

/-- Where no commit of a generation is there, the chain ends before it. -/
theorem Coherent.length_eq (h : s.Coherent) {state : CatalogState} (hseen : s.Seen state)
    (hfree : ((s.store.commits .a).find (state.generation + 1)).isSome = false) :
    s.chain.length = state.generation := by
  refine Nat.le_antisymm ?_ hseen.1
  by_contra hlt
  have hlt : state.generation < s.chain.length := Nat.lt_of_not_le hlt
  have hstands : s.Stands (state.generation + 1) s.chain[state.generation] :=
    ⟨_, rfl, List.getElem?_eq_getElem hlt⟩
  rw [Shelf.isSome_find_of_mem (h.mem_iff.2 hstands)] at hfree
  cases hfree

/-- A commit that was created at the end of a state stands. -/
theorem Coherent.stands_of_created (h : s.Coherent) {state : CatalogState} (hseen : s.Seen state)
    {commit : CatalogCommit}
    (hcreated : s.answer (.createCommit .a (state.generation + 1) commit) = true) :
    (s.effect (.createCommit .a (state.generation + 1) commit)).Stands (state.generation + 1)
        commit ∧
      (s.effect (.createCommit .a (state.generation + 1) commit)).chain.length =
        state.generation + 1 := by
  have hfree : ((s.store.commits .a).find (state.generation + 1)).isSome = false := by
    rw [← Option.not_isNone]
    exact congrArg not hcreated
  have hlength := h.length_eq hseen hfree
  have hchain : (s.effect (.createCommit .a (state.generation + 1) commit)).chain =
      s.chain ++ [commit] := by
    unfold Shared.effect
    dsimp only
    rw [if_neg (by rw [hfree]; exact Bool.false_ne_true)]
    exact List.map_append
  constructor
  · refine ⟨state.generation, rfl, ?_⟩
    rw [hchain, ← hlength, List.getElem?_append_right (Nat.le_refl _), Nat.sub_self]
    rfl
  · rw [hchain, List.length_append, List.length_singleton, hlength]

end Shared

/-! ### Footprints -/

/-- What a task does to the parts. -/
structure Footprint where
  /-- The parts that its commits may add. -/
  adds : Signal → String → Prop
  /-- The parts whose files it may delete. -/
  deletes : Signal → String → Prop
  /-- The transactions that its commits may carry. -/
  carries : String → Prop
  disjoint : ∀ signal id, adds signal id → ¬ deletes signal id

namespace Shared

/-- The new commits of a later chain meet a condition. -/
def Extends (P : CatalogMutation → Prop) (s t : Shared) : Prop :=
  ∃ more, t.chain = s.chain ++ more ∧ ∀ commit ∈ more, P commit.mutation

variable {s t u : Shared} {P Q : CatalogMutation → Prop}

theorem Extends.refl (P : CatalogMutation → Prop) (s : Shared) : Extends P s s :=
  ⟨[], (List.append_nil _).symm, fun _ h => (by cases h)⟩

theorem Extends.trans (h : Extends P s t) (h' : Extends P t u) : Extends P s u := by
  obtain ⟨more, hmore, hP⟩ := h
  obtain ⟨more', hmore', hP'⟩ := h'
  refine ⟨more ++ more', by rw [hmore', hmore, List.append_assoc], fun commit hcommit => ?_⟩
  exact (List.mem_append.1 hcommit).elim (hP commit) (hP' commit)

theorem Extends.mono (h : Extends P s t) (hPQ : ∀ m, P m → Q m) : Extends Q s t :=
  h.imp fun _ hmore => ⟨hmore.1, fun commit hcommit => hPQ _ (hmore.2 commit hcommit)⟩

theorem Extends.grown (h : Extends P s t) : s.Grown t := by
  obtain ⟨more, hmore, -⟩ := h
  exact ⟨more, hmore.symm⟩

end Shared

open Shared (Extends)

namespace Footprint

variable (f : Footprint)

/-- The task deletes the files of some part. -/
def Deletes : Prop := ∃ signal id, f.deletes signal id

/-- A mutation that takes out what the task deletes and brings in what it adds. -/
structure Settles (mutation : CatalogMutation) : Prop where
  removed : ∀ signal id, f.deletes signal id → id ∈ mutation.removed signal
  spared : ∀ signal id, f.deletes signal id → ¬ mutation.Adds signal id
  added : ∀ signal id, f.adds signal id → mutation.Adds signal id

/-- A mutation that the task may commit. -/
structure Owns (mutation : CatalogMutation) : Prop where
  adds : ∀ signal id, mutation.Adds signal id → f.adds signal id
  carries : f.carries mutation.transactionId
  settles : f.Deletes → f.Settles mutation

/-- A catalog that leaves the task nothing to commit. -/
structure Content (state : CatalogState) : Prop where
  added : ∀ signal id, f.adds signal id → state.Lists signal id
  removed : ∀ signal id, f.deletes signal id → ¬ state.Lists signal id

/-- A mutation that others may commit next to the task. -/
structure Bears (mutation : CatalogMutation) : Prop where
  spared : ∀ signal id, f.deletes signal id → ¬ mutation.Adds signal id
  settles : f.Deletes → f.carries mutation.transactionId → f.Settles mutation

/-- What may change while the task runs. -/
structure Later (s t : Shared) : Prop where
  chain : Extends f.Bears s t
  deleted : s.store.deleted ⊆ t.store.deleted
  spared : ∀ x ∈ t.store.deleted, x ∈ s.store.deleted ∨ ¬ f.adds x.1.signal x.1.part.id

/-- What the task may change. -/
structure Change (s t : Shared) : Prop where
  chain : Extends f.Owns s t
  deleted : s.store.deleted ⊆ t.store.deleted
  own : ∀ x ∈ t.store.deleted, x ∈ s.store.deleted ∨ f.deletes x.1.signal x.1.part.id

/-- Where the task may begin: its parts are new, and so is its transaction. -/
structure Begins (s : Shared) : Prop where
  spared : ∀ x ∈ s.store.deleted, ¬ f.adds x.1.signal x.1.part.id
  fresh : f.Deletes → ∀ commit ∈ s.chain, ¬ f.carries commit.mutation.transactionId

/-- What holds while the task runs. -/
structure Clear (s : Shared) : Prop where
  spared : ∀ x ∈ s.store.deleted, ¬ f.adds x.1.signal x.1.part.id
  settled : f.Deletes → ∀ commit ∈ s.chain, f.carries commit.mutation.transactionId →
    f.Settles commit.mutation

/-- The task may run next to another one. -/
structure Fits (g : Footprint) : Prop where
  adds : ∀ signal id, f.adds signal id → ¬ g.deletes signal id
  deletes : ∀ signal id, f.deletes signal id → ¬ g.adds signal id
  carries : g.Deletes → ∀ transaction, f.carries transaction → ¬ g.carries transaction

variable {f} {g : Footprint} {s t u : Shared}

theorem Later.refl (f : Footprint) (s : Shared) : f.Later s s :=
  ⟨Extends.refl _ s, List.Subset.refl _, fun _ hx => .inl hx⟩

theorem Later.trans (h : f.Later s t) (h' : f.Later t u) : f.Later s u where
  chain := h.chain.trans h'.chain
  deleted := List.Subset.trans h.deleted h'.deleted
  spared x hx := (h'.spared x hx).elim (h.spared x) .inr

theorem Later.grown (h : f.Later s t) : s.Grown t := h.chain.grown

theorem Owns.bears {mutation : CatalogMutation} (h : f.Owns mutation) : f.Bears mutation where
  spared signal id hdeletes hadds := f.disjoint signal id (h.adds signal id hadds) hdeletes
  settles hdeletes _ := h.settles hdeletes

theorem Change.later (h : f.Change s t) : f.Later s t where
  chain := h.chain.mono fun _ => Owns.bears
  deleted := h.deleted
  spared x hx := (h.own x hx).imp id fun hdeletes hadds => f.disjoint _ _ hadds hdeletes

/-- What a task changes, a task that it fits bears. -/
theorem Change.other (h : f.Change s t) (hfits : f.Fits g) : g.Later s t where
  chain := h.chain.mono fun _ hm =>
    ⟨fun signal id hdeletes hadds => hfits.adds signal id (hm.adds signal id hadds) hdeletes,
      fun hdeletes hcarries => absurd hcarries (hfits.carries hdeletes _ hm.carries)⟩
  deleted := h.deleted
  spared x hx := (h.own x hx).imp id fun hdeletes => hfits.deletes _ _ hdeletes

theorem Begins.clear (h : f.Begins s) : f.Clear s where
  spared := h.spared
  settled hdeletes commit hcommit hcarries := absurd hcarries (h.fresh hdeletes commit hcommit)

theorem Clear.later (h : f.Clear s) (hst : f.Later s t) : f.Clear t where
  spared x hx := (hst.spared x hx).elim (h.spared x) id
  settled hdeletes commit hcommit hcarries := by
    obtain ⟨more, hmore, hbears⟩ := hst.chain
    rw [hmore] at hcommit
    rcases List.mem_append.1 hcommit with hcommit | hcommit
    · exact h.settled hdeletes commit hcommit hcarries
    · exact (hbears commit hcommit).settles hdeletes hcarries

/-- A commit that settles a task leaves it nothing to commit. -/
theorem Settles.content {state next : CatalogState} {commit : CatalogCommit}
    (h : f.Settles commit.mutation) (happlied : Applied state commit next) : f.Content next where
  added signal id hadds := happlied.lists_iff.2 (.inr (h.added signal id hadds))
  removed signal id hdeletes := by
    rw [happlied.lists_iff]
    rintro (⟨-, hremoved⟩ | hadds)
    · exact hremoved (h.removed signal id hdeletes)
    · exact h.spared signal id hdeletes hadds

end Footprint

namespace Shared

variable {f : Footprint} {s t : Shared} {state : CatalogState}

/-- No commit after a state adds a part whose files the task deletes. -/
def NoneAfter (f : Footprint) (state : CatalogState) (s : Shared) : Prop :=
  ∀ commit ∈ s.chain.drop state.generation, ∀ signal id, f.deletes signal id →
    ¬ commit.mutation.Adds signal id

/-- The catalog lists no part whose files the task deletes. -/
def Gone (f : Footprint) (s : Shared) : Prop :=
  ∀ state, s.Seen state → state.generation = s.chain.length → ∀ signal id,
    f.deletes signal id → ¬ state.Lists signal id

theorem NoneAfter.later (h : NoneAfter f state s) (hst : f.Later s t) : NoneAfter f state t := by
  obtain ⟨more, hmore, hbears⟩ := hst.chain
  intro commit hcommit
  rw [hmore, List.drop_append] at hcommit
  rcases List.mem_append.1 hcommit with hcommit | hcommit
  · exact h commit hcommit
  · exact (hbears commit (List.mem_of_mem_drop hcommit)).spared

/-- Only later commits stand after a state that has seen every commit. -/
theorem noneAfter_of_length_le (hlength : s.chain.length ≤ state.generation)
    (hst : f.Later s t) : NoneAfter f state t := by
  have hnone : NoneAfter f state s := by
    intro commit hcommit
    rw [List.drop_eq_nil_of_le hlength] at hcommit
    cases hcommit
  exact hnone.later hst

theorem Gone.later (h : Gone f s) (hst : f.Later s t) : Gone f t := by
  obtain ⟨more, hmore, hbears⟩ := hst.chain
  intro state hseen hlength signal id hdeletes
  have hlast := hseen.2
  rw [hlength, List.take_length] at hlast
  obtain ⟨before, hbefore⟩ := replayChain_take hlast s.chain.length
  rw [hmore, List.take_left] at hbefore
  rw [hmore] at hlast
  have hgeneration := replayChain_generation hbefore
  refine unlisted_of_append hbefore hlast (h before ⟨hgeneration.le, ?_⟩ hgeneration signal id
    hdeletes) fun commit hcommit => (hbears commit hcommit).spared signal id hdeletes
  rw [hgeneration, List.take_length]
  exact hbefore

/-- A catalog that leaves a task nothing to commit, and no commit after it to add its parts. -/
theorem Seen.gone (h : s.Seen state) (hcontent : f.Content state)
    (hafter : NoneAfter f state s) : Gone f s := by
  intro last hseen hlength signal id hdeletes
  have hlast := hseen.2
  rw [hlength, List.take_length, ← List.take_append_drop state.generation s.chain] at hlast
  exact unlisted_of_append h.2 hlast (hcontent.removed signal id hdeletes)
    fun commit hcommit => hafter commit hcommit signal id hdeletes

theorem gone_of_not_deletes (h : ¬ f.Deletes) (s : Shared) : Gone f s :=
  fun _ _ _ signal id hdeletes => absurd ⟨signal, id, hdeletes⟩ h

/-! ### Operations -/

/-- An operation that a task may ask for. -/
def Allowed (f : Footprint) (s : Shared) : CatalogOp → Prop
  | .createCommit .a generation commit =>
    s.Stands generation commit ∨ ∃ state next, s.Seen state ∧ generation = state.generation + 1 ∧
      applyCatalogMutation state commit = .ok next ∧ f.Owns commit.mutation
  | .createCommit .b generation commit => s.Stands generation commit
  | .createSnapshot _ _ snapshot => s.Seen snapshot.state
  | .deleteCommit _ _ | .deleteSnapshot _ _ => False
  | .deleteObject object => f.deletes object.signal object.part.id ∧ s.Gone f
  | .setCached _ (some state) => s.Seen state
  | .note mutation generation => s.Found mutation generation
  | _ => True

/-- A change that leaves the chain and the deletions as they are and keeps the rest. -/
theorem Coherent.of_chain_eq (h : s.Coherent) (ha : t.store.commits .a = s.store.commits .a)
    (hdeleted : t.store.deleted = s.store.deleted)
    (hdecided : ∀ x ∈ t.decided, s.Found x.1 x.2)
    (hb : ∀ x ∈ t.store.commits .b, x ∈ s.store.commits .a)
    (hsnapshots : ∀ replica, ∀ x ∈ t.store.snapshots replica, s.Seen x.2.state)
    (hcached : ∀ process state, (t.processes process).cached = some state → s.Seen state) :
    t.Coherent ∧ f.Change s t := by
  have hchain : t.chain = s.chain := by rw [chain, ha, chain]
  have hextends : Extends f.Owns s t := by
    obtain ⟨more, hmore, howns⟩ := Extends.refl f.Owns s
    exact ⟨more, hchain.trans hmore, howns⟩
  have hseen : ∀ {state}, t.Seen state ↔ s.Seen state := fun {state} => by
    rw [Seen, Seen, hchain]
  refine ⟨⟨?_, ?_, fun x hx => ha ▸ hb x hx, fun replica x hx => hseen.2 (hsnapshots replica x hx),
    fun process state hstate => hseen.2 (hcached process state hstate), fun x hx => ?_,
    fun x hx => (hdecided x hx).grown hextends.grown⟩, hextends,
    fun x hx => hdeleted ▸ hx, fun x hx => .inl (hdeleted ▸ hx)⟩
  · rw [ha, hchain]
    exact h.numbered
  · rw [hchain]
    exact h.replays
  · rw [hdeleted] at hx
    obtain ⟨hle, hunlisted⟩ := h.retired x hx
    rw [hchain]
    exact ⟨hle, fun state hstate => hunlisted state (hseen.1 hstate)⟩

/-- A commit at the end of the chain. -/
theorem Coherent.extend (h : s.Coherent) (hclear : f.Clear s) {next : CatalogState}
    {commit : CatalogCommit} (hseen : s.Seen state)
    (happly : applyCatalogMutation state commit = .ok next)
    (hlength : s.chain.length = state.generation) (howns : f.Owns commit.mutation) :
    (s.withCommits .a ((s.store.commits .a).add (state.generation + 1) commit)).Coherent ∧
      f.Change s (s.withCommits .a ((s.store.commits .a).add (state.generation + 1) commit)) := by
  set t := s.withCommits .a ((s.store.commits .a).add (state.generation + 1) commit)
  have hchain : t.chain = s.chain ++ [commit] := List.map_append
  have hgrown : s.Grown t := ⟨[commit], hchain.symm⟩
  have hreplay : replayChain s.chain = .ok state := by
    have := hseen.2
    rwa [← hlength, List.take_length] at this
  have hnext : replayChain (s.chain ++ [commit]) = .ok next := by
    rw [replayChain_concat]
    exact bind_eq_ok.2 ⟨state, hreplay, happly⟩
  refine ⟨⟨?_, ⟨next, hchain ▸ hnext⟩, fun x hx => List.mem_append_left _ (h.repaired x hx),
    fun replica x hx => (h.snapshots replica x hx).grown hgrown,
    fun process state hstate => (h.cached process state hstate).grown hgrown, fun x hx => ?_,
    fun x hx => (h.decided x hx).grown hgrown⟩,
    ⟨[commit], hchain, fun c hc => List.mem_singleton.1 hc ▸ howns⟩, List.Subset.refl _,
    fun x hx => .inl hx⟩
  · show List.map (·.1) (s.store.commits .a ++ [(state.generation + 1, commit)]) = _
    have hnumbered : List.map (·.1) (s.store.commits .a) = List.range' 1 s.chain.length :=
      h.numbered
    rw [hchain, List.map_append, hnumbered, List.length_append, List.length_singleton,
      List.range'_concat, hlength, Nat.one_mul, Nat.add_comm 1]
    rfl
  · obtain ⟨hle, hunlisted⟩ := h.retired x hx
    refine ⟨hle.trans hgrown.length_le, fun last hlast hge => ?_⟩
    have hadds : ¬ commit.mutation.Adds x.1.signal x.1.part.id := fun hadds =>
      hclear.spared x hx (howns.adds _ _ hadds)
    rcases Nat.lt_or_ge s.chain.length last.generation with hlt | hshort
    · -- the new state
      have hgeneration : last.generation = (s.chain ++ [commit]).length := by
        have hbound := hlast.1
        rw [hchain] at hbound
        rw [List.length_append, List.length_singleton] at hbound ⊢
        omega
      have hreplayed := hlast.2
      rw [hchain, hgeneration, List.take_length] at hreplayed
      refine unlisted_of_append hreplay hreplayed
        (hunlisted state hseen (hlength ▸ hle)) fun c hc => ?_
      rw [List.mem_singleton.1 hc]
      exact hadds
    · refine hunlisted last ⟨hshort, ?_⟩ hge
      have hreplayed := hlast.2
      rwa [hchain, List.take_append_of_le_length hshort] at hreplayed

/-- The deletion of a file of a part that the catalog does not list. -/
theorem Coherent.delete (h : s.Coherent) {object : PartObject}
    (hdeletes : f.deletes object.signal object.part.id) (hgone : s.Gone f) :
    (s.withDeleted object).Coherent ∧ f.Change s (s.withDeleted object) := by
  refine ⟨⟨h.numbered, h.replays, h.repaired, h.snapshots, h.cached, fun x hx => ?_, h.decided⟩,
    Extends.refl _ s, fun x hx => List.mem_append_left _ hx, fun x hx => ?_⟩
  · rcases List.mem_append.1 hx with hx | hx
    · exact h.retired x hx
    · rw [List.mem_singleton.1 hx]
      have hlength : (s.store.commits .a).length = s.chain.length := (List.length_map _).symm
      refine ⟨hlength.le, fun state hseen hge => ?_⟩
      exact hgone state hseen (Nat.le_antisymm hseen.1 (hlength ▸ hge)) _ _ hdeletes
  · refine (List.mem_append.1 hx).imp id fun hx => ?_
    rw [List.mem_singleton.1 hx]
    exact hdeletes

/-- **The step lemma**: an allowed operation keeps the catalog coherent. -/
theorem Coherent.effect (h : s.Coherent) (hclear : f.Clear s) {op : CatalogOp}
    (hop : s.Allowed f op) : (s.effect op).Coherent ∧ f.Change s (s.effect op) := by
  have hsame : s.Coherent ∧ f.Change s s :=
    ⟨h, Extends.refl _ s, List.Subset.refl _, fun _ hx => .inl hx⟩
  cases op with
  | createCommit replica generation commit =>
    unfold Shared.effect
    dsimp only
    split_ifs with hfree
    · exact hsame
    rw [Bool.not_eq_true] at hfree
    cases replica with
    | a =>
      rcases hop with hstands | ⟨state, next, hseen, rfl, happly, howns⟩
      · rw [Shelf.isSome_find_of_mem (h.mem_iff.2 hstands)] at hfree
        cases hfree
      · exact h.extend hclear hseen happly (h.length_eq hseen hfree) howns
    | b =>
      refine h.of_chain_eq rfl rfl h.decided (fun x hx => ?_) h.snapshots h.cached
      rcases List.mem_append.1 hx with hx | hx
      · exact h.repaired x hx
      · rw [List.mem_singleton.1 hx]
        exact h.mem_iff.2 hop
  | createSnapshot replica generation snapshot =>
    unfold Shared.effect
    dsimp only
    split_ifs
    · exact hsame
    refine h.of_chain_eq rfl rfl h.decided h.repaired (fun replica' x hx => ?_) h.cached
    rcases eq_or_ne replica' replica with rfl | hne
    · change x ∈ Function.update s.store.snapshots replica' _ replica' at hx
      rw [Function.update_self] at hx
      rcases List.mem_append.1 hx with hx | hx
      · exact h.snapshots _ x hx
      · rw [List.mem_singleton.1 hx]
        exact hop
    · change x ∈ Function.update s.store.snapshots replica _ replica' at hx
      rw [Function.update_of_ne hne] at hx
      exact h.snapshots _ x hx
  | deleteCommit replica generation => exact hop.elim
  | deleteSnapshot replica generation => exact hop.elim
  | deleteObject object => exact h.delete hop.1 hop.2
  | setCached process state =>
    refine h.of_chain_eq rfl rfl h.decided h.repaired h.snapshots fun process' seen hseen => ?_
    rcases eq_or_ne process' process with rfl | hne
    · change (Function.update s.processes process' _ process').cached = some seen at hseen
      rw [Function.update_self] at hseen
      obtain rfl : state = some seen := hseen
      exact hop
    · change (Function.update s.processes process _ process').cached = some seen at hseen
      rw [Function.update_of_ne hne] at hseen
      exact h.cached _ _ hseen
  | setEpoch process epoch =>
    refine h.of_chain_eq rfl rfl h.decided h.repaired h.snapshots fun process' seen hseen => ?_
    rcases eq_or_ne process' process with rfl | hne
    · change (Function.update s.processes process' _ process').cached = some seen at hseen
      rw [Function.update_self] at hseen
      exact h.cached _ _ hseen
    · change (Function.update s.processes process _ process').cached = some seen at hseen
      rw [Function.update_of_ne hne] at hseen
      exact h.cached _ _ hseen
  | note mutation generation =>
    refine h.of_chain_eq rfl rfl (fun x hx => ?_) h.repaired h.snapshots h.cached
    rcases List.mem_append.1 hx with hx | hx
    · exact h.decided x hx
    · rw [List.mem_singleton.1 hx]
      exact hop
  | _ => exact hsame

end Shared

/-! ### Safe programs -/

/-- The process whose known catalog is read. -/
def CatalogOp.recalls : CatalogOp → Option ProcessId
  | cached process => some process
  | _ => none

/-- What a task finds in memory: after a catalog that leaves it nothing to commit, no commit adds
a part whose files it deletes. -/
def Footprint.Asks (f : Footprint) (s : Shared) (op : CatalogOp) : Prop :=
  ∀ process ∈ op.recalls, ∀ state ∈ (s.processes process).cached, f.Content state →
    s.NoneAfter f state

/-- What catalog programs rely on and keep. -/
def keeping : Contract catalogInterface Shared Footprint CatalogError Unit where
  inv := Shared.Coherent
  later := Footprint.Later
  change := Footprint.Change
  begins := Footprint.Begins
  asks := Footprint.Asks
  fits := Footprint.Fits
  post _ _ _ _ := True
  refl := Footprint.Later.refl
  trans := Footprint.Later.trans
  own := Footprint.Change.later
  other hfits h := h.other hfits
  stable h _ := h

/-- A postcondition on results alone. -/
def Ends {α : Type} (P : α → Shared → Prop) : Except CatalogError α → Shared → Prop
  | .ok a, s => P a s
  | .error _, _ => True

/-- A program asks only for allowed operations, and what it returns meets a postcondition. -/
def safe {α : Type} (f : Footprint) (p : CatalogProgram α) (P : α → Shared → Prop) (s : Shared) :
    Prop :=
  f.Clear s → p.guarded catalogDevice keeping f (Ends P) s

section Rules

variable {α β : Type} {f : Footprint} {P Q : α → Shared → Prop} {s : Shared}

theorem safe_ret {a : α} (h : P a s) : safe f (ret a) P s := fun _ => h

theorem safe_pure {a : α} (h : P a s) : safe f (pure a) P s := fun _ => h

theorem safe_throw (e : CatalogError) : safe f (throw e) P s := fun _ => trivial

theorem safe_mono {p : CatalogProgram α} (h : safe f p P s) (hPQ : ∀ a t, P a t → Q a t) :
    safe f p Q s := fun hclear => guarded_mono (h hclear) fun r t hr =>
  match r, hr with
  | .ok a, hr => hPQ a t hr
  | .error _, _ => trivial

/-- **The sequencing rule.** -/
theorem safe_bind {p : CatalogProgram β} {k : β → CatalogProgram α} (R : β → Shared → Prop)
    (hp : safe f p R s) (hk : ∀ b t, f.Later s t → R b t → safe f (k b) P t) :
    safe f (p >>= k) P s := by
  intro hclear
  refine guarded_bind (R := fun b t => f.Later s t ∧ R b t) ?_ fun b t ht =>
    hk b t ht.1 ht.2 (hclear.later ht.1)
  refine guarded_mono (guarded_frame (hp hclear) (Footprint.Later.refl f s)) fun r t hr => ?_
  cases r with
  | ok b => exact hr
  | error e => trivial

theorem safe_attempt {p : CatalogProgram α} (h : safe f p P s) :
    safe f (attempt p) (fun r t => ∀ a, r = .ok a → P a t) s := by
  refine fun hclear => guarded_attempt (guarded_mono (h hclear) fun r t hr => ?_)
  cases r with
  | ok a => rintro _ ⟨⟩; exact hr
  | error e => rintro _ ⟨⟩

theorem safe_lift {result : Except CatalogError α} (h : ∀ a, result = .ok a → P a s) :
    safe f (lift result) P s := by
  intro _
  cases result with
  | ok a => exact h a rfl
  | error e => trivial

/-- **The rule for one request**, whatever becomes of it. -/
theorem safe_perform {op : CatalogOp} {P : Except CatalogError op.Res → Shared → Prop}
    (hop : ∀ t, f.Later s t → t.Coherent → t.Allowed f op)
    (hok : ∀ t, f.Later s t → t.Coherent → f.Asks t op → P (.ok (t.answer op)) (t.effect op))
    (herror : ∀ e t, P (.error e) t) :
    safe f (perform (I := catalogInterface) op) P s := by
  refine fun hclear => guarded_perform fun t hst ht hasks fate => ?_
  have heffect := Shared.Coherent.effect ht (hclear.later hst) (hop t hst ht)
  have hsame : t.Coherent ∧ f.Change t t :=
    ⟨ht, Extends.refl _ t, List.Subset.refl _, fun _ hx => .inl hx⟩
  unfold catalogDevice
  dsimp only
  split_ifs
  · exact ⟨heffect.1, heffect.2, herror _ _⟩
  · exact ⟨hsame.1, hsame.2, herror _ _⟩
  · exact ⟨heffect.1, heffect.2, hok t hst ht hasks⟩

theorem safe_ask {op : CatalogOp} {P : op.Res → Shared → Prop}
    (hop : ∀ t, f.Later s t → t.Coherent → t.Allowed f op)
    (hok : ∀ t, f.Later s t → t.Coherent → f.Asks t op → P (t.answer op) (t.effect op)) :
    safe f (ask op) P s := by
  refine safe_bind (fun r t => ∀ res, r = .ok res → P res t) (safe_perform hop ?_ ?_) ?_
  · rintro t hst ht hasks _ ⟨⟩
    exact hok t hst ht hasks
  · rintro e t _ ⟨⟩
  · intro r t _ hr
    cases r with
    | ok res => exact safe_ret (hr res rfl)
    | error e => exact safe_throw e

/-- An operation of which nothing is expected. -/
theorem safe_ask_any {op : CatalogOp} (hop : ∀ t, f.Later s t → t.Coherent → t.Allowed f op) :
    safe f (ask op) (fun _ _ => True) s := safe_ask hop fun _ _ _ _ => trivial

theorem safe_act {op : CatalogOp} (hop : ∀ t, f.Later s t → t.Coherent → t.Allowed f op) :
    safe f (act op) (fun _ _ => True) s :=
  safe_bind _ (safe_ask_any hop) fun _ _ _ _ => safe_ret trivial

theorem safe_each {γ : Type} {body : γ → CatalogProgram β} {xs : List γ}
    (h : ∀ x ∈ xs, ∀ t, f.Later s t → safe f (body x) (fun _ _ => True) t) :
    safe f (each body xs) (fun _ _ => True) s := by
  induction xs generalizing s with
  | nil => exact safe_ret trivial
  | cons x xs ih =>
    have hfirst := h x (List.mem_cons_self ..) s (Footprint.Later.refl f s)
    refine safe_bind _ hfirst fun b t hst _ => ?_
    refine safe_bind _ (ih fun y hy u htu => h y (List.mem_cons_of_mem _ hy) u (hst.trans htu))
      fun bs u _ _ => safe_ret trivial

end Rules

end Catalog

end Obsy
