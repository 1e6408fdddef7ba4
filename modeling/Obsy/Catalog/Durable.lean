import Obsy.Catalog.Commits
import Obsy.Catalog.Pruning

/-!
# Durable catalogs

What a catalog keeps when replicas are damaged or lost and old objects are deleted: every commit
past the oldest snapshot that is kept has a replica that reads, one of the two snapshots that are
kept has one, and whatever reads is what was written.

* `Durable`: this invariant, of one process and its store.
* `keeps`: a program that keeps it under some fates, with the rules to show it.
* `keeps_loadCatalogState`: a load gives what all commits make; it fails only if a request does.
-/

namespace Obsy

namespace Catalog

open Machine Machine.Program

variable (digests : Digests)

/-! ### Hits -/

/-- A replica that was damaged or lost. -/
structure Hit where
  kind : CatalogKind
  replica : Replica
  generation : ℕ
deriving DecidableEq

/-- The objects of which both replicas were hit. -/
def ruined (hits : List Hit) : List (CatalogKind × ℕ) :=
  (hits.filter fun hit => hit.replica = .a && ⟨hit.kind, .b, hit.generation⟩ ∈ hits).map
    fun hit => (hit.kind, hit.generation)

/-- At most one replica of each object was hit, and of at most one snapshot both. -/
def Bearable (hits : List Hit) : Prop :=
  ∀ x ∈ ruined hits, x.1 = .snapshots ∧ ∀ y ∈ ruined hits, y = x

instance (hits : List Hit) : Decidable (Bearable hits) :=
  inferInstanceAs (Decidable (∀ x ∈ ruined hits, x.1 = .snapshots ∧ ∀ y ∈ ruined hits, y = x))

theorem mem_ruined {hits : List Hit} {kind : CatalogKind} {generation : ℕ} :
    (kind, generation) ∈ ruined hits ↔
      ⟨kind, .a, generation⟩ ∈ hits ∧ ⟨kind, .b, generation⟩ ∈ hits := by
  unfold ruined
  rw [List.mem_map]
  constructor
  · rintro ⟨⟨kind', replica, generation'⟩, hmem, heq⟩
    obtain ⟨rfl, rfl⟩ := Prod.mk.inj heq
    obtain ⟨hhit, hboth⟩ := List.mem_filter.1 hmem
    rw [Bool.and_eq_true] at hboth
    obtain rfl : replica = .a := of_decide_eq_true hboth.1
    exact ⟨hhit, of_decide_eq_true hboth.2⟩
  · rintro ⟨ha, hb⟩
    exact ⟨_, List.mem_filter.2 ⟨ha, by simp [hb]⟩, rfl⟩

/-! ### What the replicas hold -/

def readCommit (s : Shared) (replica : Replica) (generation : ℕ) :
    Except CatalogError (Option CatalogCommit) :=
  checkReplica generation (·.generation) (verifyCommit digests)
    (.ok ((s.store.commits replica).find generation))

def readSnapshot (s : Shared) (replica : Replica) (generation : ℕ) :
    Except CatalogError (Option CatalogSnapshot) :=
  checkReplica generation (·.generation) (checkSnapshot digests)
    (.ok ((s.store.snapshots replica).find generation))

def CommitAt (chain : List CatalogCommit) (generation : ℕ) (commit : CatalogCommit) : Prop :=
  ∃ i, generation = i + 1 ∧ chain[i]? = some commit

def SnapshotAt (chain : List CatalogCommit) (generation : ℕ) (snapshot : CatalogSnapshot) : Prop :=
  generation ≤ chain.length ∧ ∃ state, replayChain (chain.take generation) = .ok state ∧
    snapshot = snapshotOf digests state

/-- The two snapshots that the last deletions kept. -/
abbrev Kept := Option (ℕ × ℕ)

/-- The generation before which objects may be gone. -/
def Kept.floor (kept : Kept) : ℕ := (kept.map (·.1)).getD 0

/-- A snapshot that is kept and has a replica that was not hit. -/
def Assured (kept : Kept) (hits : List Hit) (generation : ℕ) : Prop :=
  (∃ p ∈ kept, generation = p.1 ∨ generation = p.2) ∧
    ∃ replica, (⟨.snapshots, replica, generation⟩ : Hit) ∉ hits

/-- What commits were recorded, which snapshots are kept, and what was hit. -/
structure Durable (process : ProcessId) (chain : List CatalogCommit) (kept : Kept)
    (hits : List Hit) (s : Shared) : Prop where
  replays : ∃ state, replayChain chain = .ok state
  sealed : ∀ commit ∈ chain, verifyCommit digests commit = .ok ()
  bearable : Bearable hits
  within : ∀ replica generation, ((s.store.commits replica).find generation).isSome →
    generation ≤ chain.length
  right : ∀ replica generation commit,
    readCommit digests s replica generation = .ok (some commit) → CommitAt chain generation commit
  there : ∀ generation, kept.floor ≤ generation → 0 < generation → generation ≤ chain.length →
    ∀ replica, (⟨.commits, replica, generation⟩ : Hit) ∈ hits ∨
      ∃ commit, readCommit digests s replica generation = .ok (some commit)
  snapshots : ∀ replica generation snapshot,
    readSnapshot digests s replica generation = .ok (some snapshot) →
      SnapshotAt digests chain generation snapshot
  ordered : ∀ p ∈ kept, p.1 < p.2
  held : ∀ p ∈ kept, ∀ generation, generation = p.1 ∨ generation = p.2 → ∀ replica,
    (⟨.snapshots, replica, generation⟩ : Hit) ∈ hits ∨
      ∃ snapshot, readSnapshot digests s replica generation = .ok (some snapshot)
  cached : ∀ state, (s.processes process).cached = some state → replayChain chain = .ok state
  legacy : ∀ legacy, s.store.legacy legacy = false

/-- The objects that were there are still there. -/
structure Shared.Holds (s t : Shared) : Prop where
  commits : ∀ replica generation commit,
    (s.store.commits replica).find generation = some commit →
      (t.store.commits replica).find generation = some commit
  snapshots : ∀ replica generation snapshot,
    (s.store.snapshots replica).find generation = some snapshot →
      (t.store.snapshots replica).find generation = some snapshot

variable {digests}

theorem Shared.Holds.refl (s : Shared) : s.Holds s := ⟨fun _ _ _ h => h, fun _ _ _ h => h⟩

theorem Shared.Holds.trans {s t u : Shared} (h : s.Holds t) (h' : t.Holds u) : s.Holds u :=
  ⟨fun r g c hc => h'.commits r g c (h.commits r g c hc),
    fun r g x hx => h'.snapshots r g x (h.snapshots r g x hx)⟩

/-- What reads is what is there, checked. -/
theorem checkReplica_find {α : Type} {generation : ℕ} {generationOf : α → ℕ}
    {check : α → Except CatalogError Unit} {found : Option α} {object : α}
    (h : checkReplica generation generationOf check (.ok found) = .ok (some object)) :
    found = some object ∧ check object = .ok () ∧ generationOf object = generation := by
  unfold checkReplica at h
  split at h
  · cases h
  · cases h
  · next x hx =>
    cases hx
    split at h
    · cases h
    · next hcheck =>
      split_ifs at h with hgeneration
      cases h
      exact ⟨rfl, hcheck, hgeneration⟩

theorem checkReplica_some {α : Type} {generation : ℕ} {generationOf : α → ℕ}
    {check : α → Except CatalogError Unit} {object : α} (hcheck : check object = .ok ())
    (hgeneration : generationOf object = generation) :
    checkReplica generation generationOf check (.ok (some object)) = .ok (some object) := by
  unfold checkReplica
  dsimp only
  rw [hcheck]
  exact if_pos hgeneration

section Reads

variable {s t : Shared} {replica : Replica} {generation : ℕ}

theorem Shared.Holds.readCommit (h : s.Holds t) {commit : CatalogCommit}
    (hread : readCommit digests s replica generation = .ok (some commit)) :
    readCommit digests t replica generation = .ok (some commit) := by
  obtain ⟨hfind, hcheck, hgeneration⟩ := checkReplica_find hread
  unfold Catalog.readCommit
  rw [h.commits _ _ _ hfind]
  exact checkReplica_some hcheck hgeneration

theorem Shared.Holds.readSnapshot (h : s.Holds t) {snapshot : CatalogSnapshot}
    (hread : readSnapshot digests s replica generation = .ok (some snapshot)) :
    readSnapshot digests t replica generation = .ok (some snapshot) := by
  obtain ⟨hfind, hcheck, hgeneration⟩ := checkReplica_find hread
  unfold Catalog.readSnapshot
  rw [h.snapshots _ _ _ hfind]
  exact checkReplica_some hcheck hgeneration

end Reads

theorem CommitAt.unique {chain : List CatalogCommit} {generation : ℕ}
    {commit commit' : CatalogCommit} (h : CommitAt chain generation commit)
    (h' : CommitAt chain generation commit') : commit = commit' := by
  obtain ⟨i, rfl, hi⟩ := h
  obtain ⟨j, hj, hj'⟩ := h'
  obtain rfl := Nat.succ.inj hj
  exact Option.some.inj (hi.symm.trans hj')

theorem SnapshotAt.unique {chain : List CatalogCommit} {generation : ℕ}
    {snapshot snapshot' : CatalogSnapshot} (h : SnapshotAt digests chain generation snapshot)
    (h' : SnapshotAt digests chain generation snapshot') : snapshot = snapshot' := by
  obtain ⟨-, state, hstate, rfl⟩ := h
  obtain ⟨-, state', hstate', rfl⟩ := h'
  rw [hstate] at hstate'
  rw [Except.ok.inj hstate']

theorem SnapshotAt.state {chain : List CatalogCommit} {generation : ℕ}
    {snapshot : CatalogSnapshot} (h : SnapshotAt digests chain generation snapshot) :
    replayChain (chain.take generation) = .ok snapshot.state ∧
      snapshot.state.generation = generation ∧ snapshot.generation = generation := by
  obtain ⟨hle, state, hstate, rfl⟩ := h
  have hgeneration := replayChain_generation hstate
  rw [List.length_take, Nat.min_eq_left hle] at hgeneration
  exact ⟨hstate, hgeneration, hgeneration⟩

namespace Durable

variable {process : ProcessId} {chain : List CatalogCommit} {kept : Kept} {hits : List Hit}
  {s : Shared}

theorem exists_snapshot (h : Durable digests process chain kept hits s) {generation : ℕ}
    (hassured : Assured kept hits generation) :
    ∃ replica snapshot, readSnapshot digests s replica generation = .ok (some snapshot) := by
  obtain ⟨⟨p, hp, hgeneration⟩, replica, hhit⟩ := hassured
  exact ⟨replica, (h.held p hp generation hgeneration replica).resolve_left hhit⟩

/-- One of the snapshots that are kept is assured. -/
theorem exists_assured (h : Durable digests process chain kept hits s) {p : ℕ × ℕ}
    (hp : p ∈ kept) : ∃ generation, p.1 ≤ generation ∧ Assured kept hits generation := by
  have hordered := h.ordered p hp
  by_cases hfirst : Assured kept hits p.1
  · exact ⟨p.1, le_rfl, hfirst⟩
  refine ⟨p.2, hordered.le, ⟨p, hp, .inr rfl⟩, ?_⟩
  by_contra hnone
  push Not at hnone
  have hfirst : ∀ replica, (⟨.snapshots, replica, p.1⟩ : Hit) ∈ hits := fun replica => by
    by_contra hhit
    exact hfirst ⟨⟨p, hp, .inl rfl⟩, replica, hhit⟩
  have hboth := (h.bearable _ (mem_ruined.2 ⟨hfirst .a, hfirst .b⟩)).2 _
    (mem_ruined.2 ⟨hnone .a, hnone .b⟩)
  exact hordered.ne (Prod.mk.inj hboth).2.symm

end Durable

/-! ### Operations that keep it -/

/-- An operation that keeps a catalog durable and leaves its objects there. -/
def Permitted (digests : Digests) (chain : List CatalogCommit) : CatalogOp → Prop
  | .createCommit _ generation commit => CommitAt chain generation commit
  | .createSnapshot _ generation snapshot => SnapshotAt digests chain generation snapshot
  | .deleteCommit _ _ | .deleteSnapshot _ _ => False
  | .setCached _ (some state) => replayChain chain = .ok state
  | _ => True

section Shelves

variable {α : Type} {shelf : Shelf α} {generation other : ℕ} {object : α}

theorem Shelf.find_add_of_some {x : α} (h : shelf.find other = some x) :
    (shelf.add generation object).find other = some x := by
  unfold Shelf.find Shelf.add at *
  obtain ⟨y, hy, rfl⟩ := Option.map_eq_some_iff.1 h
  rw [List.find?_append, hy]
  rfl

theorem Shelf.find_add (hfree : shelf.find generation = none) :
    (shelf.add generation object).find other =
      if generation = other then some object else shelf.find other := by
  unfold Shelf.find Shelf.add at *
  rw [List.find?_append]
  split_ifs with h
  · subst h
    rw [Option.map_eq_none_iff] at hfree
    rw [hfree]
    simp
  · rw [List.find?_singleton]
    simp [h]

end Shelves

namespace Durable

variable {process : ProcessId} {chain : List CatalogCommit} {kept : Kept} {hits : List Hit}
  {s t : Shared}

/-- A change that keeps what is there and adds only what belongs there. -/
theorem of_holds (h : Durable digests process chain kept hits s) (hholds : s.Holds t)
    (hcommits : ∀ replica generation commit,
      (t.store.commits replica).find generation = some commit →
        (s.store.commits replica).find generation = some commit ∨
          CommitAt chain generation commit)
    (hsnapshots : ∀ replica generation snapshot,
      (t.store.snapshots replica).find generation = some snapshot →
        (s.store.snapshots replica).find generation = some snapshot ∨
          SnapshotAt digests chain generation snapshot)
    (hcached : ∀ state, (t.processes process).cached = some state → replayChain chain = .ok state)
    (hlegacy : t.store.legacy = s.store.legacy) :
    Durable digests process chain kept hits t where
  replays := h.replays
  sealed := h.sealed
  bearable := h.bearable
  within replica generation hsome := by
    obtain ⟨commit, hcommit⟩ := Option.isSome_iff_exists.1 hsome
    rcases hcommits replica generation commit hcommit with hold | ⟨i, rfl, hi⟩
    · exact h.within replica generation (hold ▸ rfl)
    · exact (List.getElem?_eq_some_iff.1 hi).1
  right replica generation commit hread := by
    obtain ⟨hfind, hcheck, hgeneration⟩ := checkReplica_find hread
    rcases hcommits replica generation commit hfind with hold | hat
    · refine h.right replica generation commit ?_
      unfold readCommit
      rw [hold]
      exact checkReplica_some hcheck hgeneration
    · exact hat
  there generation hfloor hpos hle replica :=
    (h.there generation hfloor hpos hle replica).imp id fun ⟨commit, hread⟩ =>
      ⟨commit, hholds.readCommit hread⟩
  snapshots replica generation snapshot hread := by
    obtain ⟨hfind, hcheck, hgeneration⟩ := checkReplica_find hread
    rcases hsnapshots replica generation snapshot hfind with hold | hat
    · refine h.snapshots replica generation snapshot ?_
      unfold readSnapshot
      rw [hold]
      exact checkReplica_some hcheck hgeneration
    · exact hat
  ordered := h.ordered
  held p hp generation hgeneration replica :=
    (h.held p hp generation hgeneration replica).imp id fun ⟨snapshot, hread⟩ =>
      ⟨snapshot, hholds.readSnapshot hread⟩
  cached := hcached
  legacy legacy := by rw [hlegacy]; exact h.legacy legacy

/-- **The step lemma** of a durable catalog. -/
theorem effect (h : Durable digests process chain kept hits s) {op : CatalogOp}
    (hop : Permitted digests chain op) :
    Durable digests process chain kept hits (s.effect op) ∧ s.Holds (s.effect op) := by
  have hsame : Durable digests process chain kept hits s ∧ s.Holds s := ⟨h, Shared.Holds.refl s⟩
  cases op with
  | createCommit replica generation commit =>
    unfold Shared.effect
    dsimp only
    split_ifs with hfree
    · exact hsame
    rw [Bool.not_eq_true, Option.isSome_eq_false_iff, Option.isNone_iff_eq_none] at hfree
    have hfind : ∀ replica' generation' commit',
        ((s.withCommits replica ((s.store.commits replica).add generation commit)).store.commits
          replica').find generation' = some commit' →
        (s.store.commits replica').find generation' = some commit' ∨
          CommitAt chain generation' commit' := by
      intro replica' generation' commit' hfound
      change (Function.update s.store.commits replica _ replica').find _ = _ at hfound
      rcases eq_or_ne replica' replica with rfl | hne
      · rw [Function.update_self, Shelf.find_add hfree] at hfound
        split_ifs at hfound with hsame
        · cases hfound
          exact .inr (hsame ▸ hop)
        · exact .inl hfound
      · rw [Function.update_of_ne hne] at hfound
        exact .inl hfound
    have hholds : s.Holds
        (s.withCommits replica ((s.store.commits replica).add generation commit)) := by
      refine ⟨fun replica' generation' commit' hfound => ?_, fun _ _ _ hfound => hfound⟩
      change (Function.update s.store.commits replica _ replica').find _ = _
      rcases eq_or_ne replica' replica with rfl | hne
      · rw [Function.update_self]
        exact Shelf.find_add_of_some hfound
      · rw [Function.update_of_ne hne]
        exact hfound
    exact ⟨h.of_holds hholds hfind (fun _ _ _ hfound => .inl hfound) h.cached rfl, hholds⟩
  | createSnapshot replica generation snapshot =>
    unfold Shared.effect
    dsimp only
    split_ifs with hfree
    · exact hsame
    rw [Bool.not_eq_true, Option.isSome_eq_false_iff, Option.isNone_iff_eq_none] at hfree
    have hfind : ∀ replica' generation' snapshot',
        ((s.withSnapshots replica
          ((s.store.snapshots replica).add generation snapshot)).store.snapshots replica').find
            generation' = some snapshot' →
        (s.store.snapshots replica').find generation' = some snapshot' ∨
          SnapshotAt digests chain generation' snapshot' := by
      intro replica' generation' snapshot' hfound
      change (Function.update s.store.snapshots replica _ replica').find _ = _ at hfound
      rcases eq_or_ne replica' replica with rfl | hne
      · rw [Function.update_self, Shelf.find_add hfree] at hfound
        split_ifs at hfound with hsame
        · cases hfound
          exact .inr (hsame ▸ hop)
        · exact .inl hfound
      · rw [Function.update_of_ne hne] at hfound
        exact .inl hfound
    have hholds : s.Holds
        (s.withSnapshots replica ((s.store.snapshots replica).add generation snapshot)) := by
      refine ⟨fun _ _ _ hfound => hfound, fun replica' generation' snapshot' hfound => ?_⟩
      change (Function.update s.store.snapshots replica _ replica').find _ = _
      rcases eq_or_ne replica' replica with rfl | hne
      · rw [Function.update_self]
        exact Shelf.find_add_of_some hfound
      · rw [Function.update_of_ne hne]
        exact hfound
    exact ⟨h.of_holds hholds (fun _ _ _ hfound => .inl hfound) hfind h.cached rfl, hholds⟩
  | deleteCommit replica generation => exact hop.elim
  | deleteSnapshot replica generation => exact hop.elim
  | setCached process' state =>
    have hholds : s.Holds (s.effect (.setCached process' state)) :=
      ⟨fun _ _ _ hfound => hfound, fun _ _ _ hfound => hfound⟩
    refine ⟨h.of_holds hholds (fun _ _ _ hfound => .inl hfound) (fun _ _ _ hfound => .inl hfound)
      (fun seen hseen => ?_) rfl, hholds⟩
    change (Function.update s.processes process' _ process).cached = some seen at hseen
    rcases eq_or_ne process process' with rfl | hne
    · rw [Function.update_self] at hseen
      obtain rfl : state = some seen := hseen
      exact hop
    · rw [Function.update_of_ne hne] at hseen
      exact h.cached _ hseen
  | setEpoch process' epoch =>
    have hholds : s.Holds (s.effect (.setEpoch process' epoch)) :=
      ⟨fun _ _ _ hfound => hfound, fun _ _ _ hfound => hfound⟩
    refine ⟨h.of_holds hholds (fun _ _ _ hfound => .inl hfound) (fun _ _ _ hfound => .inl hfound)
      (fun seen hseen => ?_) rfl, hholds⟩
    change (Function.update s.processes process' _ process).cached = some seen at hseen
    rcases eq_or_ne process process' with rfl | hne
    · rw [Function.update_self] at hseen
      exact h.cached _ hseen
    · rw [Function.update_of_ne hne] at hseen
      exact h.cached _ hseen
  | deleteObject object | note mutation generation =>
    exact ⟨h.of_holds ⟨fun _ _ _ hfound => hfound, fun _ _ _ hfound => hfound⟩
      (fun _ _ _ hfound => .inl hfound) (fun _ _ _ hfound => .inl hfound) h.cached rfl,
      ⟨fun _ _ _ hfound => hfound, fun _ _ _ hfound => hfound⟩⟩
  | _ => exact hsame

end Durable

/-! ### Programs that keep it -/

/-- A program keeps an invariant under some fates, where `E` says that requests may fail: it leaves
the objects there, its results meet a postcondition, and it fails only if requests may. -/
def keeps {α : Type} (ok : RequestFate → Prop) (E : Prop) (I : Shared → Prop)
    (p : CatalogProgram α) (P : α → Shared → Prop) (s : Shared) : Prop :=
  I s → p.wp (catalogDevice.restrict ok)
    ⟨fun a _ t => I t ∧ s.Holds t ∧ P a t, fun _ _ t => E ∧ I t ∧ s.Holds t, I⟩ () s

section Rules

variable {α β : Type} {ok : RequestFate → Prop} {E : Prop} {I : Shared → Prop}
  {P Q : α → Shared → Prop} {s : Shared}

theorem keeps_ret {a : α} (h : I s → P a s) : keeps ok E I (ret a) P s := fun hs =>
  ⟨hs, Shared.Holds.refl s, h hs⟩

theorem keeps_pure {a : α} (h : I s → P a s) : keeps ok E I (pure a) P s := keeps_ret h

theorem keeps_throw (e : CatalogError) (h : I s → E) : keeps ok E I (throw e) P s := fun hs =>
  ⟨h hs, hs, Shared.Holds.refl s⟩

theorem keeps_mono {p : CatalogProgram α} (h : keeps ok E I p P s) (hPQ : ∀ a t, P a t → Q a t) :
    keeps ok E I p Q s := fun hs =>
  wp_mono (h hs) (fun a _ t ht => ⟨ht.1, ht.2.1, hPQ a t ht.2.2⟩) (fun _ _ _ ht => ht)
    fun _ ht => ht

/-- The invariant may be used to show that a program keeps it. -/
theorem keeps_of_inv {p : CatalogProgram α} (h : I s → keeps ok E I p P s) : keeps ok E I p P s :=
  fun hs => h hs hs

/-- **The sequencing rule.** -/
theorem keeps_bind {p : CatalogProgram β} {k : β → CatalogProgram α} (R : β → Shared → Prop)
    (hp : keeps ok E I p R s)
    (hk : ∀ b t, s.Holds t → R b t → keeps ok E I (k b) P t) : keeps ok E I (p >>= k) P s := by
  intro hs
  refine (wp_bind p k _ () s).2 (wp_mono (hp hs) (fun b m t ht => ?_) (fun _ _ _ ht => ht)
    fun _ ht => ht)
  obtain ⟨hit, hholds, hR⟩ := ht
  refine wp_mono (hk b t hholds hR hit) (fun a _ u hu => ?_) (fun _ _ u hu => ?_) fun _ hu => hu
  · exact ⟨hu.1, hholds.trans hu.2.1, hu.2.2⟩
  · exact ⟨hu.1, hu.2.1, hholds.trans hu.2.2⟩

/-- A program whose failures are looked at may fail for other reasons. -/
theorem keeps_attempt {p : CatalogProgram α} {E' : Prop} (h : keeps ok E' I p P s) :
    keeps ok E I (attempt p) (fun r t => match r with
      | .ok a => P a t
      | .error _ => E') s := fun hs =>
  (wp_attempt p _ () s).2 (wp_mono (h hs) (fun _ _ _ ht => ht)
    (fun _ _ _ ht => ⟨ht.2.1, ht.2.2, ht.1⟩) fun _ ht => ht)

theorem keeps_lift {result : Except CatalogError α} (h : I s → (∃ a, result = .ok a ∧ P a s) ∨
    (E ∧ ∃ e, result = .error e)) : keeps ok E I (lift result) P s := fun hs => by
  rcases h hs with ⟨a, rfl, ha⟩ | ⟨hE, e, rfl⟩
  · exact ⟨hs, Shared.Holds.refl s, ha⟩
  · exact ⟨hE, hs, Shared.Holds.refl s⟩

/-- **The rule for one request.** -/
theorem keeps_perform {op : CatalogOp} {P : Except CatalogError op.Res → Shared → Prop}
    (hE : ∀ f, ok f → f.fails = true → E)
    (hop : I s → I (s.effect op) ∧ s.Holds (s.effect op))
    (hok : I s → P (.ok (s.answer op)) (s.effect op))
    (herror : E → ∀ t, P (.error .io) t) :
    keeps ok E I (perform (I := catalogInterface) op) P s := by
  refine fun hs => ⟨hs, fun f => ?_⟩
  unfold Device.restrict catalogDevice
  dsimp only
  split_ifs with hfails happlied
  · rw [Bool.and_eq_true] at hfails
    exact ⟨(hop hs).1, (hop hs).2, herror (hE f.1 f.2 hfails.1) _⟩
  · rw [Bool.and_eq_true] at hfails
    exact ⟨hs, Shared.Holds.refl s, herror (hE f.1 f.2 hfails.1) _⟩
  · exact ⟨(hop hs).1, (hop hs).2, hok hs⟩

theorem keeps_ask {op : CatalogOp} {P : op.Res → Shared → Prop}
    (hE : ∀ f, ok f → f.fails = true → E)
    (hop : I s → I (s.effect op) ∧ s.Holds (s.effect op))
    (hok : I s → P (s.answer op) (s.effect op)) : keeps ok E I (ask op) P s := by
  refine keeps_bind (fun r t => (∃ res, r = .ok res ∧ P res t) ∨ (E ∧ ∃ e, r = .error e))
    (keeps_perform hE hop (fun hs => .inl ⟨_, rfl, hok hs⟩) fun hE _ => .inr ⟨hE, _, rfl⟩) ?_
  rintro r t - (⟨res, rfl, hres⟩ | ⟨hE, e, rfl⟩)
  · exact keeps_ret fun _ => hres
  · exact keeps_throw e fun _ => hE

theorem keeps_act {op : CatalogOp} (hE : ∀ f, ok f → f.fails = true → E)
    (hop : I s → I (s.effect op) ∧ s.Holds (s.effect op)) :
    keeps ok E I (act op) (fun _ _ => True) s :=
  keeps_bind _ (keeps_ask (P := fun _ _ => True) hE hop fun _ => trivial) fun _ _ _ _ =>
    keeps_ret fun _ => trivial

end Rules

end Catalog

end Obsy
