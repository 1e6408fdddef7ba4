import Obsy.Catalog.Recovery

/-!
# The upkeep of a durable catalog

* `keeps_pruneCatalogAt`: pruning keeps the catalog durable, wherever it stops.
* `withstands_writeCatalogSnapshot`: so does writing a snapshot.
* `acknowledges_commitLoop`: an acknowledged commit is one more durable commit.
-/

namespace Obsy

namespace Catalog

open Machine Machine.Program

variable {digests : Digests} {ok : RequestFate → Prop} {process : ProcessId}
  {chain : List CatalogCommit} {kept : Kept} {hits : List Hit} {s : Shared}

/-! ### Pruning -/

/-- Whatever fails, a program keeps a durable catalog. -/
abbrev withstands {α : Type} (I : Shared → Prop) (p : CatalogProgram α) (P : α → Shared → Prop)
    (s : Shared) : Prop := keeps (fun _ => True) True I p P s

theorem withstands_catalogSnapshotIsIntact (generation : ℕ) :
    withstands (Durable digests process chain kept hits)
      (catalogSnapshotIsIntact digests generation)
      (fun intact t => intact = true → ∀ replica, ∃ snapshot,
        readSnapshot digests t replica generation = .ok (some snapshot)) s := by
  refine keeps_bind _ (keeps_loadSnapshotReplica (fun _ _ _ => trivial) .a generation)
    fun first t _ hfirst => ?_
  refine keeps_bind _ (keeps_loadSnapshotReplica (fun _ _ _ => trivial) .b generation)
    fun second u htu hsecond => ?_
  split
  · next first second =>
    split_ifs
    · exact keeps_pure fun _ h => (by cases h)
    have hboth : ∀ v, u.Holds v → ∀ replica, ∃ snapshot,
        readSnapshot digests v replica generation = .ok (some snapshot) := fun v huv replica => by
      cases replica with
      | a => exact ⟨first, (htu.trans huv).readSnapshot (hfirst.1 first rfl).2⟩
      | b => exact ⟨second, huv.readSnapshot (hsecond.1 second rfl).2⟩
    refine keeps_of_inv fun hu => ?_
    refine keeps_bind _ (keeps_attempt (keeps_loadCatalogCommit (E := True) (fun _ _ _ => trivial)
      hu.bearable (.inl trivial))) fun commit v huv _ => ?_
    cases commit with
    | ok commit => exact keeps_pure fun _ _ => hboth v huv
    | error e => exact keeps_pure fun _ h => (by cases h)
  · exact keeps_pure fun _ h => (by cases h)

theorem withstands_newestIntact (wanted : ℕ) {generations : List ℕ}
    (hsorted : generations.Pairwise (· > ·)) :
    withstands (Durable digests process chain kept hits) (newestIntact digests wanted generations)
      (fun verified t => verified.Pairwise (· > ·) ∧ verified ⊆ generations ∧
        ∀ generation ∈ verified, ∀ replica, ∃ snapshot,
          readSnapshot digests t replica generation = .ok (some snapshot)) s := by
  have hnone : ∀ generations t, withstands (Durable digests process chain kept hits)
      (return [] : CatalogProgram (List ℕ)) (fun verified t => verified.Pairwise (· > ·) ∧
        verified ⊆ generations ∧ ∀ generation ∈ verified, ∀ replica, ∃ snapshot,
          readSnapshot digests t replica generation = .ok (some snapshot)) t :=
    fun generations t => keeps_pure fun _ =>
      ⟨List.Pairwise.nil, List.nil_subset _, fun _ h => (by cases h)⟩
  induction generations generalizing wanted s with
  | nil => cases wanted <;> exact hnone _ _
  | cons generation rest ih =>
    obtain ⟨hnewer, hrest⟩ := List.pairwise_cons.1 hsorted
    cases wanted with
    | zero => exact hnone _ _
    | succ wanted =>
      refine keeps_bind _ (withstands_catalogSnapshotIsIntact generation)
        fun intact t _ hintact => ?_
      split_ifs with h
      · refine keeps_bind _ (ih wanted hrest) fun older u htu holder => ?_
        refine keeps_pure fun _ => ⟨List.pairwise_cons.2 ⟨fun g hg => hnewer g (holder.2.1 hg),
          holder.1⟩, List.cons_subset_cons _ holder.2.1, fun g hg replica => ?_⟩
        rcases List.mem_cons.1 hg with rfl | hg
        · obtain ⟨snapshot, hread⟩ := hintact h replica
          exact ⟨snapshot, htu.readSnapshot hread⟩
        · exact holder.2.2 g hg replica
      · exact keeps_mono (ih (wanted + 1) hrest) fun verified u h =>
          ⟨h.1, List.subset_cons_of_subset _ h.2.1, h.2.2⟩

section Losses

variable {hits' : List Hit} {t : Shared}

/-- A change after which less can be read, of what is not needed or was hit. -/
theorem Durable.of_less (h : Durable digests process chain kept hits s) (hhits : hits ⊆ hits')
    (hbearable : Bearable hits')
    (hwithin : ∀ replica generation, ((t.store.commits replica).find generation).isSome →
      ((s.store.commits replica).find generation).isSome)
    (hcommits : ∀ replica generation commit,
      readCommit digests t replica generation = .ok (some commit) →
        readCommit digests s replica generation = .ok (some commit))
    (hsnapshots : ∀ replica generation snapshot,
      readSnapshot digests t replica generation = .ok (some snapshot) →
        readSnapshot digests s replica generation = .ok (some snapshot))
    (hthere : ∀ replica generation, kept.floor ≤ generation →
      (⟨.commits, replica, generation⟩ : Hit) ∈ hits' ∨
        readCommit digests t replica generation = readCommit digests s replica generation)
    (hheld : ∀ replica generation, kept.floor ≤ generation →
      (⟨.snapshots, replica, generation⟩ : Hit) ∈ hits' ∨
        readSnapshot digests t replica generation = readSnapshot digests s replica generation)
    (hcached : (t.processes process).cached = (s.processes process).cached)
    (hlegacy : t.store.legacy = s.store.legacy) :
    Durable digests process chain kept hits' t where
  replays := h.replays
  sealed := h.sealed
  bearable := hbearable
  within replica generation hsome := h.within replica generation (hwithin _ _ hsome)
  right replica generation commit hread := h.right _ _ _ (hcommits _ _ _ hread)
  there generation hfloor hpos hle replica := by
    rcases hthere replica generation hfloor with hhit | hsame
    · exact .inl hhit
    · rw [hsame]
      exact (h.there generation hfloor hpos hle replica).imp (fun hhit => hhits hhit) id
  snapshots replica generation snapshot hread := h.snapshots _ _ _ (hsnapshots _ _ _ hread)
  ordered := h.ordered
  held p hp generation hgeneration replica := by
    have hfloor : kept.floor ≤ generation := by
      obtain rfl : kept = some p := hp
      have hordered := h.ordered p rfl
      show p.1 ≤ generation
      omega
    rcases hheld replica generation hfloor with hhit | hsame
    · exact .inl hhit
    · rw [hsame]
      exact (h.held p hp generation hgeneration replica).imp (fun hhit => hhits hhit) id
  cached state hstate := h.cached state (hcached ▸ hstate)
  legacy legacy := by rw [hlegacy]; exact h.legacy legacy

theorem Shelf.find_remove {α : Type} (shelf : Shelf α) (generation other : ℕ) :
    (shelf.remove generation).find other =
      if generation = other then none else shelf.find other := by
  unfold Shelf.find Shelf.remove
  rw [List.find?_filter]
  split_ifs with h
  · subst h
    rw [Option.map_eq_none_iff, List.find?_eq_none]
    simp
  · congr 2
    funext x
    by_cases hx : x.1 = other
    · simp [hx, Ne.symm h]
    · simp [hx]

/-- Whether an object was read. -/
def isRead {α : Type} : Except CatalogError (Option α) → Bool
  | .ok (some _) => true
  | _ => false

theorem not_read {α : Type} {result : Except CatalogError (Option α)} (h : isRead result = false)
    (object : α) : result ≠ .ok (some object) := by
  rintro rfl
  cases h

/-- One replica of a commit cannot be read any more: it is not needed, or it was hit. -/
theorem Durable.lessCommit (h : Durable digests process chain kept hits s) (hhits : hits ⊆ hits')
    (hbearable : Bearable hits') {replica : Replica} {generation : ℕ}
    (hother : ∀ r g, ¬ (r = replica ∧ generation = g) →
      (t.store.commits r).find g = (s.store.commits r).find g)
    (hread : isRead (readCommit digests t replica generation) = false)
    (hsome : ((t.store.commits replica).find generation).isSome →
      ((s.store.commits replica).find generation).isSome)
    (hneed : generation < kept.floor ∨ (⟨.commits, replica, generation⟩ : Hit) ∈ hits')
    (hsnapshots : t.store.snapshots = s.store.snapshots)
    (hcached : (t.processes process).cached = (s.processes process).cached)
    (hlegacy : t.store.legacy = s.store.legacy) :
    Durable digests process chain kept hits' t := by
  have hsnapshot : ∀ r g, readSnapshot digests t r g = readSnapshot digests s r g := fun r g => by
    unfold readSnapshot
    rw [hsnapshots]
  refine h.of_less hhits hbearable (fun r g hfound => ?_) (fun r g commit hfound => ?_)
    (fun r g snapshot hfound => (hsnapshot r g) ▸ hfound) (fun r g hfloor => ?_)
    (fun r g _ => .inr (hsnapshot r g)) hcached hlegacy
  · by_cases hat : r = replica ∧ generation = g
    · obtain ⟨rfl, rfl⟩ := hat
      exact hsome hfound
    · rwa [hother r g hat] at hfound
  · by_cases hat : r = replica ∧ generation = g
    · obtain ⟨rfl, rfl⟩ := hat
      exact absurd hfound (not_read hread commit)
    · unfold readCommit at hfound ⊢
      rwa [hother r g hat] at hfound
  · by_cases hat : r = replica ∧ generation = g
    · obtain ⟨rfl, rfl⟩ := hat
      exact .inl (hneed.resolve_left (by omega))
    · right
      unfold readCommit
      rw [hother r g hat]

/-- One replica of a snapshot cannot be read any more: it is not needed, or it was hit. -/
theorem Durable.lessSnapshot (h : Durable digests process chain kept hits s) (hhits : hits ⊆ hits')
    (hbearable : Bearable hits') {replica : Replica} {generation : ℕ}
    (hother : ∀ r g, ¬ (r = replica ∧ generation = g) →
      (t.store.snapshots r).find g = (s.store.snapshots r).find g)
    (hread : isRead (readSnapshot digests t replica generation) = false)
    (hneed : generation < kept.floor ∨ (⟨.snapshots, replica, generation⟩ : Hit) ∈ hits')
    (hcommits : t.store.commits = s.store.commits)
    (hcached : (t.processes process).cached = (s.processes process).cached)
    (hlegacy : t.store.legacy = s.store.legacy) :
    Durable digests process chain kept hits' t := by
  have hcommit : ∀ r g, readCommit digests t r g = readCommit digests s r g := fun r g => by
    unfold readCommit
    rw [hcommits]
  refine h.of_less hhits hbearable (fun r g hfound => by rwa [hcommits] at hfound)
    (fun r g commit hfound => (hcommit r g) ▸ hfound) (fun r g snapshot hfound => ?_)
    (fun r g _ => .inr (hcommit r g)) (fun r g hfloor => ?_) hcached hlegacy
  · by_cases hat : r = replica ∧ generation = g
    · obtain ⟨rfl, rfl⟩ := hat
      exact absurd hfound (not_read hread snapshot)
    · unfold readSnapshot at hfound ⊢
      rwa [hother r g hat] at hfound
  · by_cases hat : r = replica ∧ generation = g
    · obtain ⟨rfl, rfl⟩ := hat
      exact .inl (hneed.resolve_left (by omega))
    · right
      unfold readSnapshot
      rw [hother r g hat]

/-- A change of one replica's objects that looks up one name anew. -/
theorem find_update {α : Type} (shelves : Replica → Shelf α) (replica : Replica) {shelf : Shelf α}
    {generation : ℕ} {found : Option α} (hfind : ∀ g, shelf.find g =
      if generation = g then found else (shelves replica).find g) (r : Replica) (g : ℕ) :
    (Function.update shelves replica shelf r).find g =
      if r = replica ∧ generation = g then found else (shelves r).find g := by
  rcases eq_or_ne r replica with rfl | hne
  · rw [Function.update_self, hfind]
    simp
  · rw [Function.update_of_ne hne, if_neg fun h => hne h.1]

/-- A commit that is deleted is not needed or was hit. -/
theorem Durable.deleteCommit (h : Durable digests process chain kept hits s) (hhits : hits ⊆ hits')
    (hbearable : Bearable hits') (replica : Replica) {generation : ℕ}
    (hneed : generation < kept.floor ∨ (⟨.commits, replica, generation⟩ : Hit) ∈ hits') :
    Durable digests process chain kept hits' (s.effect (.deleteCommit replica generation)) := by
  have hfind := find_update s.store.commits replica
    (Shelf.find_remove (s.store.commits replica) generation)
  have hgone : ((s.effect (.deleteCommit replica generation)).store.commits replica).find
      generation = none := (hfind replica generation).trans (if_pos ⟨rfl, rfl⟩)
  refine h.lessCommit hhits hbearable (fun r g hat => (hfind r g).trans (if_neg hat)) ?_
    (fun hsome => ?_) hneed rfl rfl rfl
  · unfold readCommit
    rw [hgone]
    rfl
  · rw [hgone] at hsome
    cases hsome

/-- A snapshot that is deleted is not needed or was hit. -/
theorem Durable.deleteSnapshot (h : Durable digests process chain kept hits s)
    (hhits : hits ⊆ hits') (hbearable : Bearable hits') (replica : Replica) {generation : ℕ}
    (hneed : generation < kept.floor ∨ (⟨.snapshots, replica, generation⟩ : Hit) ∈ hits') :
    Durable digests process chain kept hits' (s.effect (.deleteSnapshot replica generation)) := by
  have hfind := find_update s.store.snapshots replica
    (Shelf.find_remove (s.store.snapshots replica) generation)
  have hgone : ((s.effect (.deleteSnapshot replica generation)).store.snapshots replica).find
      generation = none := (hfind replica generation).trans (if_pos ⟨rfl, rfl⟩)
  refine h.lessSnapshot hhits hbearable (fun r g hat => (hfind r g).trans (if_neg hat)) ?_
    hneed rfl rfl rfl
  unfold readSnapshot
  rw [hgone]
  rfl

/-- Two snapshots that read on both replicas can be kept from now on. -/
theorem Durable.keep (h : Durable digests process chain kept hits s) {older newer : ℕ}
    (hlt : older < newer) (hintact : ∀ generation, generation = older ∨ generation = newer →
      ∀ replica, ∃ snapshot, readSnapshot digests s replica generation = .ok (some snapshot)) :
    ∃ kept' : Kept, older ≤ kept'.floor ∧ Durable digests process chain kept' hits s := by
  rcases Nat.lt_or_ge older kept.floor with hbelow | hfloor
  · exact ⟨kept, hbelow.le, h⟩
  refine ⟨some (older, newer), le_rfl, h.replays, h.sealed, h.bearable, h.within, h.right,
    fun generation hge => h.there generation (hfloor.trans hge), h.snapshots, ?_, ?_, h.cached,
    h.legacy⟩
  · rintro p ⟨⟩
    exact hlt
  · rintro p ⟨⟩ generation hgeneration replica
    exact .inr (hintact generation hgeneration replica)

end Losses

/-- A catalog that is durable, whichever snapshots are kept. -/
def Recoverable (digests : Digests) (process : ProcessId) (chain : List CatalogCommit)
    (hits : List Hit) (s : Shared) : Prop := ∃ kept, Durable digests process chain kept hits s

theorem preserves_ask {I : Shared → Prop} {op : CatalogOp} (h : ∀ s, I s → I (s.effect op)) :
    Preserves (catalogDevice.restrict ok) (fun _ s => I s) I (ask op) := by
  intro m s hs
  refine ⟨hs, fun f => ?_⟩
  unfold Device.restrict catalogDevice
  dsimp only
  split_ifs
  · exact h s hs
  · exact hs
  · exact h s hs

theorem preserves_act {I : Shared → Prop} {op : CatalogOp} (h : ∀ s, I s → I (s.effect op)) :
    Preserves (catalogDevice.restrict ok) (fun _ s => I s) I (act op) :=
  (preserves_ask h).bind fun _ => preserves_ret ()

theorem preserves_deleteSuperseded {oldestKept : ℕ} (hold : oldestKept ≤ kept.floor)
    (cutoff : Millis) (lastModified : CatalogKind → Replica → ℕ → Millis) (kind : CatalogKind)
    (replica : Replica) :
    Preserves (catalogDevice.restrict ok)
      (fun _ s => Durable digests process chain kept hits s)
      (Durable digests process chain kept hits)
      (deleteSuperseded oldestKept cutoff lastModified kind replica) := by
  have hlist : Preserves (catalogDevice.restrict ok)
      (fun _ s => Durable digests process chain kept hits s)
      (Durable digests process chain kept hits) (listReplica kind replica) := by
    cases kind with
    | commits => exact preserves_ask fun s hs =>
        (hs.effect (show Permitted digests chain (.listCommits replica 0) from trivial)).1
    | snapshots => exact preserves_ask fun s hs =>
        (hs.effect (show Permitted digests chain (.listSnapshots replica) from trivial)).1
  refine hlist.bind fun generations => ?_
  -- every generation that is deleted is older than those that are kept
  suffices hall : ∀ xs : List ℕ, (∀ g ∈ xs, g < oldestKept) →
      Preserves (catalogDevice.restrict ok) (fun _ s => Durable digests process chain kept hits s)
        (Durable digests process chain kept hits) (each (deleteReplica kind replica) xs) by
    refine Preserves.bind (hall _ fun g hg => ?_) fun _ => preserves_ret _
    have hboth := (List.mem_filter.1 hg).2
    rw [Bool.and_eq_true] at hboth
    exact of_decide_eq_true hboth.1
  intro xs hxs
  induction xs with
  | nil => exact preserves_ret _
  | cons g xs ih =>
    have hg : g < kept.floor := (hxs g List.mem_cons_self).trans_le hold
    refine Preserves.bind ?_ fun _ => (ih fun x hx => hxs x (List.mem_cons_of_mem _ hx)).bind
      fun _ => preserves_ret _
    cases kind with
    | commits => exact preserves_act fun s hs =>
        hs.deleteCommit (List.Subset.refl _) hs.bearable replica (.inl hg)
    | snapshots => exact preserves_act fun s hs =>
        hs.deleteSnapshot (List.Subset.refl _) hs.bearable replica (.inl hg)

/-- **Pruning keeps the catalog durable**, wherever it stops. -/
theorem keeps_pruneCatalogAt (minAge now : Millis)
    (lastModified : CatalogKind → Replica → ℕ → Millis)
    (hs : Recoverable digests process chain hits s) :
    (pruneCatalogAt digests minAge now lastModified).wp (catalogDevice.restrict fun _ => True)
      ⟨fun _ _ t => Recoverable digests process chain hits t,
        fun _ _ t => Recoverable digests process chain hits t,
        Recoverable digests process chain hits⟩ () s := by
  obtain ⟨kept, hs⟩ := hs
  unfold pruneCatalogAt
  refine wp_seq (wp_mono (keeps_snapshotGenerations (E := True) (fun _ _ _ => trivial) hs)
    (fun _ _ _ ht => ht) (fun _ _ t ht => ⟨kept, ht.2.1⟩) fun t ht => ⟨kept, ht⟩)
    fun generations _ t ht => ?_
  obtain ⟨ht, -, hgenerations, -⟩ := ht
  refine wp_seq (wp_mono (withstands_newestIntact 2 (List.pairwise_reverse.2 hgenerations) ht)
    (fun _ _ _ hu => hu) (fun _ _ u hu => ⟨kept, hu.2.1⟩) fun u hu => ⟨kept, hu⟩)
    fun verified _ u hu => ?_
  obtain ⟨ht, -, hsorted, -, hintact⟩ := hu
  split
  · next newer older =>
    split_ifs
    · exact ⟨kept, ht⟩
    have hlt : older < newer := List.rel_of_pairwise_cons hsorted (List.mem_singleton.2 rfl)
    obtain ⟨kept', hold, ht'⟩ := ht.keep hlt fun generation hgeneration replica => by
      refine hintact generation ?_ replica
      rcases hgeneration with rfl | rfl
      · exact List.mem_cons_of_mem _ (List.mem_singleton.2 rfl)
      · exact List.mem_cons_self
    have hkind : ∀ x : CatalogKind × Replica, Preserves (catalogDevice.restrict fun _ => True)
        (fun _ s => Durable digests process chain kept' hits s)
        (Durable digests process chain kept' hits)
        (deleteSuperseded older (now - minAge) lastModified x.1 x.2) :=
      fun x => preserves_deleteSuperseded hold _ _ x.1 x.2
    have hdelete := (preserves_each hkind
      [(.snapshots, .a), (.snapshots, .b), (.commits, .a), (.commits, .b)]).bind
        fun removed => preserves_ret (ε := CatalogError) removed.sum
    exact wp_mono (hdelete () u ht') (fun _ _ _ hu => ⟨kept', hu⟩) (fun _ _ _ hu => ⟨kept', hu⟩)
      fun _ hu => ⟨kept', hu⟩
  · exact ⟨kept, ht⟩

/-! ### Committing -/

/-- The state with a mutation on top of it. -/
def acknowledge (digests : Digests) (state : CatalogState) (mutation : CatalogMutation) :
    Except CatalogError CatalogState :=
  match checkedSucc state.generation with
  | none => .error .overflow
  | some generation => applyCatalogMutation state (nextCommit digests state generation mutation)

/-- What an acknowledged mutation leaves: one more commit, or the same ones. -/
def Recorded (digests : Digests) (process : ProcessId) (chain : List CatalogCommit)
    (hits : List Hit) (c : Committed) (s : Shared) : Prop :=
  (c.ack ≠ .produced ∧ Recoverable digests process chain hits s) ∨
    (c.ack = .produced ∧ ∃ state commit next, replayChain chain = .ok state ∧
      replayChain (chain ++ [commit]) = .ok next ∧
      acknowledge digests state c.mutation = .ok next ∧
      Recoverable digests process (chain ++ [commit]) hits s)

/-- What must hold before a program for an acknowledgement to be recorded. -/
abbrev acknowledges {α : Type} (p : CatalogProgram α) (P : α → Shared → Prop) (s : Shared) : Prop :=
  p.wp (catalogDevice.restrict fun _ => True) ⟨fun a _ t => P a t, fun _ _ _ => True,
    fun _ => True⟩ () s

section Acknowledges

variable {α β : Type} {P Q : α → Shared → Prop}

theorem acknowledges_bind {p : CatalogProgram β} {k : β → CatalogProgram α} (R : β → Shared → Prop)
    (hp : acknowledges p R s) (hk : ∀ b t, R b t → acknowledges (k b) P t) :
    acknowledges (p >>= k) P s := wp_seq hp fun b _ t ht => hk b t ht

theorem acknowledges_ask {op : CatalogOp} {P : op.Res → Shared → Prop}
    (h : P (s.answer op) (s.effect op)) : acknowledges (ask op) P s := by
  refine ⟨trivial, fun f => ?_⟩
  unfold Device.restrict catalogDevice
  dsimp only
  split_ifs
  · trivial
  · trivial
  · exact h

theorem acknowledges_act {op : CatalogOp} {P : Unit → Shared → Prop} (h : P () (s.effect op)) :
    acknowledges (act op) P s :=
  acknowledges_bind (fun _ t => P () t) (acknowledges_ask h) fun _ _ ht => ht

/-- A program that keeps an invariant. -/
theorem acknowledges_of_keeps {I : Shared → Prop} {p : CatalogProgram α}
    (h : withstands I p P s) (hs : I s) : acknowledges p (fun a t => I t ∧ P a t) s :=
  wp_mono (h hs) (fun _ _ _ ht => ⟨ht.1, ht.2.2⟩) (fun _ _ _ _ => trivial) fun _ _ => trivial

end Acknowledges

theorem CommitAt.append {commit : CatalogCommit} {generation : ℕ} {other : CatalogCommit}
    (h : CommitAt chain generation other) : CommitAt (chain ++ [commit]) generation other := by
  obtain ⟨i, rfl, hi⟩ := h
  exact ⟨i, rfl, by rw [List.getElem?_append_left (List.getElem?_eq_some_iff.1 hi).1, hi]⟩

theorem SnapshotAt.append {commit : CatalogCommit} {generation : ℕ} {snapshot : CatalogSnapshot}
    (h : SnapshotAt digests chain generation snapshot) :
    SnapshotAt digests (chain ++ [commit]) generation snapshot := by
  obtain ⟨hle, state, hstate, rfl⟩ := h
  refine ⟨by rw [List.length_append]; omega, state, ?_, rfl⟩
  rw [List.take_append_of_le_length hle]
  exact hstate

/-- One more commit, with both replicas. -/
theorem Durable.concat {t : Shared} (h : Durable digests process chain kept hits s)
    {state next : CatalogState} {mutation : CatalogMutation}
    (hnext : replayChain (chain ++ [nextCommit digests state (chain.length + 1) mutation]) = .ok next)
    (hcommits : ∀ replica generation, (t.store.commits replica).find generation =
      if chain.length + 1 = generation then
        some (nextCommit digests state (chain.length + 1) mutation)
      else (s.store.commits replica).find generation)
    (hsnapshots : t.store.snapshots = s.store.snapshots)
    (hcached : (t.processes process).cached = some next)
    (hlegacy : t.store.legacy = s.store.legacy) :
    Durable digests process (chain ++ [nextCommit digests state (chain.length + 1) mutation]) kept
      hits t := by
  set commit := nextCommit digests state (chain.length + 1) mutation with hcommit
  have hsealed : verifyCommit digests commit = .ok () := verifyCommit_sealCommit digests _
  have hread : ∀ replica generation, generation ≠ chain.length + 1 →
      readCommit digests t replica generation = readCommit digests s replica generation := by
    intro replica generation hne
    unfold readCommit
    rw [hcommits, if_neg (Ne.symm hne)]
  have hlast : ∀ replica,
      readCommit digests t replica (chain.length + 1) = .ok (some commit) := by
    intro replica
    unfold readCommit
    rw [hcommits, if_pos rfl]
    exact checkReplica_some hsealed rfl
  have hsnapshot : ∀ replica generation,
      readSnapshot digests t replica generation = readSnapshot digests s replica generation := by
    intro replica generation
    unfold readSnapshot
    rw [hsnapshots]
  refine ⟨⟨next, hnext⟩, fun c hc => ?_, h.bearable, fun replica generation hsome => ?_,
    fun replica generation c hc => ?_, fun generation hfloor hpos hle replica => ?_,
    fun replica generation snapshot hsnap => ?_, h.ordered, fun p hp generation hg replica => ?_,
    fun seen hseen => ?_, fun legacy => by rw [hlegacy]; exact h.legacy legacy⟩
  · rcases List.mem_append.1 hc with hc | hc
    · exact h.sealed c hc
    · rw [List.mem_singleton.1 hc]
      exact hsealed
  · rw [List.length_append, List.length_singleton]
    rw [hcommits] at hsome
    split_ifs at hsome with hgeneration
    · exact hgeneration.ge
    · exact (h.within replica generation hsome).trans (Nat.le_succ _)
  · rcases eq_or_ne generation (chain.length + 1) with rfl | hne
    · rw [hlast] at hc
      cases hc
      exact ⟨chain.length, rfl, by simp⟩
    · rw [hread replica generation hne] at hc
      exact (h.right replica generation c hc).append
  · rcases eq_or_ne generation (chain.length + 1) with rfl | hne
    · exact .inr ⟨commit, hlast replica⟩
    · rw [hread replica generation hne]
      rw [List.length_append, List.length_singleton] at hle
      exact h.there generation hfloor hpos (by omega) replica
  · rw [hsnapshot] at hsnap
    exact (h.snapshots replica generation snapshot hsnap).append
  · rw [hsnapshot]
    exact h.held p hp generation hg replica
  · rw [hcached] at hseen
    cases hseen
    exact hnext

/-- What is found after a commit was created. -/
theorem find_createCommit {replica : Replica} {generation : ℕ} {commit : CatalogCommit}
    (hfree : (s.store.commits replica).find generation = none) (other : Replica) (g : ℕ) :
    (((s.effect (.createCommit replica generation commit)).store.commits other).find g) =
      if other = replica ∧ generation = g then some commit
      else (s.store.commits other).find g := by
  unfold Shared.effect
  dsimp only
  rw [hfree, if_neg (by exact Bool.false_ne_true)]
  exact find_update s.store.commits replica (fun g => Shelf.find_add hfree) other g

/-- A new commit changes nothing else. -/
theorem createCommit_rest (replica : Replica) (generation : ℕ) (commit : CatalogCommit) :
    (s.effect (.createCommit replica generation commit)).store.snapshots = s.store.snapshots ∧
      (s.effect (.createCommit replica generation commit)).store.legacy = s.store.legacy := by
  unfold Shared.effect
  dsimp only
  split_ifs <;> exact ⟨rfl, rfl⟩

theorem withstands_writeSnapshotReplica {snapshot : CatalogSnapshot}
    (hat : SnapshotAt digests chain snapshot.generation snapshot) (replica : Replica) :
    withstands (Durable digests process chain kept hits) (writeSnapshotReplica snapshot replica)
      (fun _ _ => True) s := by
  refine keeps_bind (fun _ _ => True) (keeps_ask (fun _ _ _ => trivial)
    (fun hs => hs.effect hat) fun _ => trivial) fun created t _ _ => ?_
  split_ifs
  · exact keeps_pure fun _ => trivial
  refine keeps_bind (fun _ _ => True) (keeps_ask (fun _ _ _ => trivial)
    (fun hs => hs.effect trivial) fun _ => trivial) fun existing u _ _ => ?_
  split
  · exact keeps_throw _ fun _ => trivial
  · split_ifs
    · exact keeps_pure fun _ => trivial
    · exact keeps_throw _ fun _ => trivial

/-- A snapshot of what all commits make may be written, wherever that stops. -/
theorem withstands_writeCatalogSnapshot {state : CatalogState}
    (hstate : replayChain chain = .ok state) :
    withstands (Durable digests process chain kept hits) (writeCatalogSnapshot digests state)
      (fun _ _ => True) s := by
  have hat : SnapshotAt digests chain (snapshotOf digests state).generation
      (snapshotOf digests state) := by
    have hgeneration : (snapshotOf digests state).generation = chain.length :=
      replayChain_generation hstate
    rw [hgeneration]
    exact ⟨le_rfl, state, by rw [List.take_length]; exact hstate, rfl⟩
  exact keeps_bind _ (withstands_writeSnapshotReplica hat .a) fun _ t _ _ =>
    withstands_writeSnapshotReplica hat .b

/-- The commit of a mutation on what all commits make. -/
theorem acknowledges_createCommit (hs : Durable digests process chain kept hits s)
    {state : CatalogState} (hstate : replayChain chain = .ok state) (mutation : CatalogMutation)
    (held : ℕ) (again : CatalogProgram Committed) :
    acknowledges (createCommit digests process mutation state held again)
      (Recorded digests process chain hits) s := by
  have hlength := replayChain_generation hstate
  unfold createCommit
  cases hsucc : checkedSucc state.generation with
  | none => exact trivial
  | some generation =>
    dsimp only
    obtain rfl := checkedSucc_eq_some hsucc
    rw [hlength]
    set commit := nextCommit digests state (chain.length + 1) mutation with hcommit
    cases happly : applyCatalogMutation state commit with
    | error e => exact trivial
    | ok next =>
      have hnext : replayChain (chain ++ [commit]) = .ok next := by
        rw [replayChain_concat]
        exact bind_eq_ok.2 ⟨state, hstate, happly⟩
      show acknowledges (if _ then _ else _) _ _
      split_ifs
      · refine acknowledges_bind _ (acknowledges_act (P := fun _ t => t = s.effect _) rfl) ?_
        rintro _ t rfl
        exact .inl ⟨fun h => (by cases h), kept, (hs.effect
          (show Permitted digests chain (.setCached process (some state)) from hstate)).1⟩
      -- both names are free
      have hfree : ∀ replica, (s.store.commits replica).find (chain.length + 1) = none := by
        intro replica
        rw [← Option.not_isSome_iff_eq_none]
        intro hsome
        exact absurd (hs.within replica _ hsome) (by omega)
      refine acknowledges_bind (fun (created : Bool) t => created = true ∧
        t = s.effect (.createCommit .a (chain.length + 1) commit)) (acknowledges_ask ⟨?_, rfl⟩) ?_
      · show ((s.store.commits .a).find (chain.length + 1)).isNone = true
        rw [hfree]
        rfl
      rintro created t ⟨rfl, rfl⟩
      set t := s.effect (.createCommit .a (chain.length + 1) commit) with ht
      have hfreeB : (t.store.commits .b).find (chain.length + 1) = none := by
        rw [ht, find_createCommit (hfree .a), if_neg (by simp)]
        exact hfree .b
      rw [if_pos rfl]
      refine acknowledges_bind (fun _ v => Durable digests process (chain ++ [commit]) kept hits v)
        ?_ fun _ v hv => .inr ⟨rfl, state, commit, next, hstate, hnext, ?_, kept, hv⟩
      · refine acknowledges_bind (fun _ u =>
          u = t.effect (.createCommit .b (chain.length + 1) commit)) ?_ ?_
        · refine acknowledges_bind (fun (created : Bool) u => created = true ∧
            u = t.effect (.createCommit .b (chain.length + 1) commit))
            (acknowledges_ask ⟨?_, rfl⟩) ?_
          · show ((t.store.commits .b).find (chain.length + 1)).isNone = true
            rw [hfreeB]
            rfl
          · rintro created u ⟨rfl, rfl⟩
            rfl
        rintro _ u rfl
        set u := t.effect (.createCommit .b (chain.length + 1) commit) with hu
        refine acknowledges_bind _ (acknowledges_act
          (P := fun _ v => v = u.effect (.setCached process (some next))) rfl) ?_
        rintro _ v rfl
        have hdurable : Durable digests process (chain ++ [commit]) kept hits
            (u.effect (.setCached process (some next))) := by
          refine hs.concat hnext (fun replica g => ?_) ?_ ?_ ?_
          · show ((u.store.commits replica).find g) = _
            rw [hu, find_createCommit hfreeB, ht, find_createCommit (hfree .a)]
            cases replica <;> simp [hcommit]
          · exact (createCommit_rest .b _ _).1.trans (createCommit_rest .a _ _).1
          · show (Function.update u.processes process _ process).cached = _
            rw [Function.update_self]
          · exact (createCommit_rest .b _ _).2.trans (createCommit_rest .a _ _).2
        show acknowledges (if _ then _ else _) _ _
        split_ifs
        · have hwrite : withstands (Durable digests process (chain ++ [commit]) kept hits)
              (attempt (writeCatalogSnapshot digests next) >>= fun
                (_ : Except CatalogError Unit) => pure ()) (fun _ _ => True)
              (u.effect (.setCached process (some next))) :=
            keeps_bind _ (keeps_attempt (withstands_writeCatalogSnapshot hnext)) fun _ _ _ _ =>
              keeps_pure fun _ => trivial
          exact wp_mono (hwrite hdurable) (fun _ _ _ h => h.1) (fun _ _ _ _ => trivial)
            fun _ _ => trivial
        · exact hdurable
      · unfold acknowledge
        rw [hsucc]
        dsimp only
        rw [hlength]
        exact happly

theorem acknowledges_checkEpoch {I : Shared → Prop} (observed : ℕ) (hs : I s)
    (hI : ∀ s, I s → I (s.effect (.epoch process))) :
    acknowledges (checkEpoch process observed) (fun _ t => I t) s := by
  refine acknowledges_bind (fun _ t => I t) (acknowledges_ask (hI s hs)) fun held t ht => ?_
  split_ifs
  · exact ht
  · exact trivial

/-- **The compare-and-create loop** records what it acknowledges. -/
theorem acknowledges_commitLoop (hs : Recoverable digests process chain hits s)
    (mutation : CatalogMutation) (attempts : ℕ) :
    acknowledges (commitLoop digests process mutation attempts)
      (fun c t => Recorded digests process chain hits c t) s := by
  induction attempts generalizing s with
  | zero => exact trivial
  | succ attempts ih =>
    obtain ⟨kept, hs⟩ := hs
    refine acknowledges_bind _ (acknowledges_of_keeps
      (keeps_loadCatalogState (E := True) fun _ _ _ => trivial) hs) fun r t ht => ?_
    obtain ⟨ht, hstate⟩ := ht
    obtain ⟨state, fromStore⟩ := r
    refine acknowledges_bind _ (acknowledges_checkEpoch state.writerEpoch ht fun _ h => h)
      fun held u hu => ?_
    dsimp only
    split_ifs
    · exact .inl ⟨fun h => (by cases h), kept, hu⟩
    · cases checkedSucc state.writerEpoch with
      | none => exact trivial
      | some expected =>
        dsimp only
        split_ifs
        · exact ih ⟨kept, hu⟩
        · exact acknowledges_createCommit hu hstate mutation held _
    · exact trivial
    · exact acknowledges_createCommit hu hstate mutation held _

/-- An acknowledged mutation, as `commit_catalog_mutation` reports it, is recorded. -/
theorem acknowledges_commitCatalogMutation (hs : Recoverable digests process chain hits s)
    (mutation : CatalogMutation) (fresh : TransactionId) :
    acknowledges (commitCatalogMutation digests process mutation fresh)
      (fun c t => Recorded digests process chain hits c t) s :=
  acknowledges_commitLoop hs _ _

theorem Recoverable.setEpoch (h : Recoverable digests process chain hits s) (epoch : ℕ) :
    Recoverable digests process chain hits (s.effect (.setEpoch process epoch)) :=
  h.imp fun _ hs => (hs.effect (show Permitted digests chain (.setEpoch process epoch) from trivial)).1

theorem acknowledges_claimWriterEpoch (hs : Recoverable digests process chain hits s)
    (transaction : TransactionId) :
    acknowledges (claimWriterEpoch digests process transaction)
      (fun c t => Recorded digests process chain hits c t) s := by
  obtain ⟨kept, hs⟩ := hs
  refine acknowledges_bind _ (acknowledges_of_keeps
    (keeps_loadCatalogState (E := True) fun _ _ _ => trivial) hs) fun r t ht => ?_
  obtain ⟨state, fromStore⟩ := r
  dsimp only
  cases checkedSucc state.writerEpoch with
  | none => exact trivial
  | some epoch =>
    refine acknowledges_bind _ (acknowledges_commitCatalogMutation ⟨kept, ht.1⟩ _ _)
      fun c u hu => ?_
    refine acknowledges_bind _ (acknowledges_act
      (P := fun _ v => v = u.effect (.setEpoch process c.state.writerEpoch)) rfl) ?_
    rintro _ v rfl
    refine hu.imp (fun h => ⟨h.1, h.2.setEpoch _⟩) fun h => ⟨h.1, ?_⟩
    obtain ⟨state, commit, next, hstate, hnext, hack, hrecoverable⟩ := h.2
    exact ⟨state, commit, next, hstate, hnext, hack, hrecoverable.setEpoch _⟩

end Catalog

end Obsy
