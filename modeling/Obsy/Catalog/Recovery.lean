import Obsy.Catalog.Durable

/-!
# Recovering the catalog

What a load of a durable catalog gives, whatever was damaged, lost or deleted.

* `keeps_loadLatestSnapshot`: the newest snapshot that reads is no older than one that is kept.
* `keeps_commitGenerations`: every commit that may be read is listed.
* `keeps_loadCatalogState`: a load gives what all commits make, and it fails only if a request
  does.
-/

namespace Obsy

namespace Catalog

open Machine Machine.Program

variable {digests : Digests} {ok : RequestFate → Prop} {E : Prop} {process : ProcessId}
  {chain : List CatalogCommit} {kept : Kept} {hits : List Hit} {s : Shared}

/-! ### Reading replicas -/

/-- A generation whose commit may be read. -/
def InReach (chain : List CatalogCommit) (kept : Kept) (generation : ℕ) : Prop :=
  kept.floor ≤ generation ∧ 0 < generation ∧ generation ≤ chain.length

theorem keeps_loadCommitReplica (hE : ∀ f, ok f → f.fails = true → E) (replica : Replica)
    (generation : ℕ) :
    keeps ok E (Durable digests process chain kept hits)
      (loadCommitReplica digests replica generation)
      (fun r _ => (∀ commit, r = .ok (some commit) → CommitAt chain generation commit) ∧
        (E ∨ (InReach chain kept generation →
          (⟨.commits, replica, generation⟩ : Hit) ∉ hits → ∃ commit, r = .ok (some commit)))) s := by
  refine keeps_bind (fun bytes t => bytes = .ok ((t.store.commits replica).find generation) ∨
    (E ∧ bytes = .error .io)) (keeps_perform hE (fun hs => hs.effect trivial)
      (fun _ => .inl rfl) fun hE _ => .inr ⟨hE, rfl⟩) fun bytes t _ hbytes => ?_
  rcases hbytes with rfl | ⟨hE, rfl⟩
  · refine keeps_pure fun ht => ⟨fun commit hread => ht.right replica generation commit hread, ?_⟩
    exact .inr fun hreach hhit =>
      (ht.there generation hreach.1 hreach.2.1 hreach.2.2 replica).resolve_left hhit
  · exact keeps_pure fun _ => ⟨fun _ h => (by cases h), .inl hE⟩

theorem keeps_loadSnapshotReplica (hE : ∀ f, ok f → f.fails = true → E) (replica : Replica)
    (generation : ℕ) :
    keeps ok E (Durable digests process chain kept hits)
      (loadSnapshotReplica digests replica generation)
      (fun r t => (∀ snapshot, r = .ok (some snapshot) →
          SnapshotAt digests chain generation snapshot ∧
            readSnapshot digests t replica generation = .ok (some snapshot)) ∧
        (E ∨ ((∃ p ∈ kept, generation = p.1 ∨ generation = p.2) →
          (⟨.snapshots, replica, generation⟩ : Hit) ∉ hits →
            ∃ snapshot, r = .ok (some snapshot)))) s := by
  refine keeps_bind (fun bytes t => bytes = .ok ((t.store.snapshots replica).find generation) ∨
    (E ∧ bytes = .error .io)) (keeps_perform hE (fun hs => hs.effect trivial)
      (fun _ => .inl rfl) fun hE _ => .inr ⟨hE, rfl⟩) fun bytes t _ hbytes => ?_
  rcases hbytes with rfl | ⟨hE, rfl⟩
  · refine keeps_pure fun ht =>
      ⟨fun snapshot hread => ⟨ht.snapshots replica generation snapshot hread, hread⟩, ?_⟩
    exact .inr fun ⟨p, hp, hgeneration⟩ hhit =>
      (ht.held p hp generation hgeneration replica).resolve_left hhit
  · exact keeps_pure fun _ => ⟨fun _ h => (by cases h), .inl hE⟩

/-- What is read from two replicas, when one of them reads. -/
theorem keeps_fromReplicas {α : Type} {I : Shared → Prop} {generation : ℕ} {digestOf : α → String}
    {create : Replica → α → CatalogProgram Bool} {P : α → Prop}
    (hcreate : ∀ replica object t, P object →
      keeps ok E I (create replica object) (fun _ _ => True) t)
    (hunique : ∀ object object', P object → P object' → object = object')
    {first second : Except CatalogError (Option α)}
    (hfirst : ∀ object, first = .ok (some object) → P object)
    (hsecond : ∀ object, second = .ok (some object) → P object)
    (hreads : E ∨ (∃ object, first = .ok (some object)) ∨ ∃ object, second = .ok (some object)) :
    keeps ok E I (fromReplicas generation digestOf create first second) (fun object _ => P object)
      s := by
  have hrepair : ∀ replica object, P object →
      keeps ok E I (do let _ ← create replica object; return object) (fun object _ => P object)
        s := fun replica object hobject =>
    keeps_bind _ (hcreate replica object s hobject) fun _ _ _ _ => keeps_pure fun _ => hobject
  have hthrow : ∀ e, (¬ ∃ object, first = .ok (some object)) →
      (¬ ∃ object, second = .ok (some object)) →
        keeps ok E I (throw e : CatalogProgram α) (fun object _ => P object) s :=
    fun e hno hno' => keeps_throw e fun _ => hreads.resolve_right fun h => h.elim hno hno'
  unfold fromReplicas
  split
  · split_ifs with hdigest
    · exact absurd (congrArg digestOf (hunique _ _ (hfirst _ rfl) (hsecond _ rfl))) hdigest
    · exact keeps_pure fun _ => hfirst _ rfl
  · exact hrepair .b _ (hfirst _ rfl)
  · exact hrepair .a _ (hsecond _ rfl)
  · exact keeps_pure fun _ => hsecond _ rfl
  · exact keeps_pure fun _ => hfirst _ rfl
  all_goals exact hthrow _ (by rintro ⟨_, ⟨⟩⟩) (by rintro ⟨_, ⟨⟩⟩)

theorem keeps_loadCatalogCommit (hE : ∀ f, ok f → f.fails = true → E) (hbearable : Bearable hits)
    {generation : ℕ} (hreach : E ∨ InReach chain kept generation) :
    keeps ok E (Durable digests process chain kept hits) (loadCatalogCommit digests generation)
      (fun commit _ => CommitAt chain generation commit) s := by
  refine keeps_bind _ (keeps_loadCommitReplica hE .a generation) fun first t _ hfirst => ?_
  refine keeps_bind _ (keeps_loadCommitReplica hE .b generation) fun second u _ hsecond => ?_
  refine keeps_fromReplicas (fun replica commit v hcommit => ?_)
    (fun _ _ => CommitAt.unique) hfirst.1 hsecond.1 ?_
  · exact keeps_ask hE (fun hv => hv.effect hcommit) fun _ => trivial
  -- not both replicas were hit
  rcases hreach with hE | hreach
  · exact .inl hE
  rcases hfirst.2 with hE | ha
  · exact .inl hE
  rcases hsecond.2 with hE | hb
  · exact .inl hE
  by_cases hhit : (⟨.commits, .a, generation⟩ : Hit) ∈ hits
  · refine .inr (.inr (hb hreach fun hhit' => ?_))
    have hruined := (hbearable _ (mem_ruined.2 ⟨hhit, hhit'⟩)).1
    cases hruined
  · exact .inr (.inl (ha hreach hhit))

theorem keeps_loadCatalogSnapshot (hE : ∀ f, ok f → f.fails = true → E) (generation : ℕ) :
    keeps ok (E ∨ ¬ Assured kept hits generation) (Durable digests process chain kept hits)
      (loadCatalogSnapshot digests generation)
      (fun snapshot _ => SnapshotAt digests chain generation snapshot) s := by
  have hE' : ∀ f, ok f → f.fails = true → E ∨ ¬ Assured kept hits generation :=
    fun f hf hfails => .inl (hE f hf hfails)
  refine keeps_bind _ (keeps_loadSnapshotReplica hE' .a generation) fun first t _ hfirst => ?_
  refine keeps_bind _ (keeps_loadSnapshotReplica hE' .b generation) fun second u _ hsecond => ?_
  refine keeps_fromReplicas (fun replica snapshot v hsnapshot => ?_)
    (fun _ _ => SnapshotAt.unique) (fun snapshot h => (hfirst.1 snapshot h).1)
    (fun snapshot h => (hsecond.1 snapshot h).1) ?_
  · exact keeps_ask hE' (fun hv => hv.effect hsnapshot) fun _ => trivial
  by_cases hassured : Assured kept hits generation
  · rcases hfirst.2 with hE | ha
    · exact .inl hE
    rcases hsecond.2 with hE | hb
    · exact .inl hE
    obtain ⟨hkept, replica, hhit⟩ := hassured
    cases replica with
    | a => exact .inr (.inl (ha hkept hhit))
    | b => exact .inr (.inr (hb hkept hhit))
  · exact .inl (.inr hassured)

/-! ### The newest snapshot -/

theorem keeps_firstReadable (hE : ∀ f, ok f → f.fails = true → E) {generations : List ℕ}
    (hsorted : generations.Pairwise (· > ·)) :
    keeps ok E (Durable digests process chain kept hits) (firstReadable digests generations)
      (fun r _ => (∀ snapshot, r = some snapshot →
          ∃ generation, SnapshotAt digests chain generation snapshot) ∧
        (E ∨ ∀ generation ∈ generations, Assured kept hits generation →
          ∃ snapshot, r = some snapshot ∧ generation ≤ snapshot.generation)) s := by
  induction generations generalizing s with
  | nil => exact keeps_pure fun _ => ⟨fun _ h => (by cases h), .inr fun _ h => (by cases h)⟩
  | cons generation rest ih =>
    obtain ⟨hnewer, hrest⟩ := List.pairwise_cons.1 hsorted
    refine keeps_bind _ (keeps_attempt (keeps_loadCatalogSnapshot hE generation))
      fun r t _ hr => ?_
    cases r with
    | ok snapshot =>
      refine keeps_pure fun _ => ⟨fun snapshot' h => ?_, .inr fun older holder _ => ?_⟩
      · cases h
        exact ⟨generation, hr⟩
      · refine ⟨snapshot, rfl, ?_⟩
        rw [hr.state.2.2]
        rcases List.mem_cons.1 holder with rfl | holder
        · exact le_rfl
        · exact (hnewer older holder).le
    | error e =>
      refine keeps_mono (ih hrest) fun r t h => ⟨h.1, ?_⟩
      rcases hr with hE | hlost
      · exact .inl hE
      · refine h.2.imp id fun h older holder hassured => ?_
        rcases List.mem_cons.1 holder with rfl | holder
        · exact absurd hassured hlost
        · exact h older holder hassured

theorem pairwise_mergeGenerations (first second : List ℕ) :
    (mergeGenerations first second).Pairwise (· < ·) := by
  have hnodup : (mergeGenerations first second).Nodup :=
    (List.perm_insertionSort _ _).nodup_iff.2 (List.nodup_dedup _)
  have hle : (mergeGenerations first second).SortedLE := List.sortedLE_insertionSort
  exact (hle.sortedLT_of_nodup hnodup).pairwise

/-- The generation is among those of a shelf. -/
theorem Shelf.mem_generations {α : Type} {shelf : Shelf α} {generation : ℕ} {object : α}
    (h : shelf.find generation = some object) : generation ∈ shelf.generations :=
  List.mem_map.2 ⟨_, Shelf.mem_of_find h, rfl⟩

theorem keeps_listSnapshots (hE : ∀ f, ok f → f.fails = true → E) (replica : Replica) :
    keeps ok E (Durable digests process chain kept hits) (ask (.listSnapshots replica))
      (fun (r : List ℕ) _ => ∀ p ∈ kept, ∀ generation, generation = p.1 ∨ generation = p.2 →
        (⟨.snapshots, replica, generation⟩ : Hit) ∉ hits → generation ∈ r) s := by
  refine keeps_ask hE (fun hs => hs.effect trivial) fun hs p hp generation hgeneration hhit => ?_
  obtain ⟨snapshot, hread⟩ := (hs.held p hp generation hgeneration replica).resolve_left hhit
  exact Shelf.mem_generations (checkReplica_find hread).1

theorem keeps_snapshotGenerations (hE : ∀ f, ok f → f.fails = true → E) :
    keeps ok E (Durable digests process chain kept hits) snapshotGenerations
      (fun r _ => r.Pairwise (· < ·) ∧
        ∀ generation, Assured kept hits generation → generation ∈ r) s := by
  refine keeps_bind _ (keeps_listSnapshots hE .a) fun first t _ hfirst => ?_
  refine keeps_bind _ (keeps_listSnapshots hE .b) fun second u _ hsecond => ?_
  refine keeps_pure fun _ => ⟨pairwise_mergeGenerations _ _, fun generation hassured => ?_⟩
  obtain ⟨⟨p, hp, hgeneration⟩, replica, hhit⟩ := hassured
  cases replica with
  | a => exact mem_mergeGenerations.2 (.inl (hfirst p hp generation hgeneration hhit))
  | b => exact mem_mergeGenerations.2 (.inr (hsecond p hp generation hgeneration hhit))

/-- The newest snapshot that reads is no older than one that is kept. -/
theorem keeps_loadLatestSnapshot (hE : ∀ f, ok f → f.fails = true → E) :
    keeps ok E (Durable digests process chain kept hits) (loadLatestSnapshot digests)
      (fun r _ => (∀ snapshot, r = some snapshot →
          ∃ generation, SnapshotAt digests chain generation snapshot) ∧
        (E ∨ ∀ generation, Assured kept hits generation →
          ∃ snapshot, r = some snapshot ∧ generation ≤ snapshot.generation)) s := by
  refine keeps_bind _ (keeps_snapshotGenerations hE) fun generations t _ hgenerations => ?_
  refine keeps_mono (keeps_firstReadable hE (List.pairwise_reverse.2 hgenerations.1))
    fun r u h => ⟨h.1, h.2.imp id fun h generation hassured => ?_⟩
  exact h generation (List.mem_reverse.2 (hgenerations.2 generation hassured)) hassured

/-! ### Loading -/

theorem keeps_listCommits (hE : ∀ f, ok f → f.fails = true → E) (replica : Replica) (offset : ℕ) :
    keeps ok E (Durable digests process chain kept hits) (ask (.listCommits replica offset))
      (fun (r : List ℕ) _ => (∀ generation ∈ r, offset < generation ∧ generation ≤ chain.length) ∧
        ∀ generation, offset < generation → InReach chain kept generation →
          (⟨.commits, replica, generation⟩ : Hit) ∉ hits → generation ∈ r) s := by
  refine keeps_ask hE (fun hs => hs.effect trivial) fun hs =>
    ⟨fun generation hgeneration => ?_, fun generation hoffset hreach hhit => ?_⟩
  · obtain ⟨hmem, hoffset⟩ := List.mem_filter.1 hgeneration
    obtain ⟨⟨_, commit⟩, hcommit, rfl⟩ := List.mem_map.1 hmem
    exact ⟨of_decide_eq_true hoffset, hs.within replica _ (Shelf.isSome_find_of_mem hcommit)⟩
  · obtain ⟨commit, hread⟩ :=
      (hs.there generation hreach.1 hreach.2.1 hreach.2.2 replica).resolve_left hhit
    exact List.mem_filter.2 ⟨Shelf.mem_generations (checkReplica_find hread).1,
      decide_eq_true hoffset⟩

/-- The commits that are listed after a generation. -/
structure Listing (chain : List CatalogCommit) (kept : Kept) (offset : ℕ) (generations : List ℕ) :
    Prop where
  sorted : generations.Pairwise (· < ·)
  within : ∀ generation ∈ generations, offset < generation ∧ generation ≤ chain.length
  all : ∀ generation, offset < generation → InReach chain kept generation →
    generation ∈ generations

theorem keeps_commitGenerations (hE : ∀ f, ok f → f.fails = true → E) (hbearable : Bearable hits)
    (offset : ℕ) :
    keeps ok E (Durable digests process chain kept hits) (commitGenerations offset)
      (fun r _ => Listing chain kept offset r) s := by
  refine keeps_bind _ (keeps_listCommits hE .a offset) fun first t _ hfirst => ?_
  refine keeps_bind _ (keeps_listCommits hE .b offset) fun second u _ hsecond => ?_
  refine keeps_pure fun _ => ⟨pairwise_mergeGenerations _ _, fun generation hmem => ?_,
    fun generation hoffset hreach => ?_⟩
  · exact (mem_mergeGenerations.1 hmem).elim (hfirst.1 generation) (hsecond.1 generation)
  · by_cases hhit : (⟨.commits, .a, generation⟩ : Hit) ∈ hits
    · refine mem_mergeGenerations.2 (.inr (hsecond.2 generation hoffset hreach fun hhit' => ?_))
      have hruined := (hbearable _ (mem_ruined.2 ⟨hhit, hhit'⟩)).1
      cases hruined
    · exact mem_mergeGenerations.2 (.inl (hfirst.2 generation hoffset hreach hhit))

theorem replayChain_step {chain : List CatalogCommit} {last state : CatalogState} {n : ℕ}
    {commit : CatalogCommit} (hlast : replayChain chain = .ok last)
    (hstate : replayChain (chain.take n) = .ok state) (hcommit : chain[n]? = some commit) :
    ∃ next, applyCatalogMutation state commit = .ok next ∧
      replayChain (chain.take (n + 1)) = .ok next := by
  obtain ⟨next, hnext⟩ := replayChain_take hlast (n + 1)
  have happly := hnext
  rw [List.take_add_one, hcommit, Option.toList_some, replayChain_concat] at happly
  obtain ⟨before, hbefore, happly⟩ := bind_eq_ok.1 happly
  rw [hstate] at hbefore
  cases hbefore
  exact ⟨next, happly, hnext⟩

/-- **Replaying the listed commits** gives what all commits make. -/
theorem keeps_replayGenerations (hE : ∀ f, ok f → f.fails = true → E) {generations : List ℕ}
    {state : CatalogState} (hstate : replayChain (chain.take state.generation) = .ok state)
    (hle : state.generation ≤ chain.length) (hkept : kept.floor ≤ chain.length)
    (hlisting : Listing chain kept state.generation generations)
    (hfloor : E ∨ kept.floor ≤ state.generation + 1) :
    keeps ok E (Durable digests process chain kept hits)
      (replayGenerations digests state generations) (fun next _ => replayChain chain = .ok next)
      s := by
  induction generations generalizing state s with
  | nil =>
    refine keeps_pure fun _ => ?_
    -- the last commit would be listed
    have hend : chain.length ≤ state.generation := by
      by_contra hlt
      exact List.not_mem_nil (hlisting.all chain.length (by omega) ⟨hkept, by omega, le_rfl⟩)
    rwa [List.take_of_length_le hend] at hstate
  | cons generation rest ih =>
    refine keeps_of_inv fun hs => ?_
    obtain ⟨last, hlast⟩ := hs.replays
    obtain ⟨hlater, hrest⟩ := List.pairwise_cons.1 hlisting.sorted
    obtain ⟨hoffset, hwithin⟩ := hlisting.within generation List.mem_cons_self
    have hget : chain[state.generation]? = some chain[state.generation] :=
      List.getElem?_eq_getElem (by omega)
    obtain ⟨next, happly, hnext⟩ := replayChain_step hlast hstate hget
    have happlied := applied_of_apply happly
    have hsucc : checkedSucc state.generation = some (state.generation + 1) := by
      rw [happlied.succ, checkedSucc_eq_some happlied.succ]
    unfold replayGenerations
    rw [hsucc]
    dsimp only
    split_ifs with hgap
    · -- a gap is an object that may be gone
      refine keeps_throw _ fun _ => hfloor.resolve_right fun hfloor => ?_
      rcases List.mem_cons.1 (hlisting.all (state.generation + 1) (by omega)
        ⟨hfloor, by omega, by omega⟩) with rfl | hmem
      · exact hgap rfl
      · have := hlater _ hmem
        omega
    rw [not_not] at hgap
    subst hgap
    have hreach : E ∨ InReach chain kept (state.generation + 1) :=
      hfloor.imp id fun hfloor => ⟨hfloor, by omega, by omega⟩
    refine keeps_bind _ (keeps_loadCatalogCommit hE hs.bearable hreach) fun commit t _ hat => ?_
    obtain rfl : chain[state.generation] = commit :=
      CommitAt.unique ⟨_, rfl, hget⟩ hat
    refine keeps_bind (fun _ _ => True) (keeps_lift fun _ =>
      .inl ⟨(), hs.sealed _ (List.getElem_mem _), trivial⟩) fun _ u _ _ => ?_
    refine keeps_bind (fun reached _ => reached = next) (keeps_lift fun _ =>
      .inl ⟨next, happly, rfl⟩) fun reached v _ hreached => ?_
    subst hreached
    have hgeneration := happlied.succ_eq
    refine ih (by rw [hgeneration]; exact hnext) (by omega) ⟨hrest, fun g hg => ?_,
      fun g hoffset hreach => ?_⟩ (hfloor.imp id fun _ => by omega)
    · rw [hgeneration]
      exact ⟨hlater g hg, (hlisting.within g (List.mem_cons_of_mem _ hg)).2⟩
    · rw [hgeneration] at hoffset
      rcases List.mem_cons.1 (hlisting.all g (by omega) hreach) with rfl | hmem
      · omega
      · exact hmem

theorem Durable.floor_le (h : Durable digests process chain kept hits s) :
    kept.floor ≤ chain.length := by
  cases hkept : kept with
  | none => exact Nat.zero_le _
  | some p =>
    obtain ⟨generation, hle, hassured⟩ := h.exists_assured hkept
    obtain ⟨replica, snapshot, hread⟩ := h.exists_snapshot hassured
    exact hle.trans (h.snapshots replica generation snapshot hread).1

theorem keeps_refuseLegacy (hE : ∀ f, ok f → f.fails = true → E) (legacy : LegacyManifest) :
    keeps ok E (Durable digests process chain kept hits) (refuseLegacy legacy) (fun _ _ => True)
      s := by
  refine keeps_bind (fun (present : Bool) _ => present = false)
    (keeps_ask hE (fun hs => hs.effect trivial) fun hs => hs.legacy legacy)
    fun present t _ hpresent => ?_
  rw [hpresent, if_neg Bool.false_ne_true]
  exact keeps_pure fun _ => trivial

/-- **A load from the store** gives what all commits make. -/
theorem keeps_loadFromStore (hE : ∀ f, ok f → f.fails = true → E) :
    keeps ok E (Durable digests process chain kept hits) (loadFromStore digests process)
      (fun state _ => replayChain chain = .ok state) s := by
  refine keeps_of_inv fun hs => ?_
  refine keeps_bind _ (keeps_loadLatestSnapshot hE) fun snapshot t₁ _ hsnapshot => ?_
  obtain ⟨hwritten, hnewest⟩ := hsnapshot
  -- where the replay begins
  have hstart : ∀ state, state = (snapshot.map (·.state)).getD CatalogState.default →
      replayChain (chain.take state.generation) = .ok state ∧ state.generation ≤ chain.length := by
    rintro state rfl
    cases snapshot with
    | none => exact ⟨rfl, Nat.zero_le _⟩
    | some snapshot =>
      obtain ⟨generation, hat⟩ := hwritten snapshot rfl
      obtain ⟨hreplay, hgeneration, -⟩ := hat.state
      rw [Option.map_some, Option.getD_some, hgeneration]
      exact ⟨hreplay, hat.1⟩
  have hfloor : ∀ state, state = (snapshot.map (·.state)).getD CatalogState.default →
      E ∨ kept.floor ≤ state.generation + 1 := by
    rintro state rfl
    refine hnewest.imp id fun hnewest => ?_
    cases hkept : kept with
    | none => exact Nat.zero_le _
    | some p =>
      obtain ⟨generation, hle, hassured⟩ := hs.exists_assured hkept
      obtain ⟨snapshot, rfl, hnewer⟩ := hnewest generation hassured
      obtain ⟨generation', hat⟩ := hwritten snapshot rfl
      obtain ⟨-, hgeneration, hname⟩ := hat.state
      rw [Option.map_some, Option.getD_some, hgeneration]
      have : p.1 ≤ generation' := hle.trans (hname ▸ hnewer)
      exact this.trans (Nat.le_succ _)
  generalize (snapshot.map (·.state)).getD CatalogState.default = state at hstart hfloor ⊢
  obtain ⟨hreplay, hle⟩ := hstart state rfl
  refine keeps_bind _ (keeps_commitGenerations hE hs.bearable _) fun generations t₂ _ hlisting => ?_
  refine keeps_bind _ (keeps_refuseLegacy hE .logs) fun _ t₃ _ _ => ?_
  refine keeps_bind _ (keeps_refuseLegacy hE .traces) fun _ t₄ _ _ => ?_
  refine keeps_bind _ (keeps_refuseLegacy hE .metrics) fun _ t₅ _ _ => ?_
  refine keeps_bind _ (keeps_replayGenerations hE hreplay hle hs.floor_le hlisting
    (hfloor state rfl)) fun last t₆ _ hlast => ?_
  split_ifs
  · exact keeps_bind _ (keeps_act hE fun hv => hv.effect hlast) fun _ _ _ _ =>
      keeps_pure fun _ => hlast
  · exact keeps_pure fun _ => hlast

/-- **A load** gives what all commits make; it fails only if a request does. -/
theorem keeps_loadCatalogState (hE : ∀ f, ok f → f.fails = true → E) :
    keeps ok E (Durable digests process chain kept hits) (loadCatalogState digests process)
      (fun r _ => replayChain chain = .ok r.1) s := by
  refine keeps_bind (fun (cached : Option CatalogState) _ => ∀ state, cached = some state →
      replayChain chain = .ok state)
    (keeps_ask hE (fun hs => hs.effect trivial) fun hs => hs.cached) fun cached t _ hcached => ?_
  cases cached with
  | some state => exact keeps_pure fun _ => hcached state rfl
  | none =>
    exact keeps_bind _ (keeps_loadFromStore hE) fun state u _ hstate => keeps_pure fun _ => hstate

end Catalog

end Obsy
