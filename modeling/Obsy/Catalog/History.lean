import Obsy.Catalog.Agreement
import Obsy.Catalog.Upkeep

/-!
# Histories of a catalog

A process commits, writes snapshots, prunes, loads and restarts, while replicas are damaged or
lost.

* `HistoryEvent`, `historyMachine`: such histories, with the mutations that were acknowledged.
* `foldMutations`: what these make, as if there were no snapshots and no pruning.
* `load_acknowledged`: a load gives that.
-/

namespace Obsy

namespace Catalog

open Machine Machine.Program

variable (digests : Digests) (process : ProcessId)

/-! ### Histories -/

/-- A process and its store, and what happened to them. -/
structure History where
  shared : Shared
  /-- The mutations that were acknowledged with a commit of their own, in order. -/
  acknowledged : List CatalogMutation
  /-- The replicas that were damaged or lost. -/
  hits : List Hit

/-- A history in which nothing has happened. -/
def History.empty : History := ⟨Shared.empty fun _ => false, [], []⟩

/-- What happens.  A script has what becomes of each request; a script that ends before its program
stops the program there. -/
inductive HistoryEvent
  /-- `commit_catalog_mutation` acknowledges a mutation. -/
  | commit (mutation : CatalogMutation) (fresh : TransactionId) (script : List RequestFate)
  /-- `claim_writer_epoch` acknowledges a claim. -/
  | claim (fresh : TransactionId) (script : List RequestFate)
  /-- `write_catalog_snapshot` of the catalog. -/
  | snapshot (script : List RequestFate)
  /-- `prune_catalog_at`. -/
  | prune (minAge now : Millis) (lastModified : CatalogKind → Replica → ℕ → Millis)
    (script : List RequestFate)
  /-- `load_catalog_state`. -/
  | load (script : List RequestFate)
  /-- The process forgets the catalog. -/
  | restart
  | damageCommit (replica : Replica) (generation : ℕ) (object : CatalogCommit)
  | damageSnapshot (replica : Replica) (generation : ℕ) (object : CatalogSnapshot)
  /-- A replica is lost. -/
  | lose (hit : Hit)

/-- Another object under a name that is taken. -/
def Shelf.replace {α : Type} (shelf : Shelf α) (generation : ℕ) (object : α) : Shelf α :=
  shelf.map fun x => if x.1 = generation then (generation, object) else x

/-- `write_catalog_snapshot` of the catalog that was loaded. -/
def snapshotCatalog : CatalogProgram Unit := do
  let (state, _) ← loadCatalogState digests process
  if state.generation = 0 then return () else writeCatalogSnapshot digests state

/-- What an acknowledgement adds to a history.  A mutation that is not acknowledged is not part of
it. -/
def History.acknowledge (h : History)
    (o : Outcome Unit Shared CatalogError Committed RequestFate) : Option History :=
  match o.ending with
  | .done c => some { h with
      shared := o.device
      acknowledged := if c.ack = .produced then h.acknowledged ++ [c.mutation] else h.acknowledged }
  | _ => none

/-- What a program leaves, however it ends. -/
def History.after {α : Type} (h : History) (p : CatalogProgram α) (script : List RequestFate) :
    History :=
  { h with shared := (p.exec catalogDevice script () h.shared).device }

/-- One more replica is hit, if that is borne. -/
def History.hit (h : History) (hit : Hit) (shared : Shared) : Option History :=
  if Bearable (hit :: h.hits) then some { h with shared := shared, hits := hit :: h.hits }
  else none

/-- A process, its store and what happens to them. -/
def historyMachine : Machine History HistoryEvent where
  step h event :=
    match event with
    | .commit mutation fresh script => h.acknowledge
        ((commitCatalogMutation digests process mutation fresh).exec catalogDevice script () h.shared)
    | .claim fresh script => h.acknowledge
        ((claimWriterEpoch digests process fresh).exec catalogDevice script () h.shared)
    | .snapshot script => some (h.after (snapshotCatalog digests process) script)
    | .prune minAge now lastModified script =>
      some (h.after (pruneCatalogAt digests minAge now lastModified) script)
    | .load script => some (h.after (loadCatalogState digests process) script)
    | .restart => some { h with shared := h.shared.effect (.setCached process none) }
    | .damageCommit replica generation object =>
      if isRead (checkReplica generation (·.generation) (verifyCommit digests)
          (.ok (some object))) then none
      else h.hit ⟨.commits, replica, generation⟩ (h.shared.withCommits replica
        ((h.shared.store.commits replica).replace generation object))
    | .damageSnapshot replica generation object =>
      if isRead (checkReplica generation (·.generation) (checkSnapshot digests)
          (.ok (some object))) then none
      else h.hit ⟨.snapshots, replica, generation⟩ (h.shared.withSnapshots replica
        ((h.shared.store.snapshots replica).replace generation object))
    | .lose ⟨.commits, replica, generation⟩ => h.hit ⟨.commits, replica, generation⟩
        (h.shared.effect (.deleteCommit replica generation))
    | .lose ⟨.snapshots, replica, generation⟩ => h.hit ⟨.snapshots, replica, generation⟩
        (h.shared.effect (.deleteSnapshot replica generation))

/-- What mutations make, one commit each. -/
def foldMutations (mutations : List CatalogMutation) : Except CatalogError CatalogState :=
  mutations.foldlM (acknowledge digests) CatalogState.default

/-! ### Damage -/

variable {digests process} {chain : List CatalogCommit} {kept : Kept} {hits : List Hit}
  {s : Shared}

theorem Shelf.find_replace {α : Type} (shelf : Shelf α) (generation : ℕ) (object : α) (g : ℕ) :
    (shelf.replace generation object).find g =
      if generation = g then (shelf.find generation).map fun _ => object else shelf.find g := by
  unfold Shelf.find Shelf.replace
  rw [List.find?_map]
  have hname : ((fun x : ℕ × α => decide (x.1 = g)) ∘
      fun x => if x.1 = generation then (generation, object) else x) =
        fun x => decide (x.1 = g) := by
    funext x
    dsimp only [Function.comp_apply]
    split_ifs with hx
    · rw [← hx]
    · rfl
  rw [hname, Option.map_map]
  split_ifs with hg
  · subst hg
    rw [Option.map_map]
    cases hfound : List.find? (fun x : ℕ × α => decide (x.1 = generation)) shelf with
    | none => rfl
    | some x =>
      have hx : x.1 = generation := of_decide_eq_true
        (List.find?_some (p := fun x : ℕ × α => decide (x.1 = generation)) hfound)
      rw [Option.map_some, Option.map_some, Function.comp_apply, if_pos hx]
      rfl
  · cases hfound : List.find? (fun x : ℕ × α => decide (x.1 = g)) shelf with
    | none => rfl
    | some x =>
      have hx : x.1 = g := of_decide_eq_true
        (List.find?_some (p := fun x : ℕ × α => decide (x.1 = g)) hfound)
      rw [Option.map_some, Option.map_some, Function.comp_apply,
        if_neg fun hsame => hg (hsame.symm.trans hx)]

/-- What cannot be read when it is there cannot be read. -/
theorem not_read_map {α : Type} {generation : ℕ} {generationOf : α → ℕ}
    {check : α → Except CatalogError Unit} {object : α}
    (hobject : isRead (checkReplica generation generationOf check (.ok (some object))) = false)
    (found : Option α) :
    isRead (checkReplica generation generationOf check (.ok (found.map fun _ => object))) =
      false := by
  cases found with
  | none => rfl
  | some _ => exact hobject

theorem Durable.damageCommit (h : Durable digests process chain kept hits s) {replica : Replica}
    {generation : ℕ} {object : CatalogCommit}
    (hobject : isRead (checkReplica generation (·.generation) (verifyCommit digests)
      (.ok (some object))) = false)
    (hbearable : Bearable (⟨.commits, replica, generation⟩ :: hits)) :
    Durable digests process chain kept (⟨.commits, replica, generation⟩ :: hits)
      (s.withCommits replica ((s.store.commits replica).replace generation object)) := by
  have hfind := find_update s.store.commits replica
    (Shelf.find_replace (s.store.commits replica) generation object)
  have hat : ((s.withCommits replica ((s.store.commits replica).replace generation
      object)).store.commits replica).find generation = _ :=
    (hfind replica generation).trans (if_pos ⟨rfl, rfl⟩)
  refine h.lessCommit (List.subset_cons_self _ _) hbearable
    (fun r g hother => (hfind r g).trans (if_neg hother)) ?_ (fun hsome => ?_)
    (.inr List.mem_cons_self) rfl rfl rfl
  · unfold readCommit
    rw [hat]
    exact not_read_map hobject _
  · rw [hat, Option.isSome_map] at hsome
    exact hsome

theorem Durable.damageSnapshot (h : Durable digests process chain kept hits s) {replica : Replica}
    {generation : ℕ} {object : CatalogSnapshot}
    (hobject : isRead (checkReplica generation (·.generation) (checkSnapshot digests)
      (.ok (some object))) = false)
    (hbearable : Bearable (⟨.snapshots, replica, generation⟩ :: hits)) :
    Durable digests process chain kept (⟨.snapshots, replica, generation⟩ :: hits)
      (s.withSnapshots replica ((s.store.snapshots replica).replace generation object)) := by
  have hfind := find_update s.store.snapshots replica
    (Shelf.find_replace (s.store.snapshots replica) generation object)
  have hat : ((s.withSnapshots replica ((s.store.snapshots replica).replace generation
      object)).store.snapshots replica).find generation = _ :=
    (hfind replica generation).trans (if_pos ⟨rfl, rfl⟩)
  refine h.lessSnapshot (List.subset_cons_self _ _) hbearable
    (fun r g hother => (hfind r g).trans (if_neg hother)) ?_ (.inr List.mem_cons_self) rfl rfl rfl
  unfold readSnapshot
  rw [hat]
  exact not_read_map hobject _

/-! ### Runs -/

/-- What holds in a history: some commits make what the acknowledged mutations make, and they are
recoverable. -/
def History.Sound (digests : Digests) (process : ProcessId) (h : History) : Prop :=
  ∃ chain state, replayChain chain = .ok state ∧ foldMutations digests h.acknowledged = .ok state ∧
    Recoverable digests process chain h.hits h.shared

theorem durable_empty (digests : Digests) (process : ProcessId) :
    Durable digests process [] none [] (Shared.empty fun _ => false) where
  replays := ⟨_, rfl⟩
  sealed _ h := (by cases h)
  bearable _ h := (by cases h)
  within _ _ h := (by cases h)
  right _ _ _ h := (by cases h)
  there _ _ hpos hle := absurd hpos (Nat.not_lt_of_le hle)
  snapshots _ _ _ h := (by cases h)
  ordered _ h := (by cases h)
  held _ h := (by cases h)
  cached _ h := (by cases h)
  legacy _ := rfl

theorem History.sound_empty (digests : Digests) (process : ProcessId) :
    History.empty.Sound digests process :=
  ⟨[], _, rfl, rfl, none, durable_empty digests process⟩

/-- A program that keeps the catalog recoverable. -/
theorem History.Sound.after {α : Type} {h : History} (hsound : h.Sound digests process)
    {p : CatalogProgram α} (script : List RequestFate)
    (hp : ∀ {chain s}, Recoverable digests process chain h.hits s →
      p.wp (catalogDevice.restrict fun _ => True)
        ⟨fun _ _ t => Recoverable digests process chain h.hits t,
          fun _ _ t => Recoverable digests process chain h.hits t,
          Recoverable digests process chain h.hits⟩ () s) : (h.after p script).Sound digests process := by
  obtain ⟨chain, state, hchain, hfold, hrecoverable⟩ := hsound
  refine ⟨chain, state, hchain, hfold, ?_⟩
  have hmeets := exec_of_wp_restrict (hp hrecoverable) script fun _ _ => trivial
  unfold Outcome.Meets at hmeets
  show Recoverable _ _ _ _ (p.exec catalogDevice script () h.shared).device
  split at hmeets <;> exact hmeets

/-- A program that keeps the catalog durable keeps it recoverable. -/
theorem recoverable_of_keeps {α : Type} {p : CatalogProgram α} {P : α → Shared → Prop}
    (hp : ∀ {kept s}, withstands (Durable digests process chain kept hits) p P s)
    (hs : Recoverable digests process chain hits s) :
    p.wp (catalogDevice.restrict fun _ => True)
      ⟨fun _ _ t => Recoverable digests process chain hits t,
        fun _ _ t => Recoverable digests process chain hits t,
        Recoverable digests process chain hits⟩ () s := by
  obtain ⟨kept, hs⟩ := hs
  exact wp_mono (hp hs) (fun _ _ _ ht => ⟨kept, ht.1⟩) (fun _ _ _ ht => ⟨kept, ht.2.1⟩)
    fun _ ht => ⟨kept, ht⟩

theorem withstands_snapshotCatalog :
    withstands (Durable digests process chain kept hits) (snapshotCatalog digests process)
      (fun _ _ => True) s := by
  refine keeps_bind _ (keeps_loadCatalogState fun _ _ _ => trivial) fun r t _ hstate => ?_
  obtain ⟨state, fromStore⟩ := r
  dsimp only
  split_ifs
  · exact keeps_pure fun _ => trivial
  · exact withstands_writeCatalogSnapshot hstate

theorem foldMutations_concat {mutations : List CatalogMutation} {mutation : CatalogMutation}
    {state next : CatalogState} (hstate : foldMutations digests mutations = .ok state)
    (hnext : acknowledge digests state mutation = .ok next) :
    foldMutations digests (mutations ++ [mutation]) = .ok next := by
  unfold foldMutations at hstate ⊢
  rw [List.foldlM_append, hstate]
  exact bind_eq_ok.2 ⟨state, rfl, bind_eq_ok.2 ⟨next, hnext, rfl⟩⟩

/-- What an acknowledgement leaves. -/
theorem History.Sound.acknowledge {h h' : History} (hsound : h.Sound digests process)
    {p : CatalogProgram Committed} {script : List RequestFate}
    (hp : ∀ {chain s}, Recoverable digests process chain h.hits s →
      acknowledges p (fun c t => Recorded digests process chain h.hits c t) s)
    (hstep : h.acknowledge (p.exec catalogDevice script () h.shared) = some h') :
    h'.Sound digests process := by
  obtain ⟨chain, state, hchain, hfold, hrecoverable⟩ := hsound
  have hmeets := exec_of_wp_restrict (hp hrecoverable) script fun _ _ => trivial
  unfold Outcome.Meets at hmeets
  unfold History.acknowledge at hstep
  split at hstep
  · next c hdone =>
    rw [hdone] at hmeets
    cases hstep
    rcases hmeets with ⟨hack, hsame⟩ | ⟨hack, state', commit, next, hstate, hnext, hadd, hrec⟩
    · refine ⟨chain, state, hchain, ?_, hsame⟩
      rw [if_neg hack]
      exact hfold
    · rw [hchain] at hstate
      cases hstate
      refine ⟨chain ++ [commit], next, hnext, ?_, hrec⟩
      rw [if_pos hack]
      exact foldMutations_concat hfold hadd
  · cases hstep

/-- A replica that is hit. -/
theorem History.Sound.hit {h h' : History} (hsound : h.Sound digests process) {hit : Hit}
    {shared : Shared} (hdurable : ∀ chain kept, Bearable (hit :: h.hits) →
      Durable digests process chain kept h.hits h.shared →
        Durable digests process chain kept (hit :: h.hits) shared)
    (hstep : h.hit hit shared = some h') : h'.Sound digests process := by
  obtain ⟨chain, state, hchain, hfold, kept, hs⟩ := hsound
  unfold History.hit at hstep
  split_ifs at hstep with hbearable
  cases hstep
  exact ⟨chain, state, hchain, hfold, kept, hdurable chain kept hbearable hs⟩

/-- **The step lemma** of histories. -/
theorem History.Sound.step {h h' : History} (hsound : h.Sound digests process) {event : HistoryEvent}
    (hstep : (historyMachine digests process).step h event = some h') :
    h'.Sound digests process := by
  cases event with
  | commit mutation fresh script =>
    exact hsound.acknowledge (fun hs => acknowledges_commitCatalogMutation hs mutation fresh) hstep
  | claim fresh script =>
    exact hsound.acknowledge (fun hs => acknowledges_claimWriterEpoch hs fresh) hstep
  | snapshot script =>
    cases hstep
    exact hsound.after script (recoverable_of_keeps withstands_snapshotCatalog)
  | prune minAge now lastModified script =>
    cases hstep
    exact hsound.after script (keeps_pruneCatalogAt minAge now lastModified)
  | load script =>
    cases hstep
    exact hsound.after script
      (recoverable_of_keeps (keeps_loadCatalogState fun _ _ _ => trivial))
  | restart =>
    cases hstep
    obtain ⟨chain, state, hchain, hfold, kept, hs⟩ := hsound
    exact ⟨chain, state, hchain, hfold, kept,
      (hs.effect (show Permitted digests chain (.setCached process none) from trivial)).1⟩
  | damageCommit replica generation object =>
    unfold historyMachine at hstep
    dsimp only at hstep
    split_ifs at hstep with hread
    rw [Bool.not_eq_true] at hread
    exact hsound.hit (fun _ _ hbearable hs => hs.damageCommit hread hbearable) hstep
  | damageSnapshot replica generation object =>
    unfold historyMachine at hstep
    dsimp only at hstep
    split_ifs at hstep with hread
    rw [Bool.not_eq_true] at hread
    exact hsound.hit (fun _ _ hbearable hs => hs.damageSnapshot hread hbearable) hstep
  | lose hit =>
    obtain ⟨kind, replica, generation⟩ := hit
    cases kind with
    | commits =>
      exact hsound.hit (fun _ _ hbearable hs => hs.deleteCommit (List.subset_cons_self _ _)
        hbearable replica (.inr List.mem_cons_self)) hstep
    | snapshots =>
      exact hsound.hit (fun _ _ hbearable hs => hs.deleteSnapshot (List.subset_cons_self _ _)
        hbearable replica (.inr List.mem_cons_self)) hstep

/-- Requests that go well. -/
def fineScript : List RequestFate := List.replicate 40 .fine

/-- A second part is added. -/
def secondMutation : CatalogMutation :=
  { CatalogMutation.default with
    transactionId := "more", writerEpoch := 1, logAdded := [⟨"other", "2026-01-02"⟩] }

/-- Three commits, two snapshots and a pruning; then the newer snapshot, a replica of the older one
and a replica of the last commit are lost. -/
def prunedHistory : List HistoryEvent :=
  [.claim .first fineScript,
    .commit sampleMutation .unused fineScript, .snapshot fineScript,
    .commit secondMutation .unused fineScript, .snapshot fineScript,
    .prune 0 1 (fun _ _ _ => 0) fineScript, .lose ⟨.snapshots, .a, 3⟩, .lose ⟨.snapshots, .b, 3⟩,
    .lose ⟨.commits, .a, 3⟩, .lose ⟨.snapshots, .b, 2⟩, .restart]

/-- The mutations, and the commits and snapshots that are left. -/
def History.left (h : History) : List CatalogMutation × List (List ℕ) :=
  (h.acknowledged, [(h.shared.store.commits .a).generations, (h.shared.store.commits .b).generations,
    (h.shared.store.snapshots .a).generations, (h.shared.store.snapshots .b).generations])

theorem run_prunedHistory :
    ((historyMachine sampleDigests 0).run History.empty prunedHistory).map History.left =
      some ([sampleClaim "first" 1, sampleMutation, secondMutation], [[2], [2, 3], [2], []]) := by
  decide +kernel

end Catalog

end Obsy
