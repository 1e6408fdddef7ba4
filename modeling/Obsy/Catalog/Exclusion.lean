import Obsy.Catalog.Deletion

/-!
# Exclusive replacements

A merge replaces parts by one of the same rows.  It decides on the catalog it reads, and its commit
reads the catalog anew; the decision is not repeated.

* `ReplacementJob`, `replacementMachine`: runs of the tasks that touch the catalog alone.
* `Unraced`: a replacement is committed on top of no removal of its inputs since its decision.
* `replaces_listed`: in an unraced run a replacement's inputs are active in the generation before
  it, and no part that went out is an input again.
* `replaces_removed`: a part that expires between a decision and its commit is brought back.
-/

namespace Obsy

namespace Catalog

open Machine Machine.Program

variable {s t : Shared}

/-! ### Exclusion -/

/-- A part that is active and that no later commit takes out stays active. -/
theorem lists_of_append {chain more : List CatalogCommit} {state last : CatalogState}
    {signal : Signal} {id : String} (hstate : replayChain chain = .ok state)
    (hlast : replayChain (chain ++ more) = .ok last) (hlists : state.Lists signal id)
    (hmore : ∀ commit ∈ more, id ∉ commit.mutation.removed signal) : last.Lists signal id := by
  induction more using List.reverseRecOn generalizing last with
  | nil =>
    rw [List.append_nil, hstate] at hlast
    cases hlast
    exact hlists
  | append_singleton more commit ih =>
    rw [← List.append_assoc] at hlast
    obtain ⟨before, hbefore, happlied⟩ := replayChain_last hlast
    have hstays := ih hbefore fun c hc => hmore c (List.mem_append_left _ hc)
    have hkept := hmore commit (List.mem_append_right _ (List.mem_singleton.2 rfl))
    exact happlied.lists_iff.2 (.inl ⟨hstays, hkept⟩)

namespace Shared

/-- The inputs of a commit's replacements are active on a chain. -/
def InputsActive (chain : List CatalogCommit) (commit : CatalogCommit) : Prop :=
  ∃ state, replayChain chain = .ok state ∧ commit.mutation.FindsIn state

/-- Every replacement's inputs are active in the generation before it. -/
def Active (s : Shared) : Prop :=
  ∀ i commit, s.chain[i]? = some commit → InputsActive (s.chain.take i) commit

/-- A part that a commit takes out is no input of a later replacement, unless a commit between them
adds it again. -/
def TakenOnce (s : Shared) : Prop :=
  ∀ (i j : ℕ) (first second : CatalogCommit), i < j → s.chain[i]? = some first →
    s.chain[j]? = some second → ∀ signal, second.mutation.Replaces signal →
      ∀ id ∈ first.mutation.removed signal, id ∈ second.mutation.removed signal →
        ∃ (k : ℕ) (again : CatalogCommit), i ≤ k ∧ k < j ∧ s.chain[k]? = some again ∧
          again.mutation.Adds signal id

/-- A part that went out is active only where it was added again. -/
theorem added_of_lists {chain : List CatalogCommit} {state : CatalogState}
    (hstate : replayChain chain = .ok state) {signal : Signal} {id : String}
    (hlists : state.Lists signal id) {i : ℕ} {first : CatalogCommit} (hi : chain[i]? = some first)
    (hremoved : id ∈ first.mutation.removed signal) :
    ∃ (k : ℕ) (again : CatalogCommit), i ≤ k ∧ chain[k]? = some again ∧
      again.mutation.Adds signal id := by
  by_contra hnone
  push Not at hnone
  obtain ⟨hlt, hget⟩ := List.getElem?_eq_some_iff.1 hi
  obtain ⟨after, hafter⟩ := replayChain_take hstate (i + 1)
  have hfirst := hafter
  rw [List.take_add_one, hi, Option.toList_some] at hfirst
  obtain ⟨before, -, happlied⟩ := replayChain_last hfirst
  have hunlisted : ¬ after.Lists signal id := by
    rw [happlied.lists_iff]
    rintro (⟨-, hkept⟩ | hadds)
    · exact hkept hremoved
    · exact hnone i first le_rfl hi hadds
  rw [← List.take_append_drop (i + 1) chain] at hstate
  refine unlisted_of_append hafter hstate hunlisted (fun commit hcommit => ?_) hlists
  obtain ⟨n, hn⟩ := List.mem_iff_getElem?.1 hcommit
  rw [List.getElem?_drop] at hn
  exact hnone (i + 1 + n) commit (by omega) hn

/-- Where inputs are active, a part is taken out once. -/
theorem Active.takenOnce (h : s.Active) : s.TakenOnce := by
  intro i j first second hij hi hj signal hreplaces id hremoved hinput
  obtain ⟨state, hstate, hfinds⟩ := h j second hj
  have htake : (s.chain.take j)[i]? = some first := by rwa [List.getElem?_take_of_lt hij]
  obtain ⟨k, again, hik, hk, hadds⟩ :=
    added_of_lists hstate (hfinds signal hreplaces id hinput) htake hremoved
  have hkj : k < j := by
    by_contra hge
    rw [List.getElem?_take, if_neg hge] at hk
    cases hk
  rw [List.getElem?_take_of_lt hkj] at hk
  exact ⟨k, again, hik, hkj, hk, hadds⟩

/-- A commit's mutation was decided on a generation after which no commit takes one of the inputs
out that it replaces. -/
def Fresh (s : Shared) (mutation : CatalogMutation) : Prop :=
  ∀ signal, mutation.Replaces signal → ∃ x ∈ s.decided, x.1 = mutation ∧
    ∀ later ∈ s.chain.drop x.2, ∀ id ∈ mutation.removed signal, id ∉ later.mutation.removed signal

instance (s : Shared) (mutation : CatalogMutation) : Decidable (s.Fresh mutation) :=
  inferInstanceAs (Decidable (∀ signal, mutation.Replaces signal → ∃ x ∈ s.decided,
    x.1 = mutation ∧ ∀ later ∈ s.chain.drop x.2, ∀ id ∈ mutation.removed signal,
      id ∉ later.mutation.removed signal))

/-- What a fresh mutation replaces is still active. -/
theorem Coherent.inputsActive (h : s.Coherent) {commit : CatalogCommit}
    (hfresh : s.Fresh commit.mutation) : InputsActive s.chain commit := by
  obtain ⟨last, hlast⟩ := h.replays
  refine ⟨last, hlast, fun signal hreplaces id hid => ?_⟩
  obtain ⟨x, hx, hmutation, hlater⟩ := hfresh signal hreplaces
  obtain ⟨state, hseen, hgeneration, hfound⟩ := h.decided x hx
  rw [hmutation] at hfound
  rw [← List.take_append_drop x.2 s.chain] at hlast
  rw [← hgeneration] at hlast hlater
  exact lists_of_append hseen.2 hlast (hfound signal hreplaces id hid) fun later hmem =>
    hlater later hmem id hid

end Shared

/-! ### The tasks of the catalog -/

/-- A task that deletes no files. -/
structure ReplacementJob extends WriterJob where
  harmless : task.Harmless

/-- The processes and their tasks. -/
abbrev ReplacementCrew := Crew catalogInterface Shared ReplacementJob CatalogError WriterResult

variable (digests : Digests)

/-- Any number of tasks, interleaved. -/
abbrev replacementMachine : Machine ReplacementCrew (Turn ReplacementJob RequestFate) :=
  interleave catalogDevice fun job => writerProgram digests job.process job.task

/-- A request that creates a commit creates a fresh one. -/
def CreatesFresh (s : Shared) : CatalogOp → Prop
  | .createCommit .a generation commit =>
    ((s.store.commits .a).find generation).isNone → s.Fresh commit.mutation
  | _ => True

instance (s : Shared) : (op : CatalogOp) → Decidable (CreatesFresh s op)
  | .createCommit .a generation commit => inferInstanceAs (Decidable
      (((s.store.commits .a).find generation).isNone → s.Fresh commit.mutation))
  | .createCommit .b _ _ | .listCommits _ _ | .listSnapshots _ | .getCommit _ _
  | .getSnapshot _ _ | .createSnapshot _ _ _ | .deleteCommit _ _ | .deleteSnapshot _ _
  | .getLegacy _ | .putObject _ | .deleteObject _
  | .cached _ | .setCached _ _ | .epoch _ | .setEpoch _ _ | .note _ _ =>
    inferInstanceAs (Decidable True)

/-- A turn in which no replacement is committed whose inputs went out since its decision. -/
def Unraced (c : ReplacementCrew) : Turn ReplacementJob RequestFate → Prop
  | .move i _ => ∀ t ∈ c.tasks[i]?, ∀ op ∈ t.rest.next, CreatesFresh c.shared op
  | _ => True

instance (c : ReplacementCrew) : (turn : Turn ReplacementJob RequestFate) →
    Decidable (Unraced c turn)
  | .start _ | .kill _ => inferInstanceAs (Decidable True)
  | .move i _ => inferInstanceAs (Decidable
      (∀ t ∈ c.tasks[i]?, ∀ op ∈ t.rest.next, CreatesFresh c.shared op))

/-! ### Unraced runs -/

/-- What holds in an unraced run. -/
structure Excluded (s : Shared) : Prop where
  coherent : s.Coherent
  kept : s.store.deleted = []
  active : s.Active

/-- One more commit on a chain of commits whose inputs were active. -/
theorem Shared.Active.concat (h : s.Active) {commit : CatalogCommit}
    (hchain : t.chain = s.chain ++ [commit]) (hcommit : InputsActive s.chain commit) :
    t.Active := by
  intro i last hi
  rw [hchain] at hi ⊢
  rcases Nat.lt_or_ge i s.chain.length with hlt | hge
  · rw [List.getElem?_append_left hlt] at hi
    rw [List.take_append_of_le_length hlt.le]
    exact h i last hi
  · rw [List.getElem?_append_right hge] at hi
    obtain ⟨hzero, hlast⟩ := List.getElem?_eq_some_iff.1 hi
    obtain rfl : i = s.chain.length := by
      rw [List.length_singleton] at hzero
      omega
    simp only [Nat.sub_self, List.getElem_cons_zero] at hlast
    rw [List.take_left, ← hlast]
    exact hcommit

/-- The chain after an operation. -/
theorem Shared.chain_effect {op : CatalogOp} (hgrown : s.Grown (s.effect op)) :
    (s.effect op).chain = s.chain ∨
    ∃ generation commit, op = .createCommit .a generation commit ∧
      ((s.store.commits .a).find generation).isNone ∧
        (s.effect op).chain = s.chain ++ [commit] := by
  cases op with
  | createCommit replica generation commit =>
    clear hgrown
    unfold Shared.effect
    dsimp only
    split_ifs with hfree
    · exact .inl rfl
    cases replica with
    | a => exact .inr ⟨generation, commit, rfl, by simpa using hfree, List.map_append⟩
    | b => exact .inl rfl
  | createSnapshot replica generation snapshot =>
    clear hgrown
    unfold Shared.effect
    dsimp only
    split_ifs <;> exact .inl rfl
  | deleteCommit replica generation =>
    -- a chain that only grows loses nothing
    refine .inl (List.Sublist.antisymm ?_ hgrown.sublist)
    cases replica with
    | a => exact (List.filter_sublist (l := s.store.commits .a)).map _
    | b => exact List.Sublist.refl _
  | _ => exact .inl rfl

/-- **The step lemma**: an operation that creates no stale replacement keeps the inputs active. -/
theorem Excluded.active_effect (h : Excluded s) {op : CatalogOp} (hop : CreatesFresh s op)
    (hgrown : s.Grown (s.effect op)) : (s.effect op).Active := by
  rcases Shared.chain_effect hgrown with hchain | ⟨generation, commit, rfl, hfree, hchain⟩
  · intro i commit hi
    rw [hchain] at hi ⊢
    exact h.active i commit hi
  · exact h.active.concat hchain (h.coherent.inputsActive (hop hfree))

/-- What the tasks rely on and promise. -/
def replacementContract :
    Contract catalogInterface Shared ReplacementJob CatalogError WriterResult where
  inv := Excluded
  later job := job.task.footprint.Later
  change job := job.task.footprint.Change
  begins _ _ := True
  asks _ := CreatesFresh
  fits _ _ := True
  post _ _ _ _ := True
  refl _ := Footprint.Later.refl _
  trans := Footprint.Later.trans
  own h := h.later
  other {job job' _ _} _ h :=
    h.other (WriterTask.Apart.fits ⟨fun signal _ _ => by simp [job'.harmless signal, partIds],
      fun signal _ h => by simp [job.harmless signal, partIds] at h,
      .inl ⟨job.harmless, job'.harmless⟩⟩)
  stable h _ := h

/-- A task without files to delete is not misled. -/
theorem asks_of_harmless {task : WriterTask} (h : task.Harmless) (s : Shared) (op : CatalogOp) :
    task.footprint.Asks s op := fun _ _ _ _ _ _ _ signal id hdeletes =>
  absurd ⟨signal, id, hdeletes⟩ (not_deletes_of_doomed h)

theorem replacement_guarded (job : ReplacementJob) (hs : Excluded s) :
    (writerProgram digests job.process job.task).guarded catalogDevice replacementContract job
      (replacementContract.post job s) s := by
  have hbegins : job.task.footprint.Begins s :=
    ⟨fun x hx => (by rw [hs.kept] at hx; cases hx),
      fun hdeletes => absurd hdeletes (not_deletes_of_doomed job.harmless)⟩
  have hsafe := writerProgram_safe digests job.process job.task hs.coherent hbegins.clear
  refine guarded_mono (guarded_transfer (C := keeping) ?_ ?_ ?_ ?_ hsafe) fun _ _ _ => trivial
  · exact fun _ h => h.coherent
  · exact fun _ _ h => h
  · exact fun t op _ => asks_of_harmless job.harmless t op
  · intro t op f ht hop hcoherent hchange
    refine ⟨⟨hcoherent, ?_, ?_⟩, hchange⟩
    · refine List.eq_nil_iff_forall_not_mem.2 fun x hx => ?_
      rcases hchange.own x hx with hx | hdeletes
      · rw [ht.kept] at hx
        cases hx
      · exact not_deletes_of_doomed job.harmless ⟨_, _, hdeletes⟩
    · unfold catalogDevice at hchange ⊢
      dsimp only at hchange ⊢
      split_ifs at hchange ⊢
      · exact ht.active_effect hop hchange.chain.grown
      · exact ht.active
      · exact ht.active_effect hop hchange.chain.grown

theorem Shared.excluded_empty (legacy : LegacyManifest → Bool) :
    Excluded (Shared.empty legacy) where
  coherent := Shared.coherent_empty legacy
  kept := rfl
  active i commit hi := by cases hi

/-- **Replacements are exclusive.**  In a run in which no replacement is committed after one of its
inputs went out since its decision, the inputs of every replacement are active in the generation
before it, and no part that went out is an input of a later replacement, unless it was added
again. -/
theorem replaces_listed {legacy : LegacyManifest → Bool}
    {turns : List (Turn ReplacementJob RequestFate)} {c : ReplacementCrew}
    (hunraced : (replacementMachine digests).Within (fun c turn _ => Unraced c turn)
      (Contract.Crew.idle (Shared.empty legacy)) turns)
    (hrun : (replacementMachine digests).run (Contract.Crew.idle (Shared.empty legacy)) turns =
      some c) : c.shared.Active ∧ c.shared.TakenOnce := by
  have hkept : replacementContract.Kept catalogDevice c := by
    refine Contract.run (C := replacementContract)
      (fun job s hs _ => replacement_guarded digests job hs) (Shared.excluded_empty legacy)
      (within_mono (fun c turn _ h => ?_) hunraced) hrun
    cases turn with
    | start job => exact ⟨trivial, fun _ _ => ⟨trivial, trivial⟩⟩
    | move i fate => exact h
    | kill i => trivial
  exact ⟨hkept.inv.active, hkept.inv.active.takenOnce⟩

/-! ### A part that is brought back -/

def firstProcess (task : WriterTask) (harmless : task.Harmless) : ReplacementJob :=
  ⟨⟨0, task⟩, harmless⟩

/-- Operations of a task that go well. -/
def replacementSteps (i n : ℕ) : List (Turn ReplacementJob RequestFate) :=
  List.replicate n (.move i .fine)

/-- The output of a merge of the sample part. -/
def mergedPart : ManifestPart := ⟨"merged", "2026-01-01"⟩

def publishedSample : List (Turn ReplacementJob RequestFate) :=
  [.start (firstProcess (.claim .first) fun _ => rfl)] ++ replacementSteps 0 22 ++
    [.start (firstProcess (.publish [samplePart] [] .add) fun _ => rfl)] ++
    replacementSteps 0 12

def mergeStart : Turn ReplacementJob RequestFate :=
  .start (firstProcess (.publish [mergedPart] [samplePart.id] ⟨"merge", by decide⟩) fun _ => rfl)

def expireStart : Turn ReplacementJob RequestFate :=
  .start (firstProcess (.publish [] [samplePart.id] ⟨"expire", by decide⟩) fun _ => rfl)

/-- What comes in and what goes out in each generation. -/
def logChanges (c : ReplacementCrew) : List (List ManifestPart × List String) :=
  c.shared.chain.map fun commit => (commit.mutation.logAdded, commit.mutation.logRemoved)

theorem run_merged : ((replacementMachine sampleDigests).run
    (Contract.Crew.idle (Shared.empty fun _ => false))
    (publishedSample ++ [mergeStart] ++ replacementSteps 0 12)).map logChanges =
      some [([], []), ([samplePart], []), ([mergedPart], [samplePart.id])] := by
  decide +kernel

/-- A part is published and merged. -/
theorem replaces_listed_sample : ∃ c, (replacementMachine sampleDigests).run
    (Contract.Crew.idle (Shared.empty fun _ => false))
    (publishedSample ++ [mergeStart] ++ replacementSteps 0 12) = some c ∧
      logChanges c = [([], []), ([samplePart], []), ([mergedPart], [samplePart.id])] ∧
      c.shared.Active ∧ c.shared.TakenOnce := by
  obtain ⟨c, hrun, hchanges⟩ := Option.map_eq_some_iff.1 run_merged
  exact ⟨c, hrun, hchanges, replaces_listed sampleDigests (by decide +kernel) hrun⟩

/-- The part expires after the merge has decided and before it commits. -/
def expiredMerge : List (Turn ReplacementJob RequestFate) :=
  publishedSample ++ [mergeStart] ++ replacementSteps 0 6 ++ [expireStart] ++
    replacementSteps 1 9 ++ replacementSteps 0 6

theorem run_expiredMerge : ((replacementMachine sampleDigests).run
    (Contract.Crew.idle (Shared.empty fun _ => false)) expiredMerge).map (fun c =>
      (logChanges c, replayChain (c.shared.chain.take 3))) =
      some ([([], []), ([samplePart], []), ([], [samplePart.id]),
        ([mergedPart], [samplePart.id])], .ok (sampleState 3 1 "expire" [])) := by
  decide +kernel

/-- A part that expires between a merge's decision and its commit is brought back by the merge. -/
theorem replaces_removed : ¬ ∀ (digests : Digests) (legacy : LegacyManifest → Bool)
    (turns : List (Turn ReplacementJob RequestFate)) (c : ReplacementCrew),
    (replacementMachine digests).run (Contract.Crew.idle (Shared.empty legacy)) turns = some c →
      c.shared.Active := by
  intro h
  obtain ⟨c, hrun, hsample⟩ := Option.map_eq_some_iff.1 run_expiredMerge
  obtain ⟨hchanges, hbefore⟩ := Prod.mk.inj hsample
  have hlast : (logChanges c)[3]? = some ([mergedPart], [samplePart.id]) := by rw [hchanges]; rfl
  rw [logChanges, List.getElem?_map] at hlast
  obtain ⟨commit, hcommit, hmutation⟩ := Option.map_eq_some_iff.1 hlast
  obtain ⟨hadded, hremoved⟩ := Prod.mk.inj hmutation
  obtain ⟨state, hstate, hfinds⟩ := h sampleDigests _ _ c hrun 3 commit hcommit
  rw [hbefore] at hstate
  have hreplaces : commit.mutation.Replaces .logs := by
    refine ⟨?_, ?_⟩
    · show commit.mutation.logAdded ≠ []
      rw [hadded]
      exact List.cons_ne_nil _ _
    · show commit.mutation.logRemoved ≠ []
      rw [hremoved]
      exact List.cons_ne_nil _ _
  have hinput : samplePart.id ∈ commit.mutation.removed .logs := by
    show samplePart.id ∈ commit.mutation.logRemoved
    rw [hremoved]
    exact List.mem_singleton.2 rfl
  have hlists := hfinds .logs hreplaces _ hinput
  rw [← Except.ok.inj hstate] at hlists
  revert hlists
  decide

end Catalog

end Obsy
