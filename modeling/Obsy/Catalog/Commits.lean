import Obsy.Catalog.Coherence
import Mathlib.Data.List.Dedup

/-!
# Loads and commits are safe

What the catalog's programs do for a task that keeps to its footprint, whatever the other tasks do
in between.

* `safe_loadCatalogState`: a load gives what first commits of the chain make, and one from the
  store sees every commit that was there when it began.
* `safe_commitLoop`: an acknowledged mutation made the commit that its state ends with, or the
  commit carries its transaction; what the task deletes is no longer listed.
-/

namespace Obsy

namespace Catalog

open Machine Machine.Program

open Shared (Grown)

variable (digests : Digests) {f : Footprint} {s : Shared}

/-! ### Reading replicated objects -/

theorem checkReplica_eq {α : Type} {generation : ℕ} {generationOf : α → ℕ}
    {check : α → Except CatalogError Unit} {bytes : Except CatalogError (Option α)} {object : α}
    (h : checkReplica generation generationOf check bytes = .ok (some object)) :
    bytes = .ok (some object) := by
  unfold checkReplica at h
  split at h
  · cases h
  · cases h
  · split at h
    · cases h
    · split_ifs at h
      cases h
      rfl

theorem mem_mergeGenerations {first second : List ℕ} {generation : ℕ} :
    generation ∈ mergeGenerations first second ↔ generation ∈ first ∨ generation ∈ second := by
  unfold mergeGenerations
  rw [(List.perm_insertionSort _ _).mem_iff, List.mem_dedup, List.mem_append]

theorem safe_loadCommitReplica (replica : Replica) (generation : ℕ) :
    safe f (loadCommitReplica digests replica generation)
      (fun r t => ∀ commit, r = .ok (some commit) → t.Stands generation commit) s := by
  refine safe_bind
    (fun bytes t => ∀ commit, bytes = .ok (some commit) → t.Stands generation commit)
    (safe_perform (fun _ _ _ => trivial) ?_ ?_) fun bytes t _ hbytes => ?_
  · intro t _ ht _ commit hcommit
    exact ht.stands_of_find (Except.ok.inj hcommit)
  · rintro e t commit ⟨⟩
  · exact safe_pure fun commit hcommit => hbytes commit (checkReplica_eq hcommit)

theorem safe_loadSnapshotReplica (replica : Replica) (generation : ℕ) :
    safe f (loadSnapshotReplica digests replica generation)
      (fun r t => ∀ snapshot, r = .ok (some snapshot) → t.Seen snapshot.state) s := by
  refine safe_bind
    (fun bytes t => ∀ snapshot, bytes = .ok (some snapshot) → t.Seen snapshot.state)
    (safe_perform (fun _ _ _ => trivial) ?_ ?_) fun bytes t _ hbytes => ?_
  · intro t _ ht _ snapshot hsnapshot
    exact ht.snapshots _ _ (Shelf.mem_of_find (Except.ok.inj hsnapshot))
  · rintro e t snapshot ⟨⟩
  · exact safe_pure fun snapshot hsnapshot => hbytes snapshot (checkReplica_eq hsnapshot)

/-- What is read from two replicas is what one of them holds. -/
theorem safe_fromReplicas {α : Type} {generation : ℕ} {digestOf : α → String}
    {create : Replica → α → CatalogProgram Bool} {P : α → Shared → Prop}
    (hP : ∀ {object s t}, P object s → Grown s t → P object t)
    (hcreate : ∀ replica object t, P object t →
      safe f (create replica object) (fun _ _ => True) t)
    {first second : Except CatalogError (Option α)}
    (hfirst : ∀ object, first = .ok (some object) → P object s)
    (hsecond : ∀ object, second = .ok (some object) → P object s) :
    safe f (fromReplicas generation digestOf create first second) P s := by
  have hrepair : ∀ replica object, P object s →
      safe f (do let _ ← create replica object; return object) P s := fun replica object hobject =>
    safe_bind _ (hcreate replica object s hobject) fun _ _ hst _ =>
      safe_pure (hP hobject hst.grown)
  unfold fromReplicas
  split
  · split_ifs
    · exact safe_throw _
    · exact safe_pure (hfirst _ rfl)
  · exact hrepair .b _ (hfirst _ rfl)
  · exact hrepair .a _ (hsecond _ rfl)
  · exact safe_pure (hsecond _ rfl)
  · exact safe_pure (hfirst _ rfl)
  all_goals exact safe_throw _

theorem safe_loadCatalogCommit (generation : ℕ) :
    safe f (loadCatalogCommit digests generation) (fun commit t => t.Stands generation commit)
      s := by
  refine safe_bind _ (safe_loadCommitReplica digests .a generation) fun first t _ hfirst => ?_
  refine safe_bind _ (safe_loadCommitReplica digests .b generation) fun second u htu hsecond => ?_
  refine safe_fromReplicas (P := fun commit s => s.Stands generation commit)
    (fun h hst => h.grown hst) (fun replica commit v hcommit => safe_ask_any fun w hvw _ => ?_)
    (fun commit hcommit => (hfirst commit hcommit).grown htu.grown) hsecond
  -- the repair repeats a commit that stands
  cases replica with
  | a => exact .inl (hcommit.grown hvw.grown)
  | b => exact hcommit.grown hvw.grown

theorem safe_loadCatalogSnapshot (generation : ℕ) :
    safe f (loadCatalogSnapshot digests generation) (fun snapshot t => t.Seen snapshot.state)
      s := by
  refine safe_bind _ (safe_loadSnapshotReplica digests .a generation) fun first t _ hfirst => ?_
  refine safe_bind _ (safe_loadSnapshotReplica digests .b generation)
    fun second u htu hsecond => ?_
  refine safe_fromReplicas (P := fun snapshot s => s.Seen snapshot.state)
    (fun {snapshot _ _} (h : Shared.Seen _ snapshot.state) hst => h.grown hst)
    ?_ (fun snapshot hsnapshot => (hfirst snapshot hsnapshot).grown htu.grown) hsecond
  exact fun replica snapshot v hsnapshot =>
    safe_ask_any fun w hvw _ => Shared.Seen.grown hsnapshot hvw.grown

theorem safe_firstReadable (generations : List ℕ) :
    safe f (firstReadable digests generations)
      (fun r t => ∀ snapshot, r = some snapshot → t.Seen snapshot.state) s := by
  induction generations generalizing s with
  | nil => exact safe_pure fun _ h => (by cases h)
  | cons generation rest ih =>
    refine safe_bind _ (safe_attempt (safe_loadCatalogSnapshot digests generation))
      fun r t _ hr => ?_
    cases r with
    | ok snapshot =>
      refine safe_pure fun snapshot' hsnapshot' => ?_
      cases hsnapshot'
      exact hr snapshot rfl
    | error e => exact ih

theorem safe_loadLatestSnapshot :
    safe f (loadLatestSnapshot digests)
      (fun r t => ∀ snapshot, r = some snapshot → t.Seen snapshot.state) s := by
  refine safe_bind (fun _ _ => True) ?_ fun generations t _ _ => safe_firstReadable digests _
  refine safe_bind _ (safe_ask_any fun _ _ _ => trivial) fun first t _ _ => ?_
  exact safe_bind _ (safe_ask_any fun _ _ _ => trivial) fun second u _ _ => safe_pure trivial

theorem safe_commitGenerations (offset : ℕ) :
    safe f (commitGenerations offset)
      (fun generations _ => ∀ g, offset < g → g ≤ s.chain.length → g ∈ generations) s := by
  refine safe_bind (fun (first : List ℕ) _ => ∀ g, offset < g → g ≤ s.chain.length → g ∈ first)
    (safe_ask (fun _ _ _ => trivial) fun t hst ht _ g hoffset hg => ?_) fun first t _ hfirst => ?_
  · refine List.mem_filter.2 ⟨?_, decide_eq_true hoffset⟩
    rw [ht.numbered, List.mem_range'_1]
    have := hst.grown.length_le
    omega
  · refine safe_bind _ (safe_ask_any fun _ _ _ => trivial) fun second u _ _ => ?_
    exact safe_pure fun g hoffset hg => mem_mergeGenerations.2 (.inl (hfirst g hoffset hg))

/-! ### Loading -/

/-- Replaying ends after the last of the generations. -/
theorem safe_replayGenerations {generations : List ℕ} {state : CatalogState}
    (hseen : s.Seen state) :
    safe f (replayGenerations digests state generations)
      (fun next t => t.Seen next ∧ state.generation ≤ next.generation ∧
        ∀ g ∈ generations, g ≤ next.generation) s := by
  induction generations generalizing state s with
  | nil => exact safe_pure ⟨hseen, Nat.le_refl _, fun _ h => (by cases h)⟩
  | cons generation rest ih =>
    unfold replayGenerations
    cases hsucc : checkedSucc state.generation with
    | none => exact safe_throw _
    | some expected =>
      dsimp only
      split_ifs with hgap
      · exact safe_throw _
      rw [not_not] at hgap
      subst hgap
      have hgeneration := checkedSucc_eq_some hsucc
      refine safe_bind _ (safe_loadCatalogCommit digests generation) fun commit t hst hstands => ?_
      refine safe_bind (fun _ _ => True) (safe_lift fun _ _ => trivial) fun _ u htu _ => ?_
      refine safe_bind (fun next t => t.Seen next ∧ Applied state commit next)
        (safe_lift fun next hnext => ?_) fun next v _ hnext => ?_
      · exact ⟨((hseen.grown hst.grown).grown htu.grown).next (hstands.grown htu.grown) hnext
          hgeneration, applied_of_apply hnext⟩
      · have hnextGeneration := hnext.2.succ_eq
        refine safe_mono (ih hnext.1) fun last w hlast => ⟨hlast.1, ?_, fun g hg => ?_⟩
        · exact (by omega : state.generation ≤ next.generation).trans hlast.2.1
        · rcases List.mem_cons.1 hg with rfl | hg
          · rw [hgeneration, ← hnextGeneration]
            exact hlast.2.1
          · exact hlast.2.2 g hg

theorem safe_refuseLegacy (legacy : LegacyManifest) :
    safe f (refuseLegacy legacy) (fun _ _ => True) s := by
  refine safe_bind _ (safe_ask_any fun _ _ _ => trivial) fun present t _ _ => ?_
  split_ifs
  · exact safe_throw _
  · exact safe_pure trivial

/-- **A load from the store** sees every commit that was there when it began. -/
theorem safe_loadFromStore (process : ProcessId) :
    safe f (loadFromStore digests process)
      (fun state t => t.Seen state ∧ s.chain.length ≤ state.generation) s := by
  refine safe_bind _ (safe_loadLatestSnapshot digests) fun snapshot t₁ h₁ hsnapshot => ?_
  have hstart : t₁.Seen ((snapshot.map (·.state)).getD .default) := by
    cases snapshot with
    | none => exact Shared.seen_default t₁
    | some snapshot => exact hsnapshot snapshot rfl
  refine safe_bind _ (safe_commitGenerations _) fun generations t₂ h₂ hgenerations => ?_
  refine safe_bind _ (safe_refuseLegacy .logs) fun _ t₃ h₃ _ => ?_
  refine safe_bind _ (safe_refuseLegacy .traces) fun _ t₄ h₄ _ => ?_
  refine safe_bind _ (safe_refuseLegacy .metrics) fun _ t₅ h₅ _ => ?_
  have hstart₅ := (((hstart.grown h₂.grown).grown h₃.grown).grown h₄.grown).grown h₅.grown
  refine safe_bind _ (safe_replayGenerations digests hstart₅) fun state t₆ _ hstate => ?_
  obtain ⟨hseen, hge, hall⟩ := hstate
  have hlength : s.chain.length ≤ state.generation := by
    refine h₁.grown.length_le.trans ?_
    rcases Nat.lt_or_ge ((snapshot.map (·.state)).getD CatalogState.default).generation
      t₁.chain.length with hlt | hle
    · exact hall _ (hgenerations _ hlt (Nat.le_refl _))
    · exact hle.trans hge
  split_ifs
  · refine safe_bind _ (safe_act fun u hu _ => hseen.grown hu.grown) fun _ u hu _ => ?_
    exact safe_pure ⟨hseen.grown hu.grown, hlength⟩
  · exact safe_pure ⟨hseen, hlength⟩

/-- What a load gives: after a catalog that leaves the task nothing to commit, no commit adds a
part whose files the task deletes. -/
theorem safe_loadCatalogState (process : ProcessId) :
    safe f (loadCatalogState digests process)
      (fun r t => t.Seen r.1 ∧ (r.2 = true → s.chain.length ≤ r.1.generation) ∧
        (f.Content r.1 → t.NoneAfter f r.1)) s := by
  refine safe_bind (fun cached t => ∀ state, cached = some state →
      t.Seen state ∧ (f.Content state → t.NoneAfter f state))
    (safe_ask (fun _ _ _ => trivial) fun t hst ht hasks state hstate =>
      ⟨ht.cached process state hstate, hasks process rfl state hstate⟩) fun cached t hst hcached => ?_
  cases cached with
  | some state =>
    obtain ⟨hseen, hafter⟩ := hcached state rfl
    exact safe_pure ⟨hseen, fun h => (by cases h), hafter⟩
  | none =>
    refine safe_bind _ (safe_loadFromStore digests process) fun state u htu hstate => ?_
    exact safe_pure ⟨hstate.1, fun _ => hst.grown.length_le.trans hstate.2,
      fun _ => Shared.noneAfter_of_length_le hstate.2 htu⟩

/-! ### Committing -/

theorem safe_checkEpoch (process : ProcessId) (observed : ℕ) :
    safe f (checkEpoch process observed) (fun held _ => held ≠ 0 → observed = held) s := by
  refine safe_bind _ (safe_ask_any fun _ _ _ => trivial) fun held t _ _ => ?_
  split_ifs with h
  · exact safe_pure h.resolve_left
  · exact safe_throw _

theorem safe_writeSnapshotReplica {snapshot : CatalogSnapshot} (hseen : s.Seen snapshot.state)
    (replica : Replica) :
    safe f (writeSnapshotReplica snapshot replica) (fun _ _ => True) s := by
  refine safe_bind _ (safe_ask_any fun t ht _ => hseen.grown ht.grown) fun created t _ _ => ?_
  split_ifs
  · exact safe_pure trivial
  refine safe_bind _ (safe_ask_any fun _ _ _ => trivial) fun existing u _ _ => ?_
  split
  · exact safe_throw _
  · split_ifs
    · exact safe_pure trivial
    · exact safe_throw _

theorem safe_writeCatalogSnapshot {state : CatalogState} (hseen : s.Seen state) :
    safe f (writeCatalogSnapshot digests state) (fun _ _ => True) s := by
  refine safe_bind _ (safe_writeSnapshotReplica hseen .a) fun _ t hst _ => ?_
  exact safe_writeSnapshotReplica (hseen.grown hst.grown) .b

theorem safe_createSecondReplica {commit : CatalogCommit}
    (hstands : s.Stands commit.generation commit) :
    safe f (createSecondReplica commit) (fun _ _ => True) s := by
  refine safe_bind _ (safe_ask_any fun t ht _ => hstands.grown ht.grown) fun created t _ _ => ?_
  split_ifs
  · exact safe_pure trivial
  refine safe_bind _ (safe_ask_any fun _ _ _ => trivial) fun existing u _ _ => ?_
  split
  · exact safe_throw _
  · split_ifs
    · exact safe_pure trivial
    · exact safe_throw _

theorem safe_finishCommit (process : ProcessId) {commit : CatalogCommit} {next : CatalogState}
    (hstands : s.Stands commit.generation commit) (hseen : s.Seen next) :
    safe f (finishCommit digests process commit next) (fun _ _ => True) s := by
  refine safe_bind _ (safe_createSecondReplica hstands) fun _ t hst _ => ?_
  refine safe_bind _ (safe_act fun u hu _ => (hseen.grown hst.grown).grown hu.grown)
    fun _ u htu _ => ?_
  split_ifs
  · exact safe_bind _ (safe_attempt (safe_writeCatalogSnapshot digests
      ((hseen.grown hst.grown).grown htu.grown))) fun _ _ _ _ => safe_pure trivial
  · exact safe_pure trivial

/-- What an acknowledged mutation reports is so. -/
structure Committed.Recorded (c : Committed) (s : Shared) : Prop where
  seen : s.Seen c.state
  held : c.held ≠ 0 → c.mutation.claimWriter = false → c.state.writerEpoch = c.held
  commit : c.ack ≠ .unchanged → ∃ commit, s.Stands c.state.generation commit ∧
    commit.mutation.writerEpoch = c.state.writerEpoch ∧
    commit.mutation.transactionId = c.mutation.transactionId ∧
    (c.ack = .produced → commit.mutation = c.mutation)

theorem Committed.Recorded.grown {c : Committed} {s t : Shared} (h : c.Recorded s)
    (hst : Grown s t) : c.Recorded t where
  seen := h.seen.grown hst
  held := h.held
  commit hack := (h.commit hack).imp fun _ hc => ⟨hc.1.grown hst, hc.2⟩

/-- What a commit of a mutation gives: it is recorded, and what the task deletes is not listed. -/
def Committed.Ends (mutation : CatalogMutation) (f : Footprint) (c : Committed) (s : Shared) :
    Prop :=
  c.Recorded s ∧ c.mutation = mutation ∧ s.Gone f

theorem listed_eq_of_sameParts {state next : CatalogState} (h : sameParts state next = true)
    (signal : Signal) : next.listed signal = state.listed signal := by
  unfold sameParts at h
  rw [Bool.and_eq_true, Bool.and_eq_true] at h
  cases signal with
  | logs => exact of_decide_eq_true h.1.1
  | traces => exact of_decide_eq_true h.1.2
  | metrics => exact of_decide_eq_true h.2

/-- A mutation that the task owns and that changes nothing leaves it nothing to commit. -/
theorem content_of_sameParts {state next : CatalogState} {commit : CatalogCommit}
    (hsettles : f.Settles commit.mutation) (happlied : Applied state commit next)
    (hsame : sameParts state next = true) : f.Content state := by
  have hlists : ∀ signal id, next.Lists signal id ↔ state.Lists signal id := fun signal id => by
    rw [CatalogState.Lists, CatalogState.Lists, listed_eq_of_sameParts hsame]
  have hcontent := hsettles.content happlied
  exact ⟨fun signal id h => (hlists signal id).1 (hcontent.added signal id h),
    fun signal id h hlisted => hcontent.removed signal id h ((hlists signal id).2 hlisted)⟩

/-- A mutation is recorded on top of a state, or it goes on after the commit of another. -/
theorem safe_createCommit (process : ProcessId) {mutation : CatalogMutation} {state : CatalogState}
    {held : ℕ} {again : CatalogProgram Committed} (howns : f.Owns mutation) (hseen : s.Seen state)
    (hafter : f.Content state → s.NoneAfter f state)
    (hheld : held ≠ 0 → state.writerEpoch = held)
    (hagain : ∀ t, f.Later s t → safe f again (Committed.Ends mutation f) t) :
    safe f (createCommit digests process mutation state held again) (Committed.Ends mutation f)
      s := by
  unfold createCommit
  cases hsucc : checkedSucc state.generation with
  | none => exact safe_throw _
  | some generation =>
    dsimp only
    obtain rfl := checkedSucc_eq_some hsucc
    set commit := nextCommit digests state (state.generation + 1) mutation
    refine safe_bind (fun next _ => applyCatalogMutation state commit = .ok next)
      (safe_lift fun _ h => h) fun next t hst happly => ?_
    have hseen := hseen.grown hst.grown
    have happlied := applied_of_apply happly
    split_ifs with hsame
    · -- nothing changes
      have hgone : t.Gone f := by
        by_cases hdeletes : f.Deletes
        · rw [Bool.and_eq_true] at hsame
          have hcontent := content_of_sameParts (howns.settles hdeletes) happlied hsame.2
          exact hseen.gone hcontent ((hafter hcontent).later hst)
        · exact Shared.gone_of_not_deletes hdeletes t
      refine safe_bind _ (safe_act fun u hu _ => hseen.grown hu.grown) fun _ u htu _ => ?_
      exact safe_pure ⟨⟨hseen.grown htu.grown, fun h _ => hheld h, fun h => absurd rfl h⟩, rfl,
        hgone.later htu⟩
    refine safe_bind (fun created u => created = true →
        u.Stands (state.generation + 1) commit ∧ u.chain.length = state.generation + 1)
      (safe_ask
        (fun u htu _ => .inr ⟨state, next, hseen.grown htu.grown, rfl, happly, howns⟩)
        fun u htu hu _ hcreated => hu.stands_of_created (hseen.grown htu.grown) hcreated)
      fun created u htu hstands => ?_
    split_ifs with hcreated
    · obtain ⟨hstands, hlength⟩ := hstands hcreated
      have hnext : u.Seen next := (hseen.grown htu.grown).next hstands happly rfl
      have hgone : u.Gone f := by
        by_cases hdeletes : f.Deletes
        · exact hnext.gone ((howns.settles hdeletes).content happlied)
            (Shared.noneAfter_of_length_le (hlength.trans happlied.generation.symm).le
              (Footprint.Later.refl f u))
        · exact Shared.gone_of_not_deletes hdeletes u
      refine safe_bind _ (safe_finishCommit digests process hstands hnext) fun _ v huv _ => ?_
      refine safe_pure ⟨⟨hnext.grown huv.grown, fun h hclaim => ?_,
        fun _ => ⟨commit, ?_, ?_, rfl, fun _ => rfl⟩⟩, rfl, hgone.later huv⟩
      · have hclaim : commit.mutation.claimWriter = false := hclaim
        rw [happlied.epoch_eq, hclaim, if_neg Bool.false_ne_true]
        exact hheld h
      · rw [happlied.generation]
        exact hstands.grown huv.grown
      · exact happlied.writerEpoch.symm
    · refine safe_bind _ (safe_act fun _ _ _ => trivial) fun _ v huv _ => ?_
      exact hagain v ((hst.trans htu).trans huv)

/-- A state whose last commit carries the task's transaction leaves it nothing to commit. -/
theorem content_of_repeated (hclear : f.Clear s) {state : CatalogState} (hseen : s.Seen state)
    (hpos : 0 < state.generation) (hcarries : f.carries state.lastTransactionId)
    (hdeletes : f.Deletes) : f.Content state := by
  obtain ⟨commit, before, ⟨i, -, hi⟩, happlied⟩ := hseen.last hpos
  rw [happlied.lastTransactionId] at hcarries
  exact (hclear.settled hdeletes commit (List.mem_of_getElem? hi) hcarries).content happlied

/-- A repeated mutation is recorded by the commit that the state ends with. -/
theorem recorded_of_repeated {mutation : CatalogMutation} (hidentity : mutation.transactionId ≠ "")
    {state : CatalogState} {held : ℕ} (hseen : s.Seen state)
    (hheld : held ≠ 0 → state.writerEpoch = held)
    (hrepeated : state.lastTransactionId = mutation.transactionId) :
    0 < state.generation ∧ (⟨mutation, state, .repeated, held⟩ : Committed).Recorded s := by
  -- the empty catalog carries no transaction
  have hpos : 0 < state.generation := by
    refine Nat.pos_of_ne_zero fun hzero => hidentity ?_
    have hreplay := hseen.2
    rw [hzero, List.take_zero] at hreplay
    rw [← hrepeated, ← Except.ok.inj hreplay]
    rfl
  obtain ⟨commit, before, hstands, happlied⟩ := hseen.last hpos
  exact ⟨hpos, hseen, fun h _ => hheld h, fun _ => ⟨commit, hstands, happlied.writerEpoch.symm,
    happlied.lastTransactionId.symm.trans hrepeated, fun h => (by cases h)⟩⟩

/-- **The compare-and-create loop**: what it acknowledges is recorded. -/
theorem safe_commitLoop (process : ProcessId) {mutation : CatalogMutation}
    (hidentity : mutation.transactionId ≠ "") (howns : f.Owns mutation) (attempts : ℕ) :
    safe f (commitLoop digests process mutation attempts) (Committed.Ends mutation f) s := by
  induction attempts generalizing s with
  | zero => exact safe_throw _
  | succ attempts ih =>
    refine safe_bind _ (safe_loadCatalogState digests process) fun r t _ hload => ?_
    obtain ⟨state, fromStore⟩ := r
    refine safe_bind _ (safe_checkEpoch process state.writerEpoch) fun held u htu hheld => ?_
    have hseen : u.Seen state := hload.1.grown htu.grown
    have hafter : f.Content state → u.NoneAfter f state := fun h => (hload.2.2 h).later htu
    have hcreate : safe f (createCommit digests process mutation state held
        (commitLoop digests process mutation attempts)) (Committed.Ends mutation f) u :=
      safe_createCommit digests process howns hseen hafter hheld fun _ _ => ih
    dsimp only
    split_ifs with hrepeated
    · intro hclear
      obtain ⟨hpos, hrecorded⟩ := recorded_of_repeated hidentity hseen hheld hrepeated
      refine ⟨hrecorded, rfl, ?_⟩
      by_cases hdeletes : f.Deletes
      · have hcontent := content_of_repeated hclear hseen hpos (hrepeated ▸ howns.carries) hdeletes
        exact hseen.gone hcontent (hafter hcontent)
      · exact Shared.gone_of_not_deletes hdeletes u
    · cases checkedSucc state.writerEpoch with
      | none => exact safe_throw _
      | some expected =>
        dsimp only
        split_ifs
        · exact ih
        · exact hcreate
    · exact safe_throw _
    · exact hcreate

theorem safe_commitCatalogMutation (process : ProcessId) (mutation : CatalogMutation)
    (fresh : TransactionId) (howns : f.Owns (mutation.identified fresh)) :
    safe f (commitCatalogMutation digests process mutation fresh)
      (Committed.Ends (mutation.identified fresh) f) s :=
  safe_commitLoop digests process (mutation.identified_ne fresh) howns _

theorem safe_claimWriterEpoch (process : ProcessId) (transaction : TransactionId)
    (howns : ∀ epoch, f.Owns (claimMutation transaction epoch)) :
    safe f (claimWriterEpoch digests process transaction)
      (fun c t => c.Recorded t ∧ c.mutation.transactionId = transaction.value ∧
        c.mutation.claimWriter = true) s := by
  refine safe_bind _ (safe_loadCatalogState digests process) fun r t _ _ => ?_
  obtain ⟨state, fromStore⟩ := r
  dsimp only
  cases checkedSucc state.writerEpoch with
  | none => exact safe_throw _
  | some epoch =>
    have hidentified : (claimMutation transaction epoch).identified transaction =
        claimMutation transaction epoch := if_neg transaction.nonempty
    refine safe_bind _ (safe_commitCatalogMutation digests process
      (claimMutation transaction epoch) transaction (by rw [hidentified]; exact howns epoch))
      fun c u _ hc => ?_
    refine safe_bind _ (safe_act fun _ _ _ => trivial) fun _ v huv _ => ?_
    refine safe_pure ⟨hc.1.grown huv.grown, ?_⟩
    rw [hc.2.1, hidentified]
    exact ⟨rfl, rfl⟩

end Catalog

end Obsy
