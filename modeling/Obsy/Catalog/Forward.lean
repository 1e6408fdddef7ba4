import Obsy.Catalog.Memory

/-!
# The catalog in memory goes forward

What loads and commits do for a task of a process, next to its other tasks.

* `tends`: a program keeps the pact of a process, with the rules to show it.
* `tends_loadCatalogState`, `tends_commitLoop`: loads and commits do.
* `memory_forward`: in a run of undisturbed turns the catalog in memory never goes back, and a load
  that begins after an acknowledgement has its commit.
* `memory_backward`: a load stores the catalog from before a commit that was acknowledged.
-/

namespace Obsy

namespace Catalog

open Machine Machine.Program

open Shared (Grown)

variable (digests : Digests) {process : ProcessId} {k : CatalogTask × ℕ} {x y : Marked}

/-! ### What a commit changes and bears -/

theorem Marks.change_of_grows (hk : k.1.commits = true) (h : Marks.Grows x y) :
    (memoryPact process).change k x y := by
  show Marks.others process (!k.1.commits) x y
  rw [hk]
  exact h

theorem Marks.still_of_others (hk : k.1.commits = true) (h : (memoryPact process).others k x y) :
    Marks.Still process x y := by
  have h : Marks.others process k.1.commits x y := h
  rwa [hk] at h

/-! ### Programs that leave memory alone -/

section Quiet

variable {α β : Type}

theorem only_ask {op : CatalogOp} (h : op.Quiet) : (ask op).Only CatalogOp.Quiet :=
  only_bind (only_perform (I := catalogInterface) h) fun r => by
    cases r <;> trivial

theorem only_lift (result : Except CatalogError α) : (lift result).Only CatalogOp.Quiet := by
  cases result <;> trivial

theorem only_loadCommitReplica (replica : Replica) (generation : ℕ) :
    (loadCommitReplica digests replica generation).Only CatalogOp.Quiet :=
  only_bind (only_perform (I := catalogInterface) trivial) fun _ => trivial

theorem only_loadSnapshotReplica (replica : Replica) (generation : ℕ) :
    (loadSnapshotReplica digests replica generation).Only CatalogOp.Quiet :=
  only_bind (only_perform (I := catalogInterface) trivial) fun _ => trivial

theorem only_fromReplicas {generation : ℕ} {digestOf : α → String}
    {create : Replica → α → CatalogProgram Bool}
    (hcreate : ∀ replica object, (create replica object).Only CatalogOp.Quiet)
    (first second : Except CatalogError (Option α)) :
    (fromReplicas generation digestOf create first second).Only CatalogOp.Quiet := by
  unfold fromReplicas
  split
  · split_ifs <;> trivial
  · exact only_bind (hcreate _ _) fun _ => trivial
  · exact only_bind (hcreate _ _) fun _ => trivial
  all_goals trivial

theorem only_loadCatalogCommit (generation : ℕ) :
    (loadCatalogCommit digests generation).Only CatalogOp.Quiet := by
  refine only_bind (only_loadCommitReplica digests .a generation) fun first => ?_
  refine only_bind (only_loadCommitReplica digests .b generation) fun second => ?_
  have hcreate : ∀ replica commit,
      (ask (.createCommit replica generation commit)).Only CatalogOp.Quiet :=
    fun _ _ => only_ask trivial
  exact only_fromReplicas hcreate first second

theorem only_loadCatalogSnapshot (generation : ℕ) :
    (loadCatalogSnapshot digests generation).Only CatalogOp.Quiet := by
  refine only_bind (only_loadSnapshotReplica digests .a generation) fun first => ?_
  refine only_bind (only_loadSnapshotReplica digests .b generation) fun second => ?_
  have hcreate : ∀ replica snapshot,
      (ask (.createSnapshot replica generation snapshot)).Only CatalogOp.Quiet :=
    fun _ _ => only_ask trivial
  exact only_fromReplicas hcreate first second

theorem only_firstReadable (generations : List ℕ) :
    (firstReadable digests generations).Only CatalogOp.Quiet := by
  induction generations with
  | nil => trivial
  | cons generation rest ih =>
    refine only_bind (only_attempt (only_loadCatalogSnapshot digests generation)) fun r => ?_
    cases r with
    | ok snapshot => trivial
    | error e => exact ih

theorem only_loadLatestSnapshot : (loadLatestSnapshot digests).Only CatalogOp.Quiet := by
  refine only_bind ?_ fun generations => only_firstReadable digests generations.reverse
  exact only_bind (only_ask trivial) fun _ => only_bind (only_ask trivial) fun _ => trivial

theorem only_commitGenerations (offset : ℕ) : (commitGenerations offset).Only CatalogOp.Quiet :=
  only_bind (only_ask trivial) fun _ => only_bind (only_ask trivial) fun _ => trivial

theorem only_replayGenerations (state : CatalogState) (generations : List ℕ) :
    (replayGenerations digests state generations).Only CatalogOp.Quiet := by
  induction generations generalizing state with
  | nil => trivial
  | cons generation rest ih =>
    unfold replayGenerations
    cases checkedSucc state.generation with
    | none => trivial
    | some expected =>
      dsimp only
      split_ifs
      · trivial
      refine only_bind (only_loadCatalogCommit digests generation) fun commit => ?_
      exact only_bind (only_lift _) fun _ => only_bind (only_lift _) fun next => ih next

theorem only_refuseLegacy (legacy : LegacyManifest) :
    (refuseLegacy legacy).Only CatalogOp.Quiet := by
  refine only_bind (only_ask trivial) fun present => ?_
  split_ifs <;> trivial

theorem only_checkEpoch (observed : ℕ) : (checkEpoch process observed).Only CatalogOp.Quiet := by
  refine only_bind (only_ask trivial) fun held => ?_
  split_ifs <;> trivial

theorem only_writeSnapshotReplica (snapshot : CatalogSnapshot) (replica : Replica) :
    (writeSnapshotReplica snapshot replica).Only CatalogOp.Quiet := by
  refine only_bind (only_ask trivial) fun created => ?_
  split_ifs
  · trivial
  refine only_bind (only_ask trivial) fun existing => ?_
  split
  · trivial
  · split_ifs <;> trivial

theorem only_writeCatalogSnapshot (state : CatalogState) :
    (writeCatalogSnapshot digests state).Only CatalogOp.Quiet :=
  only_bind (only_writeSnapshotReplica _ .a) fun _ => only_writeSnapshotReplica _ .b

theorem only_createSecondReplica (commit : CatalogCommit) :
    (createSecondReplica commit).Only CatalogOp.Quiet := by
  refine only_bind (only_ask trivial) fun created => ?_
  split_ifs
  · trivial
  refine only_bind (only_ask trivial) fun existing => ?_
  split
  · trivial
  · split_ifs <;> trivial

end Quiet

/-! ### Rules -/

section Rules

variable {α β : Type} {P Q : α → Marked → Prop}

/-- A program keeps the pact of a process, and what it returns meets a postcondition. -/
def tends (process : ProcessId) (k : CatalogTask × ℕ) (p : CatalogProgram α)
    (P : α → Marked → Prop) (x : Marked) : Prop :=
  (memoryPact process).inv x → p.heeds (markedDevice process) (memoryPact process) k
    (fun r y => match r with
      | .ok a => (memoryPact process).inv y ∧ P a y
      | .error _ => True) x

theorem tends_ret {a : α} (h : P a x) : tends process k (ret a) P x := fun hx => ⟨hx, h⟩

theorem tends_throw (e : CatalogError) : tends process k (throw e : CatalogProgram α) P x :=
  fun _ => trivial

/-- **The sequencing rule.** -/
theorem tends_bind {p : CatalogProgram β} {q : β → CatalogProgram α} (R : β → Marked → Prop)
    (hp : tends process k p R x)
    (hq : ∀ b y, (memoryPact process).inv y → R b y → tends process k (q b) P y) :
    tends process k (p >>= q) P x := by
  refine fun hx => heeds_bind (R := fun b y => (memoryPact process).inv y ∧ R b y) ?_
    fun b y hy => hq b y hy.1 hy.2 hy.1
  refine heeds_mono (hp hx) fun r y hr => ?_
  cases r with
  | ok b => exact hr
  | error e => trivial

/-- A program that touches neither memory nor the chain of commits. -/
theorem tends_quiet {p : CatalogProgram α} (hp : p.Only CatalogOp.Quiet) {R : α → Shared → Prop}
    (h : safe Footprint.idle p R x.1) :
    tends process k p (fun a y => (memoryPact process).others k x y ∧ R a y.1) x := by
  refine fun hx => heeds_mono (heeds_inv hx (quiet_heeds hp h)) fun r y hr => ?_
  cases r with
  | ok a => exact hr
  | error e => trivial

/-- Such a program, and what follows it. -/
theorem tends_after {p : CatalogProgram β} {q : β → CatalogProgram α} (hp : p.Only CatalogOp.Quiet)
    {R : β → Shared → Prop} (h : safe Footprint.idle p R x.1)
    (hq : ∀ b y, (memoryPact process).inv y → (memoryPact process).others k x y → R b y.1 →
      tends process k (q b) P y) :
    tends process k (p >>= q) P x :=
  tends_bind _ (tends_quiet hp h) fun b y hy hR => hq b y hy hR.1 hR.2

/-- **The rule for a change of memory.** -/
theorem tends_setCached {state : Option CatalogState} {R : Unit → Marked → Prop}
    (hseen : ∀ y, (memoryPact process).others k x y → ∀ s ∈ state, y.1.Seen s)
    (h : ∀ y t, (memoryPact process).others k x y → (memoryPact process).inv y →
      (memoryPact process).asks k y (.setCached process state) → t.chain = y.1.chain →
      t.store.deleted = y.1.store.deleted → (t.processes process).cached = state →
      (y.2.observe process t).Fit process t ∧
        (memoryPact process).change k y (t, y.2.observe process t) ∧
        R () (t, y.2.observe process t)) :
    tends process k (act (.setCached process state)) R x := by
  intro hx y hxy hy hasks fate
  have hallowed : y.1.Allowed Footprint.idle (.setCached process state) := by
    cases state with
    | none => trivial
    | some s => exact hseen y hxy s rfl
  obtain ⟨hcoherent, hchange⟩ := hy.1.1.effect (Footprint.idle_clear y.1) hallowed
  have hcached : ((y.1.effect (.setCached process state)).processes process).cached = state := by
    rw [Shared.effect, Shared.withProcess]
    dsimp only
    rw [Function.update_self]
  obtain ⟨hfit, hown, hR⟩ := h y _ hxy hy hasks (Footprint.chain_of_idle hchange) rfl hcached
  -- an access to memory does not fail
  have happly : (markedDevice process).apply fate y (.setCached process state) =
      (.ok (), y.1.effect (.setCached process state),
        y.2.observe process (y.1.effect (.setCached process state))) := by
    rw [markedDevice, Device.ghost]
    dsimp only [catalogDevice]
    rw [if_neg (by rw [Bool.and_eq_true]; exact fun h => Bool.false_ne_true h.2)]
    rfl
  rw [happly]
  exact ⟨⟨⟨hcoherent, hy.1.2⟩, hfit⟩, hown, ⟨⟨hcoherent, hy.1.2⟩, hfit⟩, hR⟩

end Rules

/-! ### Loading -/

/-- What a commit knows of a catalog: it is the newest of all, or in memory since a commit was
created. -/
structure Marks.Known (process : ProcessId) (state : CatalogState) (x : Marked) : Prop where
  seen : x.1.Seen state
  le : state.generation ≤ x.2.highest
  newest : state.generation = x.1.chain.length ∨
    (x.1.processes process).cached = some state ∧ x.2.emptied < x.1.chain.length

theorem Marks.Known.still {state : CatalogState} (h : Marks.Known process state x)
    (hxy : Marks.Still process x y) : Marks.Known process state y where
  seen := h.seen.grown hxy.grows.chain
  le := h.le.trans hxy.highest
  newest := by
    rw [hxy.chain]
    refine h.newest.imp id fun ⟨hcached, hlt⟩ => ?_
    obtain ⟨-, hemptied, hkept⟩ := hxy.held state hcached
    exact ⟨hkept hlt, hemptied ▸ hlt⟩

theorem Marks.Fit.known (h : (memoryPact process).inv x) {state : CatalogState}
    (hstate : (x.1.processes process).cached = some state) : Marks.Known process state x := by
  obtain ⟨hgeneration, hnewest⟩ := h.2.held state hstate
  refine ⟨h.1.1.cached process state hstate, hgeneration.le, ?_⟩
  rcases Nat.lt_or_eq_of_le h.2.emptied_le with hlt | heq
  · exact .inr ⟨hstate, hlt⟩
  · exact .inl (hnewest heq)

/-- A load of a process that knows no catalog. -/
theorem tends_loadFromStore (hfresh : x.2.emptied = x.1.chain.length)
    (hbegan : k.1.commits = false → k.2 ≤ x.1.chain.length) :
    tends process k (loadFromStore digests process) (fun state y =>
      x.1.chain.length ≤ state.generation ∧
        (k.1.commits = true → Marks.Known process state y)) x := by
  intro hx
  have hshared : ∀ {y z : Marked}, (memoryPact process).others k y z → y.1.Grown z.1 :=
    fun h => (Marks.others_grows h).chain
  refine tends_after (only_loadLatestSnapshot digests) (safe_loadLatestSnapshot digests)
    (fun snapshot y₁ _ h₁ hsnapshot => ?_) hx
  have hstart : y₁.1.Seen ((snapshot.map (·.state)).getD .default) := by
    cases snapshot with
    | none => exact Shared.seen_default y₁.1
    | some snapshot => exact hsnapshot snapshot rfl
  refine tends_after (only_commitGenerations _) (safe_commitGenerations _)
    fun generations y₂ _ h₂ hgenerations => ?_
  refine tends_after (only_refuseLegacy .logs) (safe_refuseLegacy .logs) fun _ y₃ _ h₃ _ => ?_
  refine tends_after (only_refuseLegacy .traces) (safe_refuseLegacy .traces)
    fun _ y₄ _ h₄ _ => ?_
  refine tends_after (only_refuseLegacy .metrics) (safe_refuseLegacy .metrics)
    fun _ y₅ _ h₅ _ => ?_
  have hothers := (memoryPact process).trans ((memoryPact process).trans ((memoryPact process).trans
    ((memoryPact process).trans h₁ h₂) h₃) h₄) h₅
  have hstart₅ := (((hstart.grown (hshared h₂)).grown (hshared h₃)).grown (hshared h₄)).grown
    (hshared h₅)
  refine tends_after (only_replayGenerations digests _ generations)
    (safe_replayGenerations digests hstart₅) fun state y₆ hy₆ h₆ ⟨hseen, hge, hall⟩ => ?_
  have hothers := (memoryPact process).trans hothers h₆
  have hlength : x.1.chain.length ≤ state.generation := by
    refine (hshared h₁).length_le.trans ?_
    rcases Nat.lt_or_ge ((snapshot.map (·.state)).getD CatalogState.default).generation
      y₁.1.chain.length with hlt | hle
    · exact hall _ (hgenerations _ hlt (Nat.le_refl _))
    · exact hle.trans hge
  -- the chain is as long as it was when the load found nothing in memory
  have hnewest : ∀ z, (memoryPact process).inv z → (memoryPact process).others k y₆ z →
      z.1.chain.length = x.1.chain.length →
      state.generation = z.1.chain.length ∧ z.2.emptied = z.1.chain.length := by
    intro z hz h₇ hlast
    have hall := Marks.others_grows ((memoryPact process).trans hothers h₇)
    have hseen := (hseen.grown (hshared h₇)).1
    have hemptied := hz.2.emptied_le
    have := hall.emptied
    omega
  split_ifs with hpos
  · refine tends_bind (fun _ z => k.1.commits = true → Marks.Known process state z)
      (tends_setCached (fun z h₇ s hs => Option.some.inj hs ▸ hseen.grown (hshared h₇))
        fun z t h₇ hz hasks hchain hdeleted hcached => ?_)
      fun _ z _ hz => tends_ret ⟨hlength, hz⟩
    have hlast : z.1.chain.length = x.1.chain.length := by
      have hall := (memoryPact process).trans hothers h₇
      cases hk : k.1.commits with
      | false =>
        refine Nat.le_antisymm ?_ (Marks.others_grows hall).chain.length_le
        exact (hasks hk state rfl).le.trans (hbegan hk)
      | true => exact congrArg List.length (Marks.still_of_others hk hall).chain
    obtain ⟨hgeneration, hemptied⟩ := hnewest z hz h₇ hlast
    obtain ⟨hfit, -, hle, hkept⟩ := hz.2.hold hchain hdeleted hcached hgeneration
    refine ⟨hfit, Marks.others_of_still (hkept (.inr hemptied)) _, fun _ => ⟨?_, hle, .inl ?_⟩⟩
    · exact (hseen.grown (hshared h₇)).grown (by rw [Grown, hchain])
    · exact hgeneration.trans (congrArg List.length hchain.symm)
  · refine tends_ret ⟨hlength, fun hk => ⟨hseen, ?_, .inl ?_⟩⟩
    · rw [Nat.eq_zero_of_not_pos hpos]
      exact Nat.zero_le _
    · exact (hnewest y₆ hy₆ ((memoryPact process).refl k y₆)
        (congrArg List.length (Marks.still_of_others hk hothers).chain)).1

/-- **A load** gives no catalog older than the newest that was ever in memory. -/
theorem tends_loadCatalogState (hbegan : k.1.commits = false → k.2 ≤ x.1.chain.length) :
    tends process k (loadCatalogState digests process) (fun r y =>
      x.2.highest ≤ r.1.generation ∧ (k.1.commits = true → Marks.Known process r.1 y)) x := by
  have hlook : safe Footprint.idle (ask (.cached process))
      (fun cached t => cached = (t.processes process).cached) x.1 :=
    safe_ask (fun _ _ _ => trivial) fun _ _ _ _ => rfl
  refine tends_after (only_ask trivial) hlook fun cached y hy hxy hcached => ?_
  have hgrows := Marks.others_grows hxy
  cases cached with
  | some state =>
    have hgeneration := (hy.2.held state hcached.symm).1
    exact tends_ret ⟨hgrows.highest.trans hgeneration.ge, fun _ => Marks.Fit.known hy hcached.symm⟩
  | none =>
    have hfresh := hy.2.empty hcached.symm
    refine tends_bind _ (tends_loadFromStore digests hfresh fun hk =>
      (hbegan hk).trans hgrows.chain.length_le) fun state z _ ⟨hlength, hknown⟩ => ?_
    exact tends_ret ⟨hgrows.highest.trans (hy.2.highest_le.trans hlength), hknown⟩

/-! ### Committing -/

/-- One more commit at the end of the chain, or none. -/
theorem tends_createFirst (hk : k.1.commits = true) {commit : CatalogCommit}
    {state next : CatalogState} (hseen : x.1.Seen state)
    (happly : applyCatalogMutation state commit = .ok next) :
    tends process k (ask (.createCommit .a (state.generation + 1) commit)) (fun created y =>
      created = true → y.1.Stands (state.generation + 1) commit ∧ y.1.Seen next ∧
        y.1.chain.length = state.generation + 1) x := by
  intro hx y hxy hy _ fate
  have hseen := hseen.grown (Marks.others_grows hxy).chain
  have hallowed : y.1.Allowed Footprint.free (.createCommit .a (state.generation + 1) commit) :=
    .inr ⟨state, next, hseen, rfl, happly, Footprint.free_owns _⟩
  obtain ⟨hcoherent, hchange⟩ := hy.1.1.effect (Footprint.free_clear hy.1.2) hallowed
  have hdeleted := deleted_of_change (fun _ _ => id) hy.1.2 hchange
  have hsame := hy.2.same rfl rfl rfl
  have hcreated : (memoryPact process).inv
        (y.1.effect (.createCommit .a (state.generation + 1) commit),
          y.2.observe process (y.1.effect (.createCommit .a (state.generation + 1) commit))) ∧
      Marks.Grows y (y.1.effect (.createCommit .a (state.generation + 1) commit),
        y.2.observe process (y.1.effect (.createCommit .a (state.generation + 1) commit))) := by
    obtain ⟨more, hmore, -⟩ := hchange.chain
    have hkept := hdeleted.trans hy.1.2.symm
    have hcached :=
      @cached_effect process y.1 (.createCommit .a (state.generation + 1) commit) trivial
    cases more with
    | nil =>
      obtain ⟨hfit, hstill⟩ := hy.2.same (hmore.trans (List.append_nil _)) hkept hcached
      exact ⟨⟨⟨hcoherent, hdeleted⟩, hfit⟩, hstill.grows⟩
    | cons first more =>
      obtain ⟨hfit, hgrows⟩ := hy.2.grow hchange.later.grown
        (by rw [hmore, List.length_append, List.length_cons]; omega) hkept hcached
      exact ⟨⟨⟨hcoherent, hdeleted⟩, hfit⟩, hgrows⟩
  rcases markedDevice_cases fate y (.createCommit .a (state.generation + 1) commit) with h | h | h
  · rw [h]
    exact ⟨⟨hy.1, hsame.1⟩, Marks.change_of_grows hk hsame.2.grows, trivial⟩
  · rw [h]
    exact ⟨hcreated.1, Marks.change_of_grows hk hcreated.2, trivial⟩
  · rw [h]
    refine ⟨hcreated.1, Marks.change_of_grows hk hcreated.2, hcreated.1, fun hanswer => ?_⟩
    obtain ⟨hstands, hlength⟩ := hy.1.1.stands_of_created hseen hanswer
    exact ⟨hstands, (hseen.grown hchange.later.grown).next hstands happly rfl, hlength⟩

/-- Memory gets the newest catalog. -/
theorem tends_remember (hk : k.1.commits = true) {state : CatalogState} (hseen : x.1.Seen state)
    (hnewest : state.generation = x.1.chain.length) :
    tends process k (act (.setCached process (some state)))
      (fun _ y => y.1.Seen state ∧ state.generation ≤ y.2.highest) x := by
  refine tends_setCached (fun y hxy s hs => ?_) fun y t hxy hy _ hchain hdeleted hcached => ?_
  · cases hs
    exact hseen.grown (Marks.others_grows hxy).chain
  · have hstill := Marks.still_of_others hk hxy
    have hlast : state.generation = y.1.chain.length :=
      hnewest.trans (congrArg List.length hstill.chain.symm)
    obtain ⟨hfit, hgrows, hle, -⟩ := hy.2.hold hchain hdeleted hcached hlast
    refine ⟨hfit, Marks.change_of_grows hk hgrows, ?_, hle⟩
    exact (hseen.grown hstill.grows.chain).grown (by rw [Grown, hchain])

/-- Memory keeps the catalog that a commit knows. -/
theorem tends_keep (hk : k.1.commits = true) {state : CatalogState}
    (hknown : Marks.Known process state x) :
    tends process k (act (.setCached process (some state)))
      (fun _ y => state.generation ≤ y.2.highest) x := by
  refine tends_setCached (fun y hxy s hs => ?_) fun y t hxy hy _ hchain hdeleted hcached => ?_
  · cases hs
    exact hknown.seen.grown (Marks.others_grows hxy).chain
  · have hknown := hknown.still (Marks.still_of_others hk hxy)
    rcases hknown.newest with hnewest | ⟨hmemory, -⟩
    · obtain ⟨hfit, hgrows, hle, -⟩ := hy.2.hold hchain hdeleted hcached hnewest
      exact ⟨hfit, Marks.change_of_grows hk hgrows, hle⟩
    · obtain ⟨hfit, hstill⟩ := hy.2.same hchain hdeleted (hcached.trans hmemory.symm)
      exact ⟨hfit, Marks.change_of_grows hk hstill.grows, hknown.le.trans hstill.highest⟩

theorem tends_forget (hk : k.1.commits = true) :
    tends process k (act (.setCached process none)) (fun _ _ => True) x := by
  refine tends_setCached (fun _ _ _ h => (by cases h)) fun y t _ hy _ hchain hdeleted hcached => ?_
  obtain ⟨hfit, hgrows⟩ := hy.2.drop hchain hdeleted hcached
  exact ⟨hfit, Marks.change_of_grows hk hgrows, trivial⟩

theorem tends_finishCommit (hk : k.1.commits = true) {commit : CatalogCommit} {next : CatalogState}
    (hstands : x.1.Stands commit.generation commit) (hseen : x.1.Seen next)
    (hnewest : next.generation = x.1.chain.length) :
    tends process k (finishCommit digests process commit next)
      (fun _ y => next.generation ≤ y.2.highest) x := by
  refine tends_after (only_createSecondReplica commit) (safe_createSecondReplica hstands)
    fun _ y _ hxy _ => ?_
  have hstill := Marks.still_of_others hk hxy
  refine tends_bind _ (tends_remember hk (hseen.grown hstill.grows.chain)
    (hnewest.trans (congrArg List.length hstill.chain.symm))) fun _ z _ ⟨hseen, hle⟩ => ?_
  split_ifs
  · refine tends_after (only_attempt (only_writeCatalogSnapshot digests next))
      (safe_attempt (safe_writeCatalogSnapshot digests hseen)) fun _ u _ hzu _ => ?_
    exact tends_ret (hle.trans (Marks.others_grows hzu).highest)
  · exact tends_ret hle

/-- What a commit acknowledges was in memory. -/
def Marks.Remembered (c : Committed) (y : Marked) : Prop := c.state.generation ≤ y.2.highest

/-- A mutation is recorded on top of a state, or it goes on after the commit of another. -/
theorem tends_createCommit (hk : k.1.commits = true) {mutation : CatalogMutation}
    {state : CatalogState} {held : ℕ} {again : CatalogProgram Committed}
    (hknown : Marks.Known process state x)
    (hagain : ∀ y, tends process k again Marks.Remembered y) :
    tends process k (createCommit digests process mutation state held again) Marks.Remembered
      x := by
  unfold createCommit
  cases hsucc : checkedSucc state.generation with
  | none => exact tends_throw _
  | some generation =>
    dsimp only
    obtain rfl := checkedSucc_eq_some hsucc
    set commit := nextCommit digests state (state.generation + 1) mutation
    have hlift : safe Footprint.idle (lift (applyCatalogMutation state commit))
        (fun next _ => applyCatalogMutation state commit = .ok next) x.1 := safe_lift fun _ h => h
    refine tends_after (only_lift _) hlift fun next y _ hxy happly => ?_
    have hknown := hknown.still (Marks.still_of_others hk hxy)
    split_ifs
    · exact tends_bind _ (tends_keep hk hknown) fun _ z _ hz => tends_ret hz
    refine tends_bind _ (tends_createFirst hk hknown.seen happly) fun created z hz hstands => ?_
    split_ifs with hcreated
    · obtain ⟨hstands, hseen, hlength⟩ := hstands hcreated
      exact tends_bind _ (tends_finishCommit digests hk hstands hseen
        ((applied_of_apply happly).generation.trans hlength.symm)) fun _ u _ hu => tends_ret hu
    · exact tends_bind _ (tends_forget hk) fun _ u _ _ => hagain u

/-- **The compare-and-create loop.** -/
theorem tends_commitLoop (hk : k.1.commits = true) (mutation : CatalogMutation) (attempts : ℕ) :
    tends process k (commitLoop digests process mutation attempts) Marks.Remembered x := by
  induction attempts generalizing x with
  | zero => exact tends_throw _
  | succ attempts ih =>
    refine tends_bind _ (tends_loadCatalogState digests fun h => ?_) fun r y _ hload => ?_
    · rw [hk] at h
      cases h
    obtain ⟨state, fromStore⟩ := r
    have hknown := hload.2 hk
    refine tends_after (only_checkEpoch state.writerEpoch)
      (safe_checkEpoch process state.writerEpoch) fun held z _ hyz _ => ?_
    have hknown := hknown.still (Marks.still_of_others hk hyz)
    have hcreate : tends process k (createCommit digests process mutation state held
        (commitLoop digests process mutation attempts)) Marks.Remembered z :=
      tends_createCommit digests hk hknown fun _ => ih
    dsimp only
    split_ifs
    · exact tends_ret hknown.le
    · cases checkedSucc state.writerEpoch with
      | none => exact tends_throw _
      | some expected =>
        dsimp only
        split_ifs
        · exact ih
        · exact hcreate
    · exact tends_throw _
    · exact hcreate

/-- **Every load and every commit of a process keeps its pact.** -/
theorem catalogProgram_heeds {task : CatalogTask} {n : ℕ} (hx : (memoryPact process).inv x)
    (hbegins : (memoryPact process).begins (task, n) x) :
    (catalogProgram digests task).heeds (markedDevice process) (memoryPact process) (task, n)
      ((memoryPact process).post (task, n) x) x := by
  obtain ⟨hof, hbegan⟩ := hbegins
  cases task with
  | load caller =>
    obtain rfl : caller = process := hof
    refine heeds_mono (tends_bind _ (tends_loadCatalogState digests fun _ => hbegan.ge)
      (fun r y _ hr => tends_ret (P := fun result y => Marks.post x (.ok result) y) hr.1) hx)
      fun r y hr => ?_
    cases r with
    | ok result => exact hr.2
    | error e => trivial
  | commit caller mutation fresh =>
    obtain rfl : caller = process := hof
    refine heeds_mono (tends_bind _ (tends_commitLoop digests rfl (mutation.identified fresh) _)
      (fun c y _ hc => tends_ret (P := fun result y => Marks.post x (.ok result) y) hc) hx)
      fun r y hr => ?_
    cases r with
    | ok result => exact hr.2
    | error e => trivial
  | claim caller transaction => exact hof.elim

/-! ### Runs of a process -/

variable {digests}

/-- The tasks of a process, with its marks. -/
abbrev MarkedCrew := Crew catalogInterface Marked (CatalogTask × ℕ) CatalogError CatalogResult

/-- How many commits there are. -/
def Shared.height (s : Shared) : ℕ := s.chain.length

theorem Marks.le_observe (g : Marks) (s : Shared) : g.highest ≤ (g.observe process s).highest := by
  unfold Marks.observe
  cases (s.processes process).cached with
  | none => exact Nat.le_refl _
  | some state => exact Nat.le_max_left _ _

/-- A step of the process is one of the processes at the catalog. -/
theorem memory_step {c c' : CatalogCrew} {turn : Turn CatalogTask RequestFate}
    (h : (memoryMachine digests process).step c turn = some c') :
    mayBegin process c turn = true ∧ (catalogMachine digests).step c turn = some c' := by
  unfold memoryMachine at h
  dsimp only at h
  split_ifs at h with hmay
  exact ⟨hmay, h⟩

/-- A turn of the process, in which no load stores an old catalog, is one that its pact admits. -/
theorem admits_of_undisturbed {g : MarkedCrew}
    (hkept : (memoryPact process).Kept (markedDevice process) g)
    {turn : Turn CatalogTask RequestFate} (hmay : mayBegin process g.plain turn = true)
    (hok : Undisturbed process g.plain turn) :
    (memoryPact process).Admits g (turn.noted Shared.height g.shared.1) := by
  cases turn with
  | kill i => trivial
  | move i fate =>
    intro t ht op hop hload state hstate
    have hplain : (⟨t.kind.1, t.began.1, t.since, t.rest⟩ : Task _ _ _ _ _) ∈
        g.plain.tasks[i]? := by
      rw [Crew.plain, List.getElem?_map, ht]
      rfl
    have hstores : t.rest.next.any (·.stores process) = true := by
      rw [hop, hstate]
      exact beq_self_eq_true process
    exact (hok _ hplain hload hstores).trans (hkept.tasks t (List.mem_of_getElem? ht)).1.begins.2
  | start kind =>
    have hnone : kind.commits = true → ∀ t ∈ g.tasks, t.kind.1.commits = false := by
      intro hcommits t ht
      cases kind with
      | commit caller mutation fresh =>
        have hany := (Bool.and_eq_true_iff.1 hmay).2
        rw [Bool.not_eq_true', List.any_eq_false] at hany
        exact Bool.eq_false_of_not_eq_true (hany _ (List.mem_map_of_mem ht))
      | load caller => cases hcommits
      | claim caller transaction => cases hcommits
    refine ⟨⟨?_, rfl⟩, fun t ht => ⟨fun h => ?_, fun h => ?_⟩⟩
    · cases kind with
      | load caller => exact eq_of_beq hmay
      | commit caller mutation fresh => exact eq_of_beq (Bool.and_eq_true_iff.1 hmay).1
      | claim caller transaction => cases hmay
    · exact Bool.false_ne_true ((hnone h.1 t ht).symm.trans h.2)
    · exact Bool.false_ne_true ((hnone h.2 t ht).symm.trans h.1)

/-- The invariant of the runs: with some marks the tasks keep the pact, and the highest generation
is at least this. -/
def Marks.Run (process : ProcessId) (highest : ℕ) (c : CatalogCrew) : Prop :=
  ∃ g : MarkedCrew, g.plain = c ∧ (memoryPact process).Kept (markedDevice process) g ∧
    highest ≤ g.shared.2.highest

/-- **The step lemma.** -/
theorem Marks.Run.step {highest : ℕ} {c c' : CatalogCrew} {turn : Turn CatalogTask RequestFate}
    (h : Marks.Run process highest c)
    (hstep : (memoryMachine digests process).step c turn = some c')
    (hok : Undisturbed process c turn) : Marks.Run process highest c' := by
  obtain ⟨g, rfl, hkept, hle⟩ := h
  obtain ⟨hmay, hstep⟩ := memory_step hstep
  obtain ⟨d, hd, rfl⟩ := ghost_step (Marks.observe process) Shared.height hstep
  refine ⟨d, rfl, ?_, ?_⟩
  · exact hkept.step (fun kind x hx hbegins => catalogProgram_heeds digests hx hbegins) hd
      (admits_of_undisturbed hkept hmay hok)
  · rcases step_shared hd with hsame | ⟨fate, op, happly⟩
    · rw [hsame]
      exact hle
    · rw [happly]
      exact hle.trans (Marks.le_observe _ _)

/-- A process that has just started knows nothing. -/
theorem Started.coherent {s : Shared} (h : Started digests process s) :
    (s.Coherent ∧ s.store.deleted = []) ∧ (s.processes process).cached = none := by
  obtain ⟨legacy, turns, c, held, hrun, rfl⟩ := h
  have hkept : catalogContract.Kept catalogDevice c :=
    Contract.run (C := catalogContract) (fun task s hs _ => catalogProgram_guarded digests task hs)
      ⟨Shared.coherent_empty legacy, rfl⟩ (within_of_forall (fun c turn _ => admits_all c turn) _ _)
      hrun
  obtain ⟨hcoherent, hdeleted⟩ := hkept.inv
  have hrestarted : ∀ caller state, ((c.shared.withProcess process fun _ => ⟨none, held⟩).processes
      caller).cached = some state → c.shared.Seen state := by
    intro caller state hstate
    by_cases hcaller : caller = process
    · rw [hcaller, Shared.withProcess] at hstate
      dsimp only at hstate
      rw [Function.update_self] at hstate
      cases hstate
    · rw [Shared.withProcess] at hstate
      dsimp only at hstate
      rw [Function.update_of_ne hcaller] at hstate
      exact hcoherent.cached caller state hstate
  have hnext : (c.shared.withProcess process fun _ => ⟨none, held⟩).Coherent ∧
      Footprint.idle.Change c.shared (c.shared.withProcess process fun _ => ⟨none, held⟩) :=
    hcoherent.of_chain_eq rfl rfl hcoherent.decided hcoherent.repaired hcoherent.snapshots
      hrestarted
  refine ⟨⟨hnext.1, hdeleted⟩, ?_⟩
  rw [Shared.withProcess]
  dsimp only
  rw [Function.update_self]

theorem Started.run {s : Shared} (h : Started digests process s) :
    Marks.Run process 0 (Contract.Crew.idle s) := by
  obtain ⟨hinv, hcached⟩ := h.coherent
  refine ⟨Contract.Crew.idle (s, ⟨0, s.chain.length⟩), rfl, Pact.kept_idle ⟨hinv, ?_⟩,
    Nat.zero_le _⟩
  refine ⟨Nat.zero_le _, Nat.le_refl _, fun state hstate => ?_, fun _ => rfl⟩
  rw [hcached] at hstate
  cases hstate

/-- What is in memory is the highest that was there. -/
theorem Marks.Run.highest {highest : ℕ} {c : CatalogCrew} (h : Marks.Run process highest c)
    {state : CatalogState} (hstate : (c.shared.processes process).cached = some state) :
    highest ≤ state.generation ∧ Marks.Run process state.generation c := by
  obtain ⟨g, rfl, hkept, hle⟩ := h
  have hgeneration := (hkept.inv.2.held state hstate).1
  exact ⟨hle.trans hgeneration.ge, g, rfl, hkept, hgeneration.le⟩

/-- A load that began after an acknowledgement goes as far as its commit. -/
theorem Marks.Run.loaded {highest i : ℕ} {c : CatalogCrew} (h : Marks.Run process highest c)
    {r r' : CatalogReport} (hi : c.reports[i]? = some r) {k : Committed}
    (hk : r.result = .ok (.committed k)) (hr' : r' ∈ c.reports) (hsince : i < r'.since)
    {state : CatalogState} {fromStore : Bool} (hstate : r'.result = .ok (.loaded state fromStore)) :
    k.state.generation ≤ state.generation := by
  obtain ⟨g, rfl, hkept, -⟩ := h
  rw [Crew.plain, List.getElem?_map] at hi
  obtain ⟨q, hq, rfl⟩ := Option.map_eq_some_iff.1 hi
  obtain ⟨q', hq', rfl⟩ := List.mem_map.1 hr'
  obtain ⟨hs, hpost⟩ := hkept.reports q' hq'
  have hremembered := hs.hold q
    (List.mem_of_getElem? ((List.getElem?_take_of_lt hsince).trans hq))
  dsimp only at hk hstate
  rw [hk] at hremembered
  rw [hstate] at hpost
  exact Nat.le_trans hremembered hpost

/-- What the processes at the catalog keep. -/
theorem kept_of_memory {s : Shared} (hstarted : Started digests process s)
    {turns : List (Turn CatalogTask RequestFate)} {c : CatalogCrew}
    (hrun : (memoryMachine digests process).run (Contract.Crew.idle s) turns = some c) :
    catalogContract.Kept catalogDevice c := by
  have hidle : catalogContract.Kept catalogDevice (Contract.Crew.idle s) :=
    ⟨hstarted.coherent.1, List.Pairwise.nil, fun _ ht => (by cases ht), fun _ hr => (by cases hr)⟩
  refine run_invariant (fun d turn d' hd hstep => ?_) hidle hrun
  exact hd.step (fun task s hs _ => catalogProgram_guarded digests task hs) (memory_step hstep).2
    (admits_all d turn)

/-- **The catalog in memory never goes back** in a run in which no load stores a catalog that it
began to read before a commit was created. -/
theorem memory_forward {s : Shared} (hstarted : Started digests process s)
    {turns turns' : List (Turn CatalogTask RequestFate)} {c c' : CatalogCrew}
    (hrun : (memoryMachine digests process).run (Contract.Crew.idle s) turns = some c)
    (hrun' : (memoryMachine digests process).run c turns' = some c')
    (hok : (memoryMachine digests process).Within (fun c turn _ => Undisturbed process c turn)
      (Contract.Crew.idle s) (turns ++ turns')) :
    NoOlder process c c' ∧ LoadsContain c' := by
  have hstep : ∀ highest (d : CatalogCrew) turn d', Marks.Run process highest d →
      (memoryMachine digests process).step d turn = some d' → Undisturbed process d turn →
      Marks.Run process highest d' := fun _ _ _ _ h hd hturn => h.step hd hturn
  obtain ⟨hfirst, hsecond⟩ := within_append hok hrun
  have hc := run_invariant_within (hstep 0) hstarted.run hfirst hrun
  have hc' := run_invariant_within (hstep 0) hc hsecond hrun'
  refine ⟨fun state state' hstate hstate' => ?_, fun i r hi k hk r' hr' hsince state fromStore
    hloaded => ?_⟩
  · have hkeep := run_invariant_within (hstep state.generation) (hc.highest hstate).2 hsecond hrun'
    exact (hkeep.highest hstate').1
  · have hkept := kept_of_memory hstarted (run_append_eq_some.2 ⟨c, hrun, hrun'⟩)
    exact contained_of_le hkept hi hk hr' hloaded (hc'.loaded hi hk hr' hsince hloaded)

/-! ### Two runs -/

/-- The store and a process that starts on it after some turns, and where more of them and yet more
lead. -/
def memoryAfter (before turns turns' : List (Turn CatalogTask RequestFate)) :
    Option (Shared × CatalogCrew × CatalogCrew) := do
  let left ← (catalogMachine sampleDigests).run (Contract.Crew.idle (Shared.empty fun _ => false))
    before
  let s := left.shared.withProcess 0 fun _ => ⟨none, 0⟩
  let c ← (memoryMachine sampleDigests 0).run (Contract.Crew.idle s) turns
  let c' ← (memoryMachine sampleDigests 0).run c turns'
  return (s, c, c')

theorem of_memoryAfter {before turns turns' : List (Turn CatalogTask RequestFate)} {s : Shared}
    {c c' : CatalogCrew} (h : memoryAfter before turns turns' = some (s, c, c')) :
    Started sampleDigests 0 s ∧
      (memoryMachine sampleDigests 0).run (Contract.Crew.idle s) turns = some c ∧
        (memoryMachine sampleDigests 0).run c turns' = some c' := by
  obtain ⟨left, hleft, h⟩ := Option.bind_eq_some_iff.1 h
  obtain ⟨d, hd, h⟩ := Option.bind_eq_some_iff.1 h
  obtain ⟨d', hd', h⟩ := Option.bind_eq_some_iff.1 h
  cases h
  exact ⟨⟨_, before, left, 0, hleft, rfl⟩, hd, hd'⟩

/-- A process claims the writer role. -/
def claimTurns : List (Turn CatalogTask RequestFate) := [.start (.claim 0 .first)] ++ fineMoves 0 22

/-- The generations in memory at two points, and the results. -/
def memorySummary (x : Shared × CatalogCrew × CatalogCrew) :
    List (Option CatalogState) × List (Except CatalogError CatalogResult × ℕ) :=
  ([(x.2.1.shared.processes 0).cached, (x.2.2.shared.processes 0).cached],
    x.2.2.reports.map fun r => (r.result, r.since))

/-- The catalog with the claim, and the one with the part. -/
def claimedState : CatalogState := sampleState 1 1 "first" []

def addedState : CatalogState := sampleState 2 1 "add" [samplePart]

/-- A load finds nothing in memory and reads the store; a commit reads it too and adds a part. -/
def raceTurns : List (Turn CatalogTask RequestFate) :=
  [.start (.load 0)] ++ fineMoves 0 10 ++
    [.start (.commit 0 sampleMutation .unused)] ++ fineMoves 1 16

/-- The load stores what it has read, and one more begins and is reported. -/
def lateLoads : List (Turn CatalogTask RequestFate) :=
  fineMoves 0 2 ++ [.start (.load 0)] ++ fineMoves 0 2

/-- The results, each with how many there were when its task began. -/
def raceResults : List (Except CatalogError CatalogResult × ℕ) :=
  [(.ok (.committed ⟨sampleMutation, addedState, .produced, 0⟩), 0),
    (.ok (.loaded claimedState true), 0), (.ok (.loaded claimedState false), 2)]

theorem run_raceTurns : (memoryAfter claimTurns raceTurns lateLoads).map memorySummary =
    some ([some addedState, some claimedState], raceResults) := by
  decide +kernel

/-- **The catalog in memory goes back**: a load stores the catalog that it read before a commit, and
the next one does without the commit, which was acknowledged before it began. -/
theorem memory_backward : ∃ s, Started sampleDigests 0 s ∧ ∃ turns turns' c c',
    (memoryMachine sampleDigests 0).run (Contract.Crew.idle s) turns = some c ∧
      (memoryMachine sampleDigests 0).run c turns' = some c' ∧
        ¬ NoOlder 0 c c' ∧ ¬ LoadsContain c' := by
  obtain ⟨⟨s, c, c'⟩, hafter, hsummary⟩ := Option.map_eq_some_iff.1 run_raceTurns
  obtain ⟨hstarted, hrun, hrun'⟩ := of_memoryAfter hafter
  obtain ⟨hcached, hreports⟩ := Prod.mk.inj hsummary
  obtain ⟨hfirst, hcached⟩ := List.cons.inj hcached
  obtain ⟨hlast, -⟩ := List.cons.inj hcached
  refine ⟨s, hstarted, raceTurns, lateLoads, c, c', hrun, hrun', fun h => ?_, fun h => ?_⟩
  · exact absurd (h _ _ hfirst hlast) (by decide)
  · -- the first report acknowledges the commit, the third is of a load that began after it
    have hreport : ∀ (i : ℕ) x, raceResults[i]? = some x →
        ∃ r : CatalogReport, c'.reports[i]? = some r ∧ r.result = x.1 ∧ r.since = x.2 := by
      intro i x hx
      rw [← hreports, List.getElem?_map] at hx
      obtain ⟨r, hr, rfl⟩ := Option.map_eq_some_iff.1 hx
      exact ⟨r, hr, rfl, rfl⟩
    obtain ⟨r, hr, hresult, -⟩ := hreport 0 _ rfl
    obtain ⟨r', hr', hresult', hsince⟩ := hreport 2 _ rfl
    obtain ⟨_, -, -, hle, -⟩ := h 0 r hr _ hresult r' (List.mem_of_getElem? hr')
      (by rw [hsince]; exact Nat.two_pos) _ _ hresult'
    exact absurd hle (by decide)

/-- A load, a commit next to nothing, and a load after it. -/
def calmTurns : List (Turn CatalogTask RequestFate) := [.start (.load 0)] ++ fineMoves 0 12

def calmMore : List (Turn CatalogTask RequestFate) :=
  [.start (.commit 0 sampleMutation .unused)] ++ fineMoves 0 6 ++
    [.start (.load 0)] ++ fineMoves 0 2

theorem run_calmTurns : (memoryAfter claimTurns calmTurns calmMore).map memorySummary =
    some ([some claimedState, some addedState],
      [(.ok (.loaded claimedState true), 0),
        (.ok (.committed ⟨sampleMutation, addedState, .produced, 0⟩), 1),
        (.ok (.loaded addedState false), 2)]) := by
  decide +kernel

/-- No load of such a run stores an old catalog. -/
def undisturbedAfter (turns : List (Turn CatalogTask RequestFate))
    (x : Shared × CatalogCrew × CatalogCrew) : Bool :=
  decide ((memoryMachine sampleDigests 0).Within (fun c turn _ => Undisturbed 0 c turn)
    (Contract.Crew.idle x.1) turns)

theorem undisturbed_calmTurns : (memoryAfter claimTurns calmTurns calmMore).all
    (undisturbedAfter (calmTurns ++ calmMore)) = true := by
  decide +kernel

/-- A run in which the catalog in memory goes forward. -/
theorem memory_forward_calm : ∃ s c c',
    memoryAfter claimTurns calmTurns calmMore = some (s, c, c') ∧
    (c.shared.processes 0).cached = some claimedState ∧
    (c'.shared.processes 0).cached = some addedState ∧ NoOlder 0 c c' ∧ LoadsContain c' := by
  obtain ⟨⟨s, c, c'⟩, hafter, hsummary⟩ := Option.map_eq_some_iff.1 run_calmTurns
  obtain ⟨hstarted, hrun, hrun'⟩ := of_memoryAfter hafter
  have hok := undisturbed_calmTurns
  rw [hafter] at hok
  obtain ⟨hfirst, hcached⟩ := List.cons.inj (Prod.mk.inj hsummary).1
  exact ⟨s, c, c', hafter, hfirst, (List.cons.inj hcached).1,
    memory_forward hstarted hrun hrun' (of_decide_eq_true hok)⟩

end Catalog

end Obsy
