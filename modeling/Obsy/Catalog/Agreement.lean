import Obsy.Catalog.Commits

/-!
# Agreement and fencing

Any number of processes load the catalog, commit mutations and claim the writer role, one request
at a time and in any order; any request may fail with or without its effect, and any task may be
killed between two requests.

* `CatalogTask`, `catalogMachine`: such runs.
* `Agreement`, `catalog_agreement`: what the processes agree on in every run.
* `late_acknowledgement`: an acknowledgement may reach a process after another one claimed the
  writer role.
-/

namespace Obsy

namespace Catalog

open Machine Machine.Program

open Shared (Grown)

variable (digests : Digests)

/-! ### Runs -/

/-- What a process may be asked for. -/
inductive CatalogTask
  /-- `load_catalog_state`. -/
  | load (process : ProcessId)
  /-- `commit_catalog_mutation`. -/
  | commit (process : ProcessId) (mutation : CatalogMutation) (fresh : TransactionId)
  /-- `claim_writer_epoch`. -/
  | claim (process : ProcessId) (transaction : TransactionId)

/-- What it answers. -/
inductive CatalogResult
  /-- The catalog, and whether it was read from the store. -/
  | loaded (state : CatalogState) (fromStore : Bool)
  /-- An acknowledged mutation. -/
  | committed (committed : Committed)
deriving DecidableEq

def catalogProgram : CatalogTask → CatalogProgram CatalogResult
  | .load process => do
    let (state, fromStore) ← loadCatalogState digests process
    return .loaded state fromStore
  | .commit process mutation fresh => do
    let committed ← commitCatalogMutation digests process mutation fresh
    return .committed committed
  | .claim process transaction => do
    let committed ← claimWriterEpoch digests process transaction
    return .committed committed

def CatalogTask.Asks : CatalogTask → CatalogMutation → Prop
  | .load _, _ => False
  | .commit _ mutation fresh, asked => asked = mutation.identified fresh
  | .claim _ transaction, asked =>
    asked.transactionId = transaction.value ∧ asked.claimWriter = true

/-- What an answer says of the catalog when the task began and now. -/
def CatalogTask.Answered (task : CatalogTask) (s₀ : Shared) :
    Except CatalogError CatalogResult → Shared → Prop
  | .ok (.loaded state fromStore), s =>
    s.Seen state ∧ (fromStore = true → s₀.chain.length ≤ state.generation)
  | .ok (.committed committed), s => committed.Recorded s ∧ task.Asks committed.mutation
  | .error _, _ => True

/-- A task that may commit anything and deletes nothing. -/
def Footprint.free : Footprint where
  adds _ _ := True
  deletes _ _ := False
  carries _ := True
  disjoint _ _ _ h := h

theorem Footprint.free_owns (mutation : CatalogMutation) : Footprint.free.Owns mutation where
  adds _ _ _ := trivial
  carries := trivial
  settles h := (by obtain ⟨_, _, h⟩ := h; cases h)

/-- What the catalog's tasks rely on and promise. -/
def catalogContract : Contract catalogInterface Shared CatalogTask CatalogError CatalogResult where
  inv s := s.Coherent ∧ s.store.deleted = []
  later _ := Footprint.free.Later
  change _ := Footprint.free.Change
  begins _ _ := True
  asks _ _ _ := True
  fits _ _ := True
  post := CatalogTask.Answered
  refl _ := Footprint.Later.refl _
  trans := Footprint.Later.trans
  own h := h.later
  other _ h := h.later
  stable {_ _ _ r _ _} h hst :=
    match r, h with
    | .ok (.loaded _ _), h => ⟨h.1.grown hst.grown, h.2⟩
    | .ok (.committed _), h => ⟨h.1.grown hst.grown, h.2⟩
    | .error _, _ => trivial

theorem catalogProgram_safe (task : CatalogTask) (s : Shared) :
    safe Footprint.free (catalogProgram digests task)
      (fun result t => task.Answered s (.ok result) t) s := by
  cases task with
  | load process =>
    exact safe_bind _ (safe_loadCatalogState digests process) fun r t _ hr =>
      safe_pure ⟨hr.1, hr.2.1⟩
  | commit process mutation fresh =>
    exact safe_bind _ (safe_commitCatalogMutation digests process mutation fresh
      (Footprint.free_owns _)) fun c t _ hc => safe_pure ⟨hc.1, hc.2.1⟩
  | claim process transaction =>
    exact safe_bind _ (safe_claimWriterEpoch digests process transaction fun _ =>
      Footprint.free_owns _) fun c t _ hc => safe_pure hc

theorem catalogProgram_guarded (task : CatalogTask) {s : Shared} (hs : catalogContract.inv s) :
    (catalogProgram digests task).guarded catalogDevice catalogContract task
      (catalogContract.post task s) s := by
  have hclear : Footprint.free.Clear s := by
    refine ⟨fun x hx => ?_, fun h => ?_⟩
    · rw [hs.2] at hx
      cases hx
    · obtain ⟨_, _, h⟩ := h
      cases h
  have hsafe := catalogProgram_safe digests task s hclear
  refine guarded_mono (guarded_transfer (C := keeping) ?_ ?_ ?_ ?_ hsafe) fun r t hr => ?_
  · exact fun t ht => ht.1
  · exact fun _ _ h => h
  · exact fun t op _ _ _ _ _ _ _ _ _ _ h => (by cases h)
  · refine fun t op fate ht _ hu hchange => ⟨⟨hu, ?_⟩, hchange⟩
    -- nothing is deleted
    refine List.eq_nil_iff_forall_not_mem.2 fun x hx => ?_
    rcases hchange.own x hx with hx | hx
    · rw [ht.2] at hx
      cases hx
    · cases hx
  · cases r with
    | ok result => exact hr
    | error e => trivial

/-- The processes at the catalog. -/
abbrev CatalogCrew := Crew catalogInterface Shared CatalogTask CatalogError CatalogResult

/-- Any number of processes, interleaved. -/
abbrev catalogMachine : Machine CatalogCrew (Turn CatalogTask RequestFate) :=
  interleave catalogDevice (catalogProgram digests)

/-- An empty store, perhaps with the manifests of an older version, and processes that know
nothing. -/
def Shared.empty (legacy : LegacyManifest → Bool) : Shared :=
  ⟨⟨fun _ => [], fun _ => [], legacy, []⟩, fun _ => ⟨none, 0⟩, []⟩

theorem Shared.coherent_empty (legacy : LegacyManifest → Bool) :
    (Shared.empty legacy).Coherent where
  numbered := rfl
  replays := ⟨_, rfl⟩
  repaired _ h := (by cases h)
  snapshots _ _ h := (by cases h)
  cached _ _ h := (by cases h)
  retired _ h := (by cases h)
  decided _ h := (by cases h)

/-- What the processes agree on. -/
structure Agreement (c : CatalogCrew) : Prop where
  /-- The chain applies, and its epochs never go back. -/
  epochs : (∃ state, replayChain c.shared.chain = .ok state) ∧
    (c.shared.chain.map (·.mutation.writerEpoch)).Pairwise (· ≤ ·)
  /-- Loads give what prefixes of the chain make, so of two one is a prefix of the other. -/
  prefixes : ∀ r ∈ c.reports, ∀ r' ∈ c.reports, ∀ state fromStore state' fromStore',
    r.result = .ok (.loaded state fromStore) → r'.result = .ok (.loaded state' fromStore') →
    ∃ commits commits', replayChain commits = .ok state ∧ replayChain commits' = .ok state' ∧
      commits <+: c.shared.chain ∧ commits' <+: c.shared.chain ∧
      (commits <+: commits' ∨ commits' <+: commits)
  /-- What was acknowledged at one generation is one transaction, and what was acknowledged as
  having produced it is one mutation. -/
  single : ∀ r ∈ c.reports, ∀ r' ∈ c.reports, ∀ k k',
    r.result = .ok (.committed k) → r'.result = .ok (.committed k') →
    k.ack ≠ .unchanged → k'.ack ≠ .unchanged → k.state.generation = k'.state.generation →
    k.mutation.transactionId = k'.mutation.transactionId ∧
      (k.ack = .produced → k'.ack = .produced → k.mutation = k'.mutation)
  /-- A load from the store that begins after an acknowledgement contains the mutation. -/
  contained : ∀ i r, c.reports[i]? = some r → ∀ k, r.result = .ok (.committed k) →
    k.ack ≠ .unchanged → ∀ r' ∈ c.reports, i < r'.since →
    ∀ state, r'.result = .ok (.loaded state true) →
    ∃ commits, commits <+: c.shared.chain ∧ replayChain commits = .ok state ∧
      ∃ commit, commits[k.state.generation - 1]? = some commit ∧
        commit.mutation.transactionId = k.mutation.transactionId ∧
        (k.ack = .produced → commit.mutation = k.mutation)
  /-- A process that held an epoch was acknowledged only for commits before every commit of a
  later epoch. -/
  fenced : ∀ r ∈ c.reports, ∀ k, r.result = .ok (.committed k) → k.ack ≠ .unchanged →
    k.mutation.claimWriter = false → k.held ≠ 0 →
    ∀ generation commit, c.shared.Stands generation commit →
      k.held < commit.mutation.writerEpoch → k.state.generation < generation

abbrev CatalogReport := Report Shared CatalogTask CatalogError CatalogResult

theorem recorded_of_kept {c : CatalogCrew} (h : catalogContract.Kept catalogDevice c)
    {r : CatalogReport} (hr : r ∈ c.reports) {k : Committed}
    (hk : r.result = .ok (.committed k)) : k.Recorded c.shared := by
  obtain ⟨-, hpost⟩ := h.reports r hr
  rw [hk] at hpost
  exact hpost.1

theorem seen_of_kept {c : CatalogCrew} (h : catalogContract.Kept catalogDevice c)
    {r : CatalogReport} (hr : r ∈ c.reports) {state : CatalogState} {fromStore : Bool}
    (hstate : r.result = .ok (.loaded state fromStore)) : c.shared.Seen state := by
  obtain ⟨-, hpost⟩ := h.reports r hr
  rw [hstate] at hpost
  exact hpost.1

/-- A load that begins after an acknowledgement reaches its commit. -/
theorem le_of_kept {c : CatalogCrew} (h : catalogContract.Kept catalogDevice c) {i : ℕ}
    {r r' : CatalogReport} (hi : c.reports[i]? = some r)
    {k : Committed} (hk : r.result = .ok (.committed k)) (hr' : r' ∈ c.reports)
    (hsince : i < r'.since) {state : CatalogState} (hstate : r'.result = .ok (.loaded state true)) :
    k.state.generation ≤ state.generation := by
  obtain ⟨hs, hpost⟩ := h.reports r' hr'
  have hrecorded := hs.hold r
    (List.mem_of_getElem? ((List.getElem?_take_of_lt hsince).trans hi))
  rw [hk] at hrecorded
  rw [hstate] at hpost
  exact hrecorded.1.seen.1.trans (hpost.2 rfl)

/-- A catalog that goes as far as the commit of an acknowledgement contains it. -/
theorem contained_of_le {c : CatalogCrew} (h : catalogContract.Kept catalogDevice c) {i : ℕ}
    {r r' : CatalogReport} (hi : c.reports[i]? = some r)
    {k : Committed} (hk : r.result = .ok (.committed k)) (hr' : r' ∈ c.reports)
    {state : CatalogState} {fromStore : Bool} (hstate : r'.result = .ok (.loaded state fromStore))
    (hle : k.state.generation ≤ state.generation) :
    ∃ commits, commits <+: c.shared.chain ∧ replayChain commits = .ok state ∧
      k.state.generation ≤ state.generation ∧ (k.ack ≠ .unchanged →
        ∃ commit, commits[k.state.generation - 1]? = some commit ∧
          commit.mutation.transactionId = k.mutation.transactionId ∧
          (k.ack = .produced → commit.mutation = k.mutation)) := by
  have hseen := seen_of_kept h hr' hstate
  refine ⟨_, List.take_prefix _ _, hseen.2, hle, fun hack => ?_⟩
  obtain ⟨commit, ⟨n, hn, hcommit⟩, -, htransaction, hmutation⟩ :=
    (recorded_of_kept h (List.mem_of_getElem? hi) hk).commit hack
  refine ⟨commit, ?_, htransaction, hmutation⟩
  rw [hn, Nat.add_sub_cancel, List.getElem?_take_of_lt (by omega)]
  exact hcommit

theorem admits_all (c : CatalogCrew) (turn : Turn CatalogTask RequestFate) :
    catalogContract.Admits c turn := by
  cases turn with
  | start kind => exact ⟨trivial, fun _ _ => ⟨trivial, trivial⟩⟩
  | move i fate => exact fun _ _ _ _ => trivial
  | kill i => trivial

/-- **Agreement and fencing** in every run of any number of processes on one store. -/
theorem catalog_agreement {legacy : LegacyManifest → Bool}
    {turns : List (Turn CatalogTask RequestFate)} {c : CatalogCrew}
    (hrun : (catalogMachine digests).run (Contract.Crew.idle (Shared.empty legacy)) turns = some c) :
    Agreement c := by
  have hkept : catalogContract.Kept catalogDevice c :=
    Contract.run (C := catalogContract)
      (fun task s hs _ => catalogProgram_guarded digests task hs)
      ⟨Shared.coherent_empty legacy, rfl⟩ (within_of_forall (fun c turn _ => admits_all c turn) _ _) hrun
  obtain ⟨last, hlast⟩ := hkept.inv.1.replays
  have hepochs := (replayChain_epochs hlast).1
  refine ⟨⟨⟨last, hlast⟩, hepochs⟩, ?_, ?_, ?_, ?_⟩
  · intro r hr r' hr' state fromStore state' fromStore' hstate hstate'
    have hseen := seen_of_kept hkept hr hstate
    have hseen' := seen_of_kept hkept hr' hstate'
    exact ⟨_, _, hseen.2, hseen'.2, List.take_prefix _ _, List.take_prefix _ _,
      List.prefix_or_prefix_of_prefix (List.take_prefix _ _) (List.take_prefix _ _)⟩
  · intro r hr r' hr' k k' hk hk' hack hack' hgeneration
    obtain ⟨commit, hstands, -, htransaction, hmutation⟩ := (recorded_of_kept hkept hr hk).commit hack
    obtain ⟨commit', hstands', -, htransaction', hmutation'⟩ :=
      (recorded_of_kept hkept hr' hk').commit hack'
    rw [← hgeneration] at hstands'
    obtain rfl := hstands.unique hstands'
    exact ⟨htransaction.symm.trans htransaction', fun h h' => (hmutation h).symm.trans (hmutation' h')⟩
  · intro i r hi k hk hack r' hr' hsince state hstate
    have hle := le_of_kept hkept hi hk hr' hsince hstate
    obtain ⟨commits, hfirst, hreplay, -, hcontained⟩ := contained_of_le hkept hi hk hr' hstate hle
    exact ⟨commits, hfirst, hreplay, hcontained hack⟩
  · intro r hr k hk hack hclaim hheld generation commit hstands hlt
    have hrecorded := recorded_of_kept hkept hr hk
    obtain ⟨own, ⟨n, hn, hown⟩, hepoch, -, -⟩ := hrecorded.commit hack
    obtain ⟨m, rfl, hm⟩ := hstands
    rw [← hrecorded.held hheld hclaim, ← hepoch] at hlt
    rw [hn]
    by_contra hge
    have hmn : m ≤ n := by omega
    -- the commit of the later epoch would stand first
    refine absurd hlt (Nat.not_lt.2 ?_)
    obtain ⟨hn', rfl⟩ := List.getElem?_eq_some_iff.1 hown
    obtain ⟨hm', rfl⟩ := List.getElem?_eq_some_iff.1 hm
    rcases Nat.eq_or_lt_of_le hmn with rfl | hlt
    · exact Nat.le_refl _
    · have := List.pairwise_iff_getElem.1 hepochs m n (by rwa [List.length_map])
        (by rwa [List.length_map]) hlt
      rwa [List.getElem_map, List.getElem_map] at this

/-! ### A late acknowledgement -/

/-- Digests that tell transactions apart. -/
def sampleDigests : Digests :=
  ⟨fun commit => commit.mutation.transactionId, fun snapshot => snapshot.throughDigest⟩

def samplePart : ManifestPart := ⟨"part", "2026-01-01"⟩

/-- A mutation that adds it in the first epoch. -/
def sampleMutation : CatalogMutation :=
  { CatalogMutation.default with transactionId := "add", writerEpoch := 1, logAdded := [samplePart] }

/-- Operations of a task that go well. -/
def fineMoves (i n : ℕ) : List (Turn CatalogTask RequestFate) := List.replicate n (.move i .fine)

/-- One process claims the writer role and creates the first replica of a commit; another one
claims the role; the first goes on; a third loads the catalog. -/
def lateTurns : List (Turn CatalogTask RequestFate) :=
  [.start (.claim 0 .first)] ++ fineMoves 0 22 ++
    [.start (.commit 0 sampleMutation .unused)] ++ fineMoves 0 3 ++
    [.start (.claim 1 ⟨"second", by decide⟩)] ++ fineMoves 1 21 ++ fineMoves 0 4 ++
    [.start (.load 2)] ++ fineMoves 0 16

/-- A state with these parts. -/
def sampleState (generation writerEpoch : ℕ) (transaction : String) (parts : List ManifestPart) :
    CatalogState :=
  ⟨generation, writerEpoch, transaction, transaction, ⟨generation, writerEpoch, parts⟩,
    ⟨generation, writerEpoch, []⟩, ⟨generation, writerEpoch, []⟩⟩

def sampleClaim (transaction : String) (writerEpoch : ℕ) : CatalogMutation :=
  { CatalogMutation.default with
    transactionId := transaction, writerEpoch := writerEpoch, claimWriter := true }

/-- What is reported, in order. -/
def lateResults : List (Except CatalogError CatalogResult) :=
  [.ok (.committed ⟨sampleClaim "first" 1, sampleState 1 1 "first" [], .produced, 0⟩),
    .ok (.committed ⟨sampleClaim "second" 2, sampleState 3 2 "second" [samplePart], .produced, 0⟩),
    .ok (.committed ⟨sampleMutation, sampleState 2 1 "add" [samplePart], .produced, 1⟩),
    .ok (.loaded (sampleState 3 2 "second" [samplePart]) true)]

theorem run_lateTurns :
    ((catalogMachine sampleDigests).run (Contract.Crew.idle (Shared.empty fun _ => false))
      lateTurns).map (fun c => c.reports.map (·.result)) = some lateResults := by
  decide +kernel

/-- The run of the late acknowledgement. -/
theorem catalog_agreement_late : ∃ c, (catalogMachine sampleDigests).run
    (Contract.Crew.idle (Shared.empty fun _ => false)) lateTurns = some c ∧
      c.reports.map (·.result) = lateResults ∧ Agreement c := by
  obtain ⟨c, hrun, hresults⟩ := Option.map_eq_some_iff.1 run_lateTurns
  exact ⟨c, hrun, hresults, catalog_agreement sampleDigests hrun⟩

/-- A process that holds an older epoch can be acknowledged after a claim was. -/
theorem late_acknowledgement : ¬ ∀ (digests : Digests) (legacy : LegacyManifest → Bool)
    (turns : List (Turn CatalogTask RequestFate)) (c : CatalogCrew),
    (catalogMachine digests).run (Contract.Crew.idle (Shared.empty legacy)) turns = some c →
    ∀ (i j : ℕ) (k k' : Committed),
      (c.reports.map (·.result))[i]? = some (.ok (.committed k)) →
      (c.reports.map (·.result))[j]? = some (.ok (.committed k')) →
      k.ack = .produced → k.mutation.claimWriter = true →
      k'.ack = .produced → k'.mutation.claimWriter = false →
      k'.held ≠ 0 → k'.held < k.state.writerEpoch → j < i := by
  intro h
  obtain ⟨c, hrun, hresults⟩ := Option.map_eq_some_iff.1 run_lateTurns
  have hlate := h sampleDigests _ _ c hrun 1 2
  rw [hresults] at hlate
  exact absurd (hlate _ _ rfl rfl rfl rfl rfl rfl Nat.one_ne_zero (Nat.lt_succ_self 1)) (by decide)

end Catalog

end Obsy
