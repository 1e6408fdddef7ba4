import Obsy.Catalog.Store

/-!
# The catalog journal

Reading the chain of commits and adding to it.

* `loadCatalogState`: the catalog a process knows, or what the newest readable snapshot and the
  commits after it make.
* `commitCatalogMutation`: create the next commit's replica `a`, then `b`; start over when
  another process was first.
* `claimWriterEpoch`: the commit that takes the writer role over.
-/

namespace Obsy

namespace Catalog

open Machine Machine.Program

/-- `CATALOG_SNAPSHOT_INTERVAL`. -/
def catalogSnapshotInterval : ℕ := 256

/-- `MAX_CAS_ATTEMPTS`. -/
def maxCasAttempts : ℕ := 16

variable (digests : Digests)

/-! ### Reading replicated objects -/

/-- The generations among two listings, in order. -/
def mergeGenerations (first second : List ℕ) : List ℕ :=
  (first ++ second).dedup.insertionSort (· ≤ ·)

/-- `catalog_generations` of the commits after a generation. -/
def commitGenerations (offset : ℕ) : CatalogProgram (List ℕ) := do
  let first ← ask (.listCommits .a offset)
  let second ← ask (.listCommits .b offset)
  return mergeGenerations first second

/-- `catalog_generations` of the snapshots. -/
def snapshotGenerations : CatalogProgram (List ℕ) := do
  let first ← ask (.listSnapshots .a)
  let second ← ask (.listSnapshots .b)
  return mergeGenerations first second

/-- What a replica holds, when it is what its name says and `check` passes. -/
def checkReplica {α : Type} (generation : ℕ) (generationOf : α → ℕ)
    (check : α → Except CatalogError Unit) :
    Except CatalogError (Option α) → Except CatalogError (Option α)
  | .ok none => .ok none
  | .error e => .error e
  | .ok (some object) =>
    match check object with
    | .error e => .error e
    | .ok () =>
      if generationOf object = generation then .ok (some object) else .error (.misnamed generation)

/-- `load_catalog_commit_replica`. -/
def loadCommitReplica (replica : Replica) (generation : ℕ) :
    CatalogProgram (Except CatalogError (Option CatalogCommit)) := do
  let bytes ← perform (I := catalogInterface) (.getCommit replica generation)
  return checkReplica generation (·.generation) (verifyCommit digests) bytes

/-- What `load_catalog_snapshot_replica` checks. -/
def checkSnapshot (snapshot : CatalogSnapshot) : Except CatalogError Unit := do
  verifySnapshot digests snapshot
  validateManifest snapshot.state.manifest
  validateManifest snapshot.state.traceManifest
  validateManifest snapshot.state.metricManifest

/-- `load_catalog_snapshot_replica`. -/
def loadSnapshotReplica (replica : Replica) (generation : ℕ) :
    CatalogProgram (Except CatalogError (Option CatalogSnapshot)) := do
  let bytes ← perform (I := catalogInterface) (.getSnapshot replica generation)
  return checkReplica generation (·.generation) (checkSnapshot digests) bytes

/-- One object of what its two replicas hold; a replica that is not there is created, and one
that cannot be read is ignored. -/
def fromReplicas {α : Type} (generation : ℕ) (digestOf : α → String)
    (create : Replica → α → CatalogProgram Bool) :
    Except CatalogError (Option α) → Except CatalogError (Option α) → CatalogProgram α
  | .ok (some first), .ok (some second) =>
    if digestOf first ≠ digestOf second then throw (.divergent generation) else return first
  | .ok (some first), .ok none => do
    let _ ← create .b first
    return first
  | .ok none, .ok (some second) => do
    let _ ← create .a second
    return second
  | .error _, .ok (some second) => return second
  | .ok (some first), .error _ => return first
  | .error _, .error _ => throw (.invalid generation)
  | .error e, .ok none => throw e
  | .ok none, .error e => throw e
  | .ok none, .ok none => throw (.missing generation)

/-- `load_catalog_commit`. -/
def loadCatalogCommit (generation : ℕ) : CatalogProgram CatalogCommit := do
  let first ← loadCommitReplica digests .a generation
  let second ← loadCommitReplica digests .b generation
  fromReplicas generation (·.digest)
    (fun replica commit => ask (.createCommit replica generation commit)) first second

/-- `load_catalog_snapshot`. -/
def loadCatalogSnapshot (generation : ℕ) : CatalogProgram CatalogSnapshot := do
  let first ← loadSnapshotReplica digests .a generation
  let second ← loadSnapshotReplica digests .b generation
  fromReplicas generation (·.digest)
    (fun replica snapshot => ask (.createSnapshot replica generation snapshot)) first second

/-- The first snapshot of these generations that can be read. -/
def firstReadable : List ℕ → CatalogProgram (Option CatalogSnapshot)
  | [] => return none
  | generation :: rest => do
    let snapshot ← attempt (loadCatalogSnapshot digests generation)
    match snapshot with
    | .ok snapshot => return some snapshot
    | .error _ => firstReadable rest

/-- `load_latest_catalog_snapshot`. -/
def loadLatestSnapshot : CatalogProgram (Option CatalogSnapshot) := do
  let generations ← snapshotGenerations
  firstReadable digests generations.reverse

/-! ### Loading -/

/-- Apply the commits of these generations, which must follow each other. -/
def replayGenerations : CatalogState → List ℕ → CatalogProgram CatalogState
  | state, [] => return state
  | state, generation :: rest =>
    match checkedSucc state.generation with
    | none => throw .overflow
    | some expected => do
      if generation ≠ expected then throw (.gap state.generation generation)
      let commit ← loadCatalogCommit digests generation
      lift (verifyCommit digests commit)
      let state ← lift (applyCatalogMutation state commit)
      replayGenerations state rest

/-- Refuse to start on a store with an older version's manifest. -/
def refuseLegacy (legacy : LegacyManifest) : CatalogProgram Unit := do
  let present : Bool ← ask (.getLegacy legacy)
  if present then throw .legacy

/-- `load_catalog_state` of a process that knows no catalog. -/
def loadFromStore (process : ProcessId) : CatalogProgram CatalogState := do
  let snapshot ← loadLatestSnapshot digests
  let state := (snapshot.map (·.state)).getD .default
  let generations ← commitGenerations state.generation
  refuseLegacy .logs
  refuseLegacy .traces
  refuseLegacy .metrics
  let state ← replayGenerations digests state generations
  if 0 < state.generation then
    act (.setCached process (some state))
  return state

/-- `load_catalog_state`: the state, and whether it was read from the store. -/
def loadCatalogState (process : ProcessId) : CatalogProgram (CatalogState × Bool) := do
  let cached ← ask (.cached process)
  match cached with
  | some state => return (state, false)
  | none =>
    let state ← loadFromStore digests process
    return (state, true)

/-! ### Committing -/

/-- `check_epoch`: refuse to write when another process has claimed the writer role; the epoch
that is held. -/
def checkEpoch (process : ProcessId) (observed : ℕ) : CatalogProgram ℕ := do
  let held : ℕ ← ask (.epoch process)
  if held = 0 ∨ observed = held then return held else throw (.fenced held observed)

/-- Create one replica of a snapshot, or find it there. -/
def writeSnapshotReplica (snapshot : CatalogSnapshot) (replica : Replica) :
    CatalogProgram Unit := do
  let created : Bool ← ask (.createSnapshot replica snapshot.generation snapshot)
  if created then return ()
  else
    let existing ← ask (.getSnapshot replica snapshot.generation)
    match existing with
    | none => throw (.missing snapshot.generation)
    | some existing =>
      if existing = snapshot then return () else throw (.divergent snapshot.generation)

def snapshotOf (state : CatalogState) : CatalogSnapshot :=
  sealSnapshot digests ⟨state.generation, state.lastDigest, state, ""⟩

/-- `write_catalog_snapshot`. -/
def writeCatalogSnapshot (state : CatalogState) : CatalogProgram Unit := do
  writeSnapshotReplica (snapshotOf digests state) .a
  writeSnapshotReplica (snapshotOf digests state) .b

/-- How a mutation was acknowledged. -/
inductive Ack
  /-- It made the state's last commit. -/
  | produced
  /-- The state's last commit carries its transaction already. -/
  | repeated
  /-- It changes nothing. -/
  | unchanged
deriving DecidableEq

/-- What an acknowledged mutation reports. -/
structure Committed where
  mutation : CatalogMutation
  state : CatalogState
  /-- How it got there. -/
  ack : Ack
  /-- The epoch that the process held when it was checked. -/
  held : ℕ
deriving DecidableEq

def nextCommit (state : CatalogState) (generation : ℕ) (mutation : CatalogMutation) :
    CatalogCommit :=
  sealCommit digests ⟨generation, state.generation, state.lastDigest, mutation, ""⟩

/-- The same parts are active. -/
def sameParts (state next : CatalogState) : Bool :=
  next.manifest.parts = state.manifest.parts &&
    next.traceManifest.parts = state.traceManifest.parts &&
    next.metricManifest.parts = state.metricManifest.parts

/-- The second replica of a commit whose first one was created. -/
def createSecondReplica (commit : CatalogCommit) : CatalogProgram Unit := do
  let created : Bool ← ask (.createCommit .b commit.generation commit)
  if created then return ()
  else
    let existing ← ask (.getCommit .b commit.generation)
    match existing with
    | none => throw (.missing commit.generation)
    | some existing =>
      if existing = commit then return () else throw (.divergent commit.generation)

/-- What a commit does when its first replica has been created. -/
def finishCommit (process : ProcessId) (commit : CatalogCommit) (next : CatalogState) :
    CatalogProgram Unit := do
  createSecondReplica commit
  act (.setCached process (some next))
  if next.generation % catalogSnapshotInterval = 0 then
    let _ : Except CatalogError Unit ← attempt (writeCatalogSnapshot digests next)

/-- Create the commit of a mutation on a state, or go on with `again` when another process was
first. -/
def createCommit (process : ProcessId) (mutation : CatalogMutation) (state : CatalogState)
    (held : ℕ) (again : CatalogProgram Committed) : CatalogProgram Committed :=
  match checkedSucc state.generation with
  | none => throw .overflow
  | some generation => do
    let commit := nextCommit digests state generation mutation
    let next ← lift (applyCatalogMutation state commit)
    if !mutation.claimWriter && sameParts state next then
      act (.setCached process (some state))
      return ⟨mutation, state, .unchanged, held⟩
    else
      let created : Bool ← ask (.createCommit .a generation commit)
      if created then
        finishCommit digests process commit next
        return ⟨mutation, next, .produced, held⟩
      else
        act (.setCached process none)
        again

/-- The compare-and-create loop of `commit_catalog_mutation`. -/
def commitLoop (process : ProcessId) (mutation : CatalogMutation) :
    ℕ → CatalogProgram Committed
  | 0 => throw .retryLimit
  | attempts + 1 => do
    let (state, _) ← loadCatalogState digests process
    let held ← checkEpoch process state.writerEpoch
    let again := commitLoop process mutation attempts
    if state.lastTransactionId = mutation.transactionId then
      return ⟨mutation, state, .repeated, held⟩
    else if mutation.claimWriter then
      match checkedSucc state.writerEpoch with
      | none => throw .overflow
      | some expected =>
        if mutation.writerEpoch ≠ expected then again
        else createCommit digests process mutation state held again
    else if mutation.writerEpoch ≠ state.writerEpoch then throw (.epoch state.generation)
    else createCommit digests process mutation state held again

/-- A random identity of a transaction. -/
structure TransactionId where
  /-- How it is spelled. -/
  value : String
  nonempty : value ≠ ""

/-- The identity of a claim. -/
def TransactionId.first : TransactionId := ⟨"first", by decide⟩

/-- The identity of a publication. -/
def TransactionId.add : TransactionId := ⟨"add", by decide⟩

/-- An identity for a mutation that has its own. -/
def TransactionId.unused : TransactionId := ⟨"unused", by decide⟩

/-- The mutation, with an identity if it has none. -/
def CatalogMutation.identified (mutation : CatalogMutation) (fresh : TransactionId) :
    CatalogMutation :=
  if mutation.transactionId = "" then { mutation with transactionId := fresh.value } else mutation

theorem CatalogMutation.identified_ne (mutation : CatalogMutation) (fresh : TransactionId) :
    (mutation.identified fresh).transactionId ≠ "" := by
  unfold CatalogMutation.identified
  split_ifs with h
  · exact fresh.nonempty
  · exact h

/-- `commit_catalog_mutation`. -/
def commitCatalogMutation (process : ProcessId) (mutation : CatalogMutation)
    (fresh : TransactionId) : CatalogProgram Committed :=
  commitLoop digests process (mutation.identified fresh) maxCasAttempts

def claimMutation (transaction : TransactionId) (epoch : ℕ) : CatalogMutation :=
  { CatalogMutation.default with
    transactionId := transaction.value, writerEpoch := epoch, claimWriter := true }

/-- `claim_writer_epoch`. -/
def claimWriterEpoch (process : ProcessId) (transaction : TransactionId) :
    CatalogProgram Committed := do
  let (state, _) ← loadCatalogState digests process
  match checkedSucc state.writerEpoch with
  | none => throw .overflow
  | some epoch =>
    let committed ← commitCatalogMutation digests process (claimMutation transaction epoch)
      transaction
    act (.setEpoch process committed.state.writerEpoch)
    return committed

end Catalog

end Obsy
