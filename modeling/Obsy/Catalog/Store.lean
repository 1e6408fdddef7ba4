import Obsy.Catalog.State
import Obsy.Machine.Program

/-!
# The catalog's objects

Each commit and each snapshot is stored as two replicas, `a` and `b`, under its generation.  A
store creates an object if its name is free, all at once; a request may also fail, with or
without its effect.  The files of the parts are objects too; of them the model keeps which were
deleted, and how long the chain of commits was then.  A process keeps the catalog it knows and the
writer epoch it holds.  The model also notes on which generation a mutation was decided.

* `Store`, `Shared`: the objects, and what the processes keep.
* `CatalogOp`, `catalogDevice`: one request or one access each.
* `CatalogProgram`: programs over them.
-/

namespace Obsy

namespace Catalog

open Machine Machine.Program

/-- The two copies of every catalog object. -/
inductive Replica
  | a
  | b
deriving DecidableEq

/-- Objects by generation, in the order they were created. -/
abbrev Shelf (α : Type) := List (ℕ × α)

namespace Shelf

variable {α : Type}

/-- The object of a generation. -/
def find (shelf : Shelf α) (generation : ℕ) : Option α :=
  (List.find? (fun x => x.1 = generation) shelf).map (·.2)

def generations (shelf : Shelf α) : List ℕ := shelf.map (·.1)

/-- The objects of other generations. -/
def remove (shelf : Shelf α) (generation : ℕ) : Shelf α := shelf.filter fun x => x.1 ≠ generation

/-- A new object at the end. -/
def add (shelf : Shelf α) (generation : ℕ) (object : α) : Shelf α := shelf ++ [(generation, object)]

end Shelf

/-- The manifests that older versions kept. -/
inductive LegacyManifest
  | logs
  | traces
  | metrics
deriving DecidableEq

structure PartObject where
  signal : Signal
  part : ManifestPart
  file : String
deriving DecidableEq

/-- `PART_FILES`, `TRACE_PART_FILES` and `METRIC_PART_FILES`. -/
def partFiles : Signal → List String
  | .logs => ["data.parquet", "index.bin", "meta.json"]
  | .traces => ["data.parquet", "trace.bloom", "meta.json"]
  | .metrics => ["data.bin", "index.bin", "labels.bin", "series.bloom", "meta.json"]

structure Store where
  commits : Replica → Shelf CatalogCommit
  snapshots : Replica → Shelf CatalogSnapshot
  /-- Whether an older version's manifest is there. -/
  legacy : LegacyManifest → Bool
  /-- The files of parts that were deleted, each with the number of commits there were. -/
  deleted : List (PartObject × ℕ)

abbrev ProcessId := ℕ

/-- What a process keeps in memory. -/
structure CatalogProcess where
  cached : Option CatalogState
  /-- The epoch it holds; zero before it has claimed one. -/
  writerEpoch : ℕ

structure Shared where
  store : Store
  processes : ProcessId → CatalogProcess
  /-- The mutations that were decided, each with the generation of the catalog it was decided
  on. -/
  decided : List (CatalogMutation × ℕ)

/-- The requests to the store and the accesses to a process's memory. -/
inductive CatalogOp
  /-- List the commits of a replica after a generation. -/
  | listCommits (replica : Replica) (offset : ℕ)
  | listSnapshots (replica : Replica)
  | getCommit (replica : Replica) (generation : ℕ)
  | getSnapshot (replica : Replica) (generation : ℕ)
  | createCommit (replica : Replica) (generation : ℕ) (commit : CatalogCommit)
  /-- Create a snapshot unless there is one. -/
  | createSnapshot (replica : Replica) (generation : ℕ) (snapshot : CatalogSnapshot)
  | deleteCommit (replica : Replica) (generation : ℕ)
  | deleteSnapshot (replica : Replica) (generation : ℕ)
  /-- Look for an older version's manifest. -/
  | getLegacy (legacy : LegacyManifest)
  /-- Upload the file of a part, or find it there. -/
  | putObject (object : PartObject)
  /-- Delete the file of a part, if it is there. -/
  | deleteObject (object : PartObject)
  | cached (process : ProcessId)
  /-- Remember or forget a catalog. -/
  | setCached (process : ProcessId) (state : Option CatalogState)
  | epoch (process : ProcessId)
  | setEpoch (process : ProcessId) (epoch : ℕ)
  /-- Note a decision; no request of the code. -/
  | note (mutation : CatalogMutation) (generation : ℕ)

/-- What requests give when they succeed; whether a creation found its name free. -/
def CatalogOp.Res : CatalogOp → Type
  | listCommits _ _ | listSnapshots _ => List ℕ
  | getCommit _ _ => Option CatalogCommit
  | getSnapshot _ _ => Option CatalogSnapshot
  | createCommit _ _ _ | createSnapshot _ _ _ | getLegacy _ => Bool
  | cached _ => Option CatalogState
  | epoch _ => ℕ
  | deleteCommit _ _ | deleteSnapshot _ _ | putObject _ | deleteObject _ | setCached _ _
  | setEpoch _ _ | note _ _ => Unit

/-- Requests to a store and to memory. -/
abbrev catalogInterface : Interface := ⟨CatalogOp, fun op => Except CatalogError op.Res⟩

/-- What becomes of a request. -/
structure RequestFate where
  fails : Bool
  /-- Whether a request that reports an error took effect. -/
  applied : Bool
deriving DecidableEq

/-- A request that went well. -/
def RequestFate.fine : RequestFate := ⟨false, true⟩

namespace Shared

def withCommits (s : Shared) (replica : Replica) (shelf : Shelf CatalogCommit) : Shared :=
  { s with store := { s.store with commits := Function.update s.store.commits replica shelf } }

def withSnapshots (s : Shared) (replica : Replica) (shelf : Shelf CatalogSnapshot) : Shared :=
  { s with
    store := { s.store with snapshots := Function.update s.store.snapshots replica shelf } }

/-- Note a deletion. -/
def withDeleted (s : Shared) (object : PartObject) : Shared :=
  { s with store :=
    { s.store with deleted := s.store.deleted ++ [(object, (s.store.commits .a).length)] } }

/-- Change one process's memory. -/
def withProcess (s : Shared) (process : ProcessId) (f : CatalogProcess → CatalogProcess) :
    Shared :=
  { s with processes := Function.update s.processes process (f (s.processes process)) }

/-- What an operation does. -/
def effect (s : Shared) : CatalogOp → Shared
  | .createCommit replica generation commit =>
    if ((s.store.commits replica).find generation).isSome then s
    else s.withCommits replica ((s.store.commits replica).add generation commit)
  | .createSnapshot replica generation snapshot =>
    if ((s.store.snapshots replica).find generation).isSome then s
    else s.withSnapshots replica ((s.store.snapshots replica).add generation snapshot)
  | .deleteCommit replica generation =>
    s.withCommits replica ((s.store.commits replica).remove generation)
  | .deleteSnapshot replica generation =>
    s.withSnapshots replica ((s.store.snapshots replica).remove generation)
  | .deleteObject object => s.withDeleted object
  | .setCached process state => s.withProcess process fun p => { p with cached := state }
  | .setEpoch process epoch => s.withProcess process fun p => { p with writerEpoch := epoch }
  | .note mutation generation => { s with decided := s.decided ++ [(mutation, generation)] }
  | _ => s

/-- What an operation that goes well answers. -/
def answer (s : Shared) : (op : CatalogOp) → op.Res
  | .listCommits replica offset =>
    (s.store.commits replica).generations.filter fun generation => offset < generation
  | .listSnapshots replica => (s.store.snapshots replica).generations
  | .getCommit replica generation => (s.store.commits replica).find generation
  | .getSnapshot replica generation => (s.store.snapshots replica).find generation
  | .createCommit replica generation _ => ((s.store.commits replica).find generation).isNone
  | .createSnapshot replica generation _ => ((s.store.snapshots replica).find generation).isNone
  | .getLegacy legacy => s.store.legacy legacy
  | .cached process => (s.processes process).cached
  | .epoch process => (s.processes process).writerEpoch
  | .deleteCommit _ _ => ()
  | .deleteSnapshot _ _ => ()
  | .putObject _ => ()
  | .deleteObject _ => ()
  | .setCached _ _ => ()
  | .setEpoch _ _ => ()
  | .note _ _ => ()

end Shared

/-- The accesses to memory, which do not fail. -/
def CatalogOp.isLocal : CatalogOp → Bool
  | cached _ | setCached _ _ | epoch _ | setEpoch _ _ | note _ _ => true
  | _ => false

/-- The store and the processes as a device. -/
def catalogDevice : Device catalogInterface Shared RequestFate where
  apply fate s op :=
    if fate.fails && !op.isLocal then (.error .io, if fate.applied then s.effect op else s)
    else (.ok (s.answer op), s.effect op)

abbrev CatalogProgram : Type → Type := Program catalogInterface Unit CatalogError

/-- Ask for an operation and go on with what it gives, or fail with its error. -/
def ask (op : CatalogOp) : CatalogProgram op.Res :=
  (perform (I := catalogInterface) op).bind fun r =>
    match r with
    | .ok res => ret res
    | .error e => throw e

/-- Ask for an operation that gives nothing. -/
def act (op : CatalogOp) : CatalogProgram Unit := (ask op).bind fun _ => ret ()

/-- Go on with a computed result, or fail with its error. -/
def lift {α : Type} (result : Except CatalogError α) : CatalogProgram α :=
  match result with
  | .ok a => ret a
  | .error e => throw e

end Catalog

end Obsy
