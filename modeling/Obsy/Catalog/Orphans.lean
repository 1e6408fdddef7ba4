import Obsy.Catalog.Store
import Obsy.Machine.Interleave
import Mathlib.Data.List.Basic

/-!
# Collecting orphans

Objects that no manifest names any more are deleted once they were seen so for a grace period.  A
pass reads the manifests and the ledger of what earlier passes saw, walks on through the objects
from where the last pass stopped, deletes what is due, and stores the ledger.  It may stop, or be
stopped, between any two requests.

* `OrphanLedger.see`: what one listed object does to the ledger.
* `collectOrphans`: a pass, as a program over the object store.
* `gcDevice`: the store, the manifests and the clock.  It notes when objects came and were first
  named, what passes listed and what they deleted.
* `gcMachine`: any number of passes and of other parties.
-/

namespace Obsy

namespace Catalog

open Machine Machine.Program

open Std (ExtTreeMap)

/-! ### Paths -/

/-- `ObjectStorage::path`. -/
def objectPath (root relative : String) : String :=
  if root = "" then relative else root ++ "/" ++ relative

/-- What the paths of a signal's parts begin with. -/
def Signal.directory : Signal → String
  | .logs => "parts"
  | .traces => "trace_parts"
  | .metrics => "metric_parts"

/-- `part_path`, `trace_part_path` and `metric_part_path`. -/
def partPath (root : String) (signal : Signal) (part : ManifestPart) (file : String) : String :=
  objectPath root
    (signal.directory ++ "/" ++ part.partition ++ "/" ++ part.id ++ "/" ++ file)

/-- The objects of parts. -/
def partKeys (root : String) (signal : Signal) (parts : List ManifestPart) : List String :=
  parts.flatMap fun part => (partFiles signal).map (partPath root signal part)

/-- `ORPHAN_PREFIXES`. -/
def orphanDirectories : List String := ["parts", "trace_parts", "metric_parts"]

/-- Whether a store lists an object under a path. -/
def liesUnder (path key : String) : Bool := (path ++ "/").toList.isPrefixOf key.toList

/-! ### The ledger -/

/-- When an object was first seen outside the active set, and what the last sighting says. -/
structure OrphanLedgerEntry where
  /-- The time of the pass that saw it first. -/
  firstSeen : ℤ
  /-- The scan cycle that saw it last. -/
  lastSeenCycle : ℕ
  bytes : ℕ
deriving DecidableEq

/-- How far the current scan cycle has walked. -/
structure OrphanScanCursor where
  directory : ℕ
  /-- The last object it saw there. -/
  after : Option String
  cycle : ℕ
deriving DecidableEq

/-- `OrphanScanCursor::first`. -/
def OrphanScanCursor.first : OrphanScanCursor := ⟨0, none, 0⟩

/-- `OrphanScanCursor::start_next_cycle`. -/
def OrphanScanCursor.startNextCycle (scan : OrphanScanCursor) : OrphanScanCursor :=
  ⟨0, none, scan.cycle + 1⟩

/-- What the collector remembers from pass to pass. -/
structure OrphanLedger where
  scan : OrphanScanCursor
  /-- The objects that were seen outside the active set. -/
  orphans : ExtTreeMap String OrphanLedgerEntry

/-- `OrphanLedger::empty`. -/
def OrphanLedger.empty : OrphanLedger := ⟨.first, ∅⟩

/-- What may be stored as the ledger. -/
inductive StoredOrphanLedger
  | current (ledger : OrphanLedger)
  /-- The first sightings of an older version, each with its time if that can be read. -/
  | firstSightings (sightings : List (String × Option ℤ))
  /-- Bytes that are neither. -/
  | invalid

def OrphanLedgerEntry.ofFirstSighting (seen : String × Option ℤ) :
    Option (String × OrphanLedgerEntry) :=
  seen.2.map fun time => (seen.1, ⟨time, 0, 0⟩)

/-- The ledger that older first sightings make. -/
def OrphanLedger.ofFirstSightings (sightings : List (String × Option ℤ)) : OrphanLedger :=
  { OrphanLedger.empty with
    orphans := ExtTreeMap.ofList (sightings.filterMap OrphanLedgerEntry.ofFirstSighting) }

/-- An object of a listing. -/
structure ObjectMeta where
  location : String
  size : ℕ
deriving DecidableEq

/-- What makes a pass: when it began, the objects that the manifests it read name, and the grace
period. -/
structure OrphanPass where
  now : ℤ
  active : List String
  gracePeriod : ℕ

/-- The pass that reads these manifests. -/
def OrphanPass.of (root : String) (now : ℤ) (gracePeriod : ℕ)
    (logs traces metrics : List ManifestPart) : OrphanPass :=
  ⟨now, partKeys root .logs logs ++ partKeys root .traces traces ++ partKeys root .metrics metrics,
    gracePeriod⟩

/-- What a pass keeps of an object that it lists outside the active set. -/
def OrphanLedger.sighted (ledger : OrphanLedger) (pass : OrphanPass) (seen : ObjectMeta) :
    OrphanLedgerEntry :=
  match ledger.orphans[seen.location]? with
  | some entry => { entry with lastSeenCycle := ledger.scan.cycle, bytes := seen.size }
  | none => ⟨pass.now, ledger.scan.cycle, seen.size⟩

/-- What one listed object does to the ledger. -/
def OrphanLedger.see (ledger : OrphanLedger) (pass : OrphanPass) (seen : ObjectMeta) :
    OrphanLedger where
  scan := { ledger.scan with after := some seen.location }
  orphans :=
    -- back in the active set: any grace it had started is about nothing
    if seen.location ∈ pass.active then ledger.orphans.erase seen.location
    else ledger.orphans.insert seen.location (ledger.sighted pass seen)

/-- The listing of a directory is through. -/
def OrphanLedger.nextDirectory (ledger : OrphanLedger) : OrphanLedger :=
  { ledger with scan := { ledger.scan with directory := ledger.scan.directory + 1, after := none } }

/-- The cycle is through: what it has not seen is no longer there. -/
def OrphanLedger.closeCycle (ledger : OrphanLedger) : OrphanLedger where
  scan := ledger.scan.startNextCycle
  orphans := ledger.orphans.filter fun _ entry => entry.lastSeenCycle = ledger.scan.cycle

/-- The objects that were out of the active set before the cutoff, as the ledger says, and are not
in it now. -/
def OrphanLedger.deletable (ledger : OrphanLedger) (pass : OrphanPass) : List String :=
  (ledger.orphans.toList.filter fun item =>
    item.2.firstSeen < pass.now - pass.gracePeriod && decide (item.1 ∉ pass.active)).map (·.1)

/-! ### Requests -/

/-- What is wrong with a pass. -/
inductive OrphanError
  | manifest
  /-- The grace period is longer than any time span. -/
  | gracePeriod
  /-- The ledger cannot be read. -/
  | ledgerUnread
  /-- The ledger is none. -/
  | ledgerInvalid
  | ledgerUnstored
  /-- The objects cannot be listed. -/
  | listing
  /-- So many deletions failed. -/
  | gaveUp (failures : ℕ)
deriving DecidableEq

/-- What becomes of an object that is to be deleted. -/
inductive DeletionAnswer
  | deleted
  | notFound
  | failed
deriving DecidableEq

/-- The requests of a pass, and what other parties do. -/
inductive GcOp
  | loadManifest (signal : Signal)
  | loadLedger
  | storeLedger (ledger : OrphanLedger)
  /-- Read the clock. -/
  | now
  /-- One page of the objects under a path, after an object. -/
  | list (pass : OrphanPass) (path : String) (after : Option String)
  | deleteStream (pass : OrphanPass) (keys : List String)
  | put (object : ObjectMeta)
  | commit (signal : Signal) (parts : List ManifestPart)
  | wait (time : ℕ)

/-- What requests answer.  A page of a listing says whether there are more. -/
def GcOp.Ans : GcOp → Type
  | loadManifest _ => Except OrphanError (List ManifestPart)
  | loadLedger => Except OrphanError (Option StoredOrphanLedger)
  | storeLedger _ => Except OrphanError Unit
  | now => ℤ
  | list _ _ _ => Except OrphanError (List ObjectMeta × Bool)
  | deleteStream _ _ => List DeletionAnswer
  | put _ | commit _ _ | wait _ => Unit

/-- The object store, the manifests and the clock. -/
abbrev gcInterface : Interface := ⟨GcOp, GcOp.Ans⟩

abbrev GcProgram : Type → Type := Program gcInterface Unit OrphanError

/-- Ask for an answer that may be an error. -/
def request {α : Type} (op : GcOp) (result : op.Ans → Except OrphanError α) : GcProgram α :=
  (perform (I := gcInterface) op).bind fun r =>
    match result r with
    | .ok a => ret a
    | .error e => throw e

/-! ### A pass -/

/-- What a pass may spend, and whether it deletes at all. -/
structure OrphanCollectionOptions where
  /-- How long an object must have been out of the active set. -/
  gracePeriod : ℕ
  /-- How long the pass may take. -/
  maxRuntime : ℕ
  maxScannedObjects : ℕ
  maxDeletedObjects : ℕ
  /-- How much it may delete. -/
  maxDeletedBytes : ℕ
  /-- Whether it deletes nothing. -/
  dryRun : Bool
deriving DecidableEq

/-- What a pass has done. -/
structure OrphanCollection where
  scannedObjects : ℕ
  scanCyclesCompleted : ℕ
  candidateObjects : ℕ
  candidateBytes : ℕ
  deletedObjects : ℕ
  deletedBytes : ℕ
  deleteErrors : ℕ
  ledgerEntries : ℕ
deriving DecidableEq

/-- `OrphanCollection::default`. -/
def OrphanCollection.default : OrphanCollection := ⟨0, 0, 0, 0, 0, 0, 0, 0⟩

/-- `ORPHAN_LEDGER_SAVE_INTERVAL`. -/
def orphanLedgerSaveInterval : ℕ := 20000

/-- `ORPHAN_DELETE_CHUNK`. -/
def orphanDeleteChunk : ℕ := 1000

/-- `ORPHAN_DELETE_ERROR_LIMIT`. -/
def orphanDeleteErrorLimit : ℕ := 100

/-- The longest time span there is, in nanoseconds. -/
def maxTimeSpan : ℕ := (2 ^ 63 - 1) * 10 ^ 6

/-- What a pass makes of the object of the ledger. -/
def decodeOrphanLedger : Option StoredOrphanLedger → Except OrphanError OrphanLedger
  | none => .ok .empty
  | some (.current ledger) => .ok ledger
  | some (.firstSightings sightings) => .ok (.ofFirstSightings sightings)
  | some .invalid => .error .ledgerInvalid

/-- `store_orphan_ledger`. -/
def storeOrphanLedger (ledger : OrphanLedger) : GcProgram Unit := request (.storeLedger ledger) id

/-- `load_orphan_ledger`. -/
def loadOrphanLedger : GcProgram OrphanLedger :=
  request .loadLedger fun (r : Except OrphanError (Option StoredOrphanLedger)) =>
    r.bind decodeOrphanLedger

/-- `active_object_keys`: every object that the three manifests name. -/
def activeObjectKeys (root : String) : GcProgram (List String) :=
  (request (.loadManifest .logs) id).bind fun logs =>
  (request (.loadManifest .traces) id).bind fun traces =>
  (request (.loadManifest .metrics) id).bind fun metrics =>
  ret (partKeys root .logs logs ++ partKeys root .traces traces ++ partKeys root .metrics metrics)

/-- A pass that walks through the objects. -/
structure OrphanScan where
  ledger : OrphanLedger
  /-- What the pass has done. -/
  outcome : OrphanCollection
  /-- How many objects it has seen since it stored the ledger. -/
  scannedSinceSave : ℕ

namespace OrphanScan

/-- A walk that begins. -/
def start (ledger : OrphanLedger) : OrphanScan := ⟨ledger, .default, 0⟩

def see (scan : OrphanScan) (pass : OrphanPass) (seen : ObjectMeta) : OrphanScan where
  ledger := scan.ledger.see pass seen
  outcome := { scan.outcome with scannedObjects := scan.outcome.scannedObjects + 1 }
  scannedSinceSave := scan.scannedSinceSave + 1

/-- The end of a cycle. -/
def closeCycle (scan : OrphanScan) : OrphanScan :=
  { scan with
    ledger := scan.ledger.closeCycle
    outcome := { scan.outcome with scanCyclesCompleted := scan.outcome.scanCyclesCompleted + 1 } }

def nextDirectory (scan : OrphanScan) : OrphanScan :=
  { scan with ledger := scan.ledger.nextDirectory }

end OrphanScan

/-- Whether the pass has listed what it may, or is at its deadline. -/
def spent (options : OrphanCollectionOptions) (deadline : ℤ) (scan : OrphanScan) :
    GcProgram Bool :=
  if options.maxScannedObjects ≤ scan.outcome.scannedObjects then ret true
  else (perform (I := gcInterface) .now).bind fun (time : ℤ) => ret (decide (deadline ≤ time))

/-- Store the ledger after so many objects. -/
def saveOften (scan : OrphanScan) : GcProgram OrphanScan :=
  if orphanLedgerSaveInterval ≤ scan.scannedSinceSave then
    (storeOrphanLedger scan.ledger).bind fun _ => ret { scan with scannedSinceSave := 0 }
  else ret scan

/-- The objects of a page; whether the pass stops among them. -/
def scanPage (options : OrphanCollectionOptions) (pass : OrphanPass) (deadline : ℤ) :
    List ObjectMeta → OrphanScan → GcProgram (OrphanScan × Bool)
  | [], scan => ret (scan, false)
  | seen :: rest, scan =>
    (saveOften (scan.see pass seen)).bind fun scan =>
    (spent options deadline scan).bind fun stop =>
    if stop then ret (scan, true) else scanPage options pass deadline rest scan

/-- How the walk through a directory ended. -/
inductive DirectoryEnd
  /-- It is through. -/
  | exhausted
  /-- The pass has spent what it may. -/
  | stopped
  /-- A listing failed. -/
  | failed
deriving DecidableEq

/-- The pages of a directory from the cursor on.  Each page but the last has an object, so there are
no more pages than objects that the pass may list. -/
def scanDirectory (options : OrphanCollectionOptions) (pass : OrphanPass) (deadline : ℤ)
    (path : String) : ℕ → OrphanScan → GcProgram (OrphanScan × DirectoryEnd)
  | 0, scan => ret (scan, .stopped)
  | pages + 1, scan =>
    (perform (I := gcInterface) (.list pass path scan.ledger.scan.after)).bind fun page =>
    match page with
    | .error _ => ret (scan, .failed)
    | .ok (items, more) =>
      (scanPage options pass deadline items scan).bind fun done =>
      if done.2 then ret (done.1, .stopped)
      else if more then scanDirectory options pass deadline path pages done.1
      else ret (done.1, .exhausted)

/-- The directories that are left of the cycle, and its end; whether a listing failed. -/
def scanCycle (root : String) (options : OrphanCollectionOptions) (pass : OrphanPass)
    (deadline : ℤ) : List String → OrphanScan → GcProgram (OrphanScan × Bool)
  | directories, scan =>
    (spent options deadline scan).bind fun stop =>
    if stop then ret (scan, false)
    else match directories with
      | [] => ret (scan.closeCycle, false)
      | directory :: rest =>
        (scanDirectory options pass deadline (objectPath root directory)
          (options.maxScannedObjects - scan.outcome.scannedObjects) scan).bind fun done =>
        match done.2 with
        | .exhausted => scanCycle root options pass deadline rest done.1.nextDirectory
        | .stopped => ret (done.1, false)
        | .failed => ret (done.1, true)

/-- What a pass means to delete. -/
structure DeletionPlan where
  deletableBytes : ℕ
  withinBudget : List String
  /-- How much that is. -/
  withinBudgetBytes : ℕ

def DeletionPlan.add (options : OrphanCollectionOptions) (ledger : OrphanLedger)
    (plan : DeletionPlan) (key : String) : DeletionPlan :=
  let bytes := match ledger.orphans[key]? with
    | some entry => entry.bytes
    | none => 0
  if options.maxDeletedObjects ≤ plan.withinBudget.length ∨
      (plan.withinBudget ≠ [] ∧ options.maxDeletedBytes < plan.withinBudgetBytes + bytes) then
    { plan with deletableBytes := plan.deletableBytes + bytes }
  else
    ⟨plan.deletableBytes + bytes, plan.withinBudget ++ [key], plan.withinBudgetBytes + bytes⟩

/-- What of the deletable objects is within the budget. -/
def planDeletions (options : OrphanCollectionOptions) (ledger : OrphanLedger)
    (deletable : List String) : DeletionPlan :=
  deletable.foldl (DeletionPlan.add options ledger) ⟨0, [], 0⟩

/-- The ledger in memory and what the pass has done. -/
structure Cleared where
  ledger : OrphanLedger
  outcome : OrphanCollection

/-- What the answer for one object says. -/
def Cleared.note (cleared : Cleared) (key : String) (answer : DeletionAnswer) : Cleared :=
  if answer = .failed then
    { cleared with
      outcome := { cleared.outcome with deleteErrors := cleared.outcome.deleteErrors + 1 } }
  else
    let bytes := match cleared.ledger.orphans[key]? with
      | some entry => entry.bytes
      | none => 0
    { ledger := { cleared.ledger with orphans := cleared.ledger.orphans.erase key }
      outcome := { cleared.outcome with
        deletedBytes := cleared.outcome.deletedBytes + bytes
        deletedObjects := cleared.outcome.deletedObjects + 1 } }

/-- What the answers for the objects of a chunk say. -/
def Cleared.notes (cleared : Cleared) (keys : List String) (answers : List DeletionAnswer) :
    Cleared :=
  (keys.zip answers).foldl (fun cleared item => cleared.note item.1 item.2) cleared

/-- Delete what is within the budget, chunk by chunk. -/
def deleteChunks (pass : OrphanPass) (deadline : ℤ) :
    List (List String) → Cleared → GcProgram Cleared
  | [], cleared => ret cleared
  | chunk :: rest, cleared =>
    (perform (I := gcInterface) .now).bind fun (time : ℤ) =>
    if deadline ≤ time then ret cleared
    else
      (perform (I := gcInterface) (.deleteStream pass chunk)).bind fun (answers : List _) =>
      if orphanDeleteErrorLimit ≤ (cleared.notes chunk answers).outcome.deleteErrors then
        ret (cleared.notes chunk answers)
      else deleteChunks pass deadline rest (cleared.notes chunk answers)

/-- Lists of so many elements, the last one of perhaps fewer. -/
def chunks {α : Type} (size : ℕ) : ℕ → List α → List (List α)
  | 0, _ => []
  | n + 1, xs => if xs = [] then [] else xs.take size :: chunks size n (xs.drop size)

def clear (options : OrphanCollectionOptions) (pass : OrphanPass) (deadline : ℤ)
    (plan : DeletionPlan) (cleared : Cleared) : GcProgram Cleared :=
  if options.dryRun then ret cleared
  else deleteChunks pass deadline
    (chunks orphanDeleteChunk plan.withinBudget.length plan.withinBudget) cleared

/-- The end of a pass: store the ledger, and say how it went. -/
def finish (scanFailed : Bool) (cleared : Cleared) : GcProgram OrphanCollection :=
  (storeOrphanLedger cleared.ledger).bind fun _ =>
  if scanFailed then throw .listing
  else if orphanDeleteErrorLimit ≤ cleared.outcome.deleteErrors then
    throw (.gaveUp cleared.outcome.deleteErrors)
  else ret { cleared.outcome with ledgerEntries := cleared.ledger.orphans.size }

/-- The pass, when it has read the manifests and the ledger. -/
def collectFrom (root : String) (options : OrphanCollectionOptions) (pass : OrphanPass)
    (startedAt : ℤ) (ledger : OrphanLedger) : GcProgram OrphanCollection :=
  -- what is deleted is read off the ledger as it was loaded
  let deletable := ledger.deletable pass
  let deadline := startedAt + options.maxRuntime
  (scanCycle root options pass deadline (orphanDirectories.drop ledger.scan.directory)
    (.start ledger)).bind fun scanned =>
  let plan := planDeletions options scanned.1.ledger deletable
  let outcome := { scanned.1.outcome with
    candidateObjects := deletable.length
    candidateBytes := plan.deletableBytes }
  (clear options pass deadline plan ⟨scanned.1.ledger, outcome⟩).bind (finish scanned.2)

/-- `collect_orphans_at`. -/
def collectOrphansAt (root : String) (options : OrphanCollectionOptions) (now startedAt : ℤ) :
    GcProgram OrphanCollection :=
  (activeObjectKeys root).bind fun active =>
  if maxTimeSpan < options.gracePeriod then throw .gracePeriod
  else loadOrphanLedger.bind fun ledger =>
    collectFrom root options ⟨now, active, options.gracePeriod⟩ startedAt ledger

/-- `collect_orphans`. -/
def collectOrphans (root : String) (options : OrphanCollectionOptions) :
    GcProgram OrphanCollection :=
  (perform (I := gcInterface) .now).bind fun (now : ℤ) =>
  (perform (I := gcInterface) .now).bind fun (startedAt : ℤ) =>
  collectOrphansAt root options now startedAt

/-! ### The store and the other parties -/

structure Sighting where
  pass : OrphanPass
  key : String
  time : ℤ

structure Removal where
  pass : OrphanPass
  key : String

/-- The objects of parts, the ledger, the manifests and the clock, and what happened to them. -/
structure Bucket where
  objects : ExtTreeMap String ℕ
  /-- The object of the ledger. -/
  ledger : Option StoredOrphanLedger
  manifests : Signal → List ManifestPart
  /-- The manifests that were replaced, newest first, each with the time when it was. -/
  replaced : List ((Signal → List ManifestPart) × ℤ)
  clock : ℤ
  came : String → Option ℤ
  /-- When a manifest first named an object. -/
  named : Signal → String → Option ℤ
  sightings : List Sighting
  /-- What passes have deleted. -/
  removals : List Removal

/-- What becomes of the deletion of an object. -/
inductive DeletionFate
  | succeeds
  /-- It fails, perhaps after its effect. -/
  | fails (applied : Bool)
deriving DecidableEq

/-- What becomes of a request. -/
structure GcFate where
  fails : Bool
  /-- Whether a request that reports an error took effect. -/
  applied : Bool
  /-- Which of the manifests that were replaced lately a read finds. -/
  version : ℕ
  /-- How many objects but one a page may have. -/
  page : ℕ
  deletion : String → DeletionFate

/-- A request that goes well. -/
def GcFate.fine : GcFate := ⟨false, true, 0, 1000, fun _ => .succeeds⟩

namespace Bucket

/-- The manifests that a read finds: the ones there are, or ones that were replaced not longer ago
than the lag. -/
def version (s : Bucket) (lag n : ℕ) : Signal → List ManifestPart :=
  match n with
  | 0 => s.manifests
  | n + 1 =>
    match s.replaced[n]? with
    | some (manifests, time) => if s.clock - lag ≤ time then manifests else s.manifests
    | none => s.manifests

/-- The objects that a store lists under a path after an object. -/
def listed (s : Bucket) (path : String) (after : Option String) : List ObjectMeta :=
  (s.objects.toList.filter fun item =>
    liesUnder path item.1 && after.all fun last => decide (last < item.1)).map
      fun item => ⟨item.1, item.2⟩

/-- Note what a page lists. -/
def see (s : Bucket) (pass : OrphanPass) (items : List ObjectMeta) : Bucket :=
  { s with sightings := s.sightings ++ items.map fun seen => ⟨pass, seen.location, s.clock⟩ }

def remove (s : Bucket) (pass : OrphanPass) (key : String) : Bucket :=
  { s with objects := s.objects.erase key, removals := s.removals ++ [⟨pass, key⟩] }

/-- Try to delete an object: the answer, and what it does. -/
def tryRemove (s : Bucket) (pass : OrphanPass) (key : String) :
    DeletionFate → DeletionAnswer × Bucket
  | .fails applied => (.failed, if applied then s.remove pass key else s)
  | .succeeds => if key ∈ s.objects then (.deleted, s.remove pass key) else (.notFound, s)

def tryRemoveAll (pass : OrphanPass) (fate : String → DeletionFate) :
    List String → Bucket → List DeletionAnswer × Bucket
  | [], s => ([], s)
  | key :: keys, s =>
    ((s.tryRemove pass key (fate key)).1 ::
      (tryRemoveAll pass fate keys (s.tryRemove pass key (fate key)).2).1,
      (tryRemoveAll pass fate keys (s.tryRemove pass key (fate key)).2).2)

def put (s : Bucket) (object : ObjectMeta) : Bucket :=
  { s with
    objects := s.objects.insert object.location object.size
    came := Function.update s.came object.location
      (some ((s.came object.location).getD s.clock)) }

def commit (root : String) (s : Bucket) (signal : Signal) (parts : List ManifestPart) : Bucket :=
  { s with
    manifests := Function.update s.manifests signal parts
    replaced := (s.manifests, s.clock) :: s.replaced
    named := Function.update s.named signal fun key =>
      if key ∈ partKeys root signal parts then some ((s.named signal key).getD s.clock)
      else s.named signal key }

end Bucket

/-- A store whose manifests are read no later than so long after they were replaced. -/
def gcDevice (root : String) (lag : ℕ) : Device gcInterface Bucket GcFate where
  apply fate s
    | .loadManifest signal =>
      (if fate.fails then .error .manifest else .ok (s.version lag fate.version signal), s)
    | .loadLedger => (if fate.fails then .error .ledgerUnread else .ok s.ledger, s)
    | .storeLedger ledger =>
      (if fate.fails then .error .ledgerUnstored else .ok (),
        if fate.fails && !fate.applied then s else { s with ledger := some (.current ledger) })
    | .now => (s.clock, s)
    | .list pass path after =>
      if fate.fails then (.error .listing, s)
      else (.ok ((s.listed path after).take (fate.page + 1),
        decide (fate.page + 1 < (s.listed path after).length)),
        s.see pass ((s.listed path after).take (fate.page + 1)))
    | .deleteStream pass keys => s.tryRemoveAll pass fate.deletion keys
    | .put object => ((), s.put object)
    | .commit signal parts => ((), s.commit root signal parts)
    | .wait time => ((), { s with clock := s.clock + time })

/-- What may be going on. -/
inductive GcJob
  | collect (options : OrphanCollectionOptions)
  | put (object : ObjectMeta)
  | commit (signal : Signal) (parts : List ManifestPart)
  | wait (time : ℕ)
deriving DecidableEq

/-- The program of a job.  What it returns is what a pass has done. -/
def gcProgram (root : String) : GcJob → GcProgram OrphanCollection
  | .collect options => collectOrphans root options
  | .put object => (perform (I := gcInterface) (.put object)).bind fun _ => ret .default
  | .commit signal parts =>
    (perform (I := gcInterface) (.commit signal parts)).bind fun _ => ret .default
  | .wait time => (perform (I := gcInterface) (.wait time)).bind fun _ => ret .default

/-- The jobs at the store. -/
abbrev GcCrew := Crew gcInterface Bucket GcJob OrphanError OrphanCollection

/-- Any number of passes and of other parties, one request of one of them at a time. -/
abbrev gcMachine (root : String) (lag : ℕ) : Machine GcCrew (Turn GcJob GcFate) :=
  interleave (gcDevice root lag) (gcProgram root)

end Catalog

end Obsy
