import Obsy.Catalog.Journal

/-!
# Publishing and removing parts

Every publication uploads the files of its parts, reads the catalog, decides what is left to do,
and commits it.  What they decide differs by signal.

* `Plan`, `carryOut`: what a publication decides, and how it is done.
* `flushPlan`, `publishPlan`, `replaceTracePlan`, …: the decisions of `publish_flush_parts`,
  `publish`, `publish_metric_parts`, `replace_trace_parts` and the others.
* `rollbackFlushTransaction`, `compactMetricParts`: the two that delete files afterwards.
-/

namespace Obsy

namespace Catalog

open Machine Machine.Program

variable (digests : Digests)

/-! ### Decisions -/

/-- What a publication does with the catalog it reads. -/
inductive Plan
  /-- Nothing. -/
  | settled
  /-- It gives up. -/
  | refused (error : CatalogError)
  | commit (mutation : CatalogMutation)
deriving DecidableEq

/-- A mutation of one signal's parts. -/
def signalMutation (signal : Signal) (fresh : TransactionId) (writerEpoch : ℕ)
    (added : List ManifestPart) (removed : List String) : CatalogMutation :=
  let mutation := { CatalogMutation.default with
    transactionId := fresh.value, writerEpoch := writerEpoch }
  match signal with
  | .logs => { mutation with logAdded := added, logRemoved := removed }
  | .traces => { mutation with traceAdded := added, traceRemoved := removed }
  | .metrics => { mutation with metricAdded := added, metricRemoved := removed }

/-- The first part that is listed under its name with other contents, unless it is to go out. -/
def collision (listed added : List ManifestPart) (removed : List String) : Option ManifestPart :=
  added.find? fun part =>
    match listed.find? fun item => item.id = part.id with
    | some existing => existing ≠ part && part.id ∉ removed
    | none => false

/-- Whether all these parts are listed. -/
def allPresent (listed added : List ManifestPart) : Bool := added.all (· ∈ listed)

/-- How many listed parts have one of these names. -/
def presentCount (listed : List ManifestPart) (ids : List String) : ℕ :=
  listed.countP (·.id ∈ ids)

/-- What `publish` and `publish_metric_parts` decide. -/
def publishPlan (signal : Signal) (fresh : TransactionId) (added : List ManifestPart)
    (removed : List String) (state : CatalogState) : Plan :=
  let listed := state.listed signal
  let present := presentCount listed removed
  if removed ≠ [] ∧ present = 0 ∧ allPresent listed added then .settled
  else if removed ≠ [] ∧ added ≠ [] ∧ present ≠ removed.length then
    .refused (.inputsChanged removed.length present)
  else
    match collision listed added removed with
    | some part => .refused (.collision part.id)
    | none =>
      if removed = [] ∧ allPresent listed added then .settled
      else .commit (signalMutation signal fresh state.writerEpoch added removed)

/-- What `publish_trace_parts` decides. -/
def publishTracePlan (fresh : TransactionId) (added : List TraceManifestPart)
    (state : CatalogState) : Plan :=
  match collision state.traceManifest.parts added [] with
  | some part => .refused (.collision part.id)
  | none =>
    if allPresent state.traceManifest.parts added then .settled
    else .commit (signalMutation .traces fresh state.writerEpoch added [])

/-- What `replace_trace_parts` decides. -/
def replaceTracePlan (fresh : TransactionId) (added : List TraceManifestPart)
    (removed : List String) (state : CatalogState) : Plan :=
  let listed := state.traceManifest.parts
  let present := presentCount listed removed
  if present = 0 ∧ allPresent listed added then .settled
  else if present ≠ removed.length then .refused (.inputsChanged removed.length present)
  else
    match collision listed added [] with
    | some part => .refused (.collision part.id)
    | none => .commit (signalMutation .traces fresh state.writerEpoch added removed)

/-- What `remove_trace_parts` decides. -/
def removeTracePlan (fresh : TransactionId) (removed : List String) (state : CatalogState) :
    Plan :=
  if presentCount state.traceManifest.parts removed = 0 then .settled
  else .commit (signalMutation .traces fresh state.writerEpoch [] removed)

/-- The parts of a flush, as its intent record has them. -/
structure FlushTransaction where
  logParts : List ManifestPart
  traceParts : List TraceManifestPart
  metricParts : List MetricManifestPart
deriving DecidableEq

def FlushTransaction.parts (transaction : FlushTransaction) : Signal → List ManifestPart
  | .logs => transaction.logParts
  | .traces => transaction.traceParts
  | .metrics => transaction.metricParts

/-- What `publish_flush_parts` decides. -/
def flushPlan (fresh : TransactionId) (transaction : FlushTransaction) (state : CatalogState) :
    Plan :=
  match collision state.manifest.parts transaction.logParts [] with
  | some part => .refused (.collision part.id)
  | none =>
    match collision state.traceManifest.parts transaction.traceParts [] with
    | some part => .refused (.collision part.id)
    | none =>
      match collision state.metricManifest.parts transaction.metricParts [] with
      | some part => .refused (.collision part.id)
      | none =>
        if allPresent state.manifest.parts transaction.logParts &&
          allPresent state.traceManifest.parts transaction.traceParts &&
          allPresent state.metricManifest.parts transaction.metricParts
        then .settled
        else .commit { CatalogMutation.default with
          transactionId := fresh.value
          writerEpoch := state.writerEpoch
          logAdded := transaction.logParts
          traceAdded := transaction.traceParts
          metricAdded := transaction.metricParts }

/-- The names of parts. -/
def partIds (parts : List ManifestPart) : List String := parts.map (·.id)

/-- What `rollback_flush_transaction_value` decides before it deletes. -/
def rollbackPlan (fresh : TransactionId) (transaction : FlushTransaction) (state : CatalogState) :
    Plan :=
  let logIds := partIds transaction.logParts
  let traceIds := partIds transaction.traceParts
  let metricIds := partIds transaction.metricParts
  if (state.manifest.parts.any fun part => part.id ∈ logIds) ||
    (state.traceManifest.parts.any fun part => part.id ∈ traceIds) ||
    (state.metricManifest.parts.any fun part => part.id ∈ metricIds)
  then .commit { CatalogMutation.default with
    transactionId := fresh.value
    writerEpoch := state.writerEpoch
    logRemoved := logIds
    traceRemoved := traceIds
    metricRemoved := metricIds }
  else .settled

/-! ### Programs -/

/-- Read the catalog and do what is decided. -/
def carryOut (process : ProcessId) (fresh : TransactionId) (plan : CatalogState → Plan) :
    CatalogProgram CatalogState := do
  let (state, _) ← loadCatalogState digests process
  let _ ← checkEpoch process state.writerEpoch
  match plan state with
  | .settled => return state
  | .refused error => throw error
  | .commit mutation =>
    act (.note mutation state.generation)
    let committed ← commitCatalogMutation digests process mutation fresh
    return committed.state

/-- One request for each file of these parts. -/
def eachFile (request : PartObject → CatalogProgram Unit) (signal : Signal)
    (parts : List ManifestPart) : CatalogProgram Unit := do
  let _ ← each (fun part => each (fun file => request ⟨signal, part, file⟩) (partFiles signal))
    parts
  return ()

/-- `upload_part`, `upload_trace_part` and `upload_metric_part` of these parts. -/
def uploadParts : Signal → List ManifestPart → CatalogProgram Unit :=
  eachFile fun object => act (.putObject object)

/-- `delete_part_objects`, `delete_trace_part_objects` and `delete_metric_part_objects`. -/
def deletePartObjects : Signal → List ManifestPart → CatalogProgram Unit :=
  eachFile fun object => act (.deleteObject object)

/-- `publish_flush_parts`. -/
def publishFlushParts (process : ProcessId) (fresh : TransactionId)
    (transaction : FlushTransaction) : CatalogProgram CatalogState := do
  uploadParts .logs transaction.logParts
  uploadParts .traces transaction.traceParts
  uploadParts .metrics transaction.metricParts
  carryOut digests process fresh (flushPlan fresh transaction)

/-- `publish`. -/
def publish (process : ProcessId) (fresh : TransactionId) (added : List ManifestPart)
    (removed : List String) : CatalogProgram CatalogState := do
  uploadParts .logs added
  carryOut digests process fresh (publishPlan .logs fresh added removed)

/-- `publish_trace_parts`. -/
def publishTraceParts (process : ProcessId) (fresh : TransactionId)
    (added : List TraceManifestPart) : CatalogProgram CatalogState := do
  uploadParts .traces added
  carryOut digests process fresh (publishTracePlan fresh added)

/-- `replace_trace_parts`. -/
def replaceTraceParts (process : ProcessId) (fresh : TransactionId)
    (added removed : List TraceManifestPart) : CatalogProgram CatalogState := do
  uploadParts .traces added
  carryOut digests process fresh (replaceTracePlan fresh added (partIds removed))

/-- `remove_trace_parts`. -/
def removeTraceParts (process : ProcessId) (fresh : TransactionId)
    (removed : List TraceManifestPart) : CatalogProgram CatalogState :=
  if removed = [] then do
    let (state, _) ← loadCatalogState digests process
    return state
  else carryOut digests process fresh (removeTracePlan fresh (partIds removed))

/-- `publish_metric_parts`. -/
def publishMetricParts (process : ProcessId) (fresh : TransactionId)
    (added removed : List MetricManifestPart) : CatalogProgram CatalogState := do
  uploadParts .metrics added
  carryOut digests process fresh (publishPlan .metrics fresh added (partIds removed))

/-- `remove_metric_parts`. -/
def removeMetricParts (process : ProcessId) (fresh : TransactionId)
    (removed : List MetricManifestPart) : CatalogProgram CatalogState :=
  if removed = [] then do
    let (state, _) ← loadCatalogState digests process
    return state
  else publishMetricParts digests process fresh [] removed

/-- `rollback_flush_transaction_value`, at the object store. -/
def rollbackFlushTransaction (process : ProcessId) (fresh : TransactionId)
    (transaction : FlushTransaction) : CatalogProgram Unit := do
  let _ ← carryOut digests process fresh (rollbackPlan fresh transaction)
  deletePartObjects .logs transaction.logParts
  deletePartObjects .traces transaction.traceParts
  deletePartObjects .metrics transaction.metricParts

/-- A metric compaction at the object store: the replacement is published, then the files of its
inputs are deleted. -/
def compactMetricParts (process : ProcessId) (fresh : TransactionId)
    (added inputs : List MetricManifestPart) : CatalogProgram Unit := do
  let _ ← publishMetricParts digests process fresh added inputs
  deletePartObjects .metrics inputs

end Catalog

end Obsy
