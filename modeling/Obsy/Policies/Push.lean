import Obsy.Logql.Values
import Obsy.Machine.Run
import Obsy.Retention.Policy
import Mathlib.Logic.Function.Basic

/-!
# Policy pushes

The control plane pushes one tenant's whole policy under a revision, and repeats a push that was not
made durable.  A push is parsed, compared with the policy in memory, stored, and then put in memory;
a removal deletes the object and then the policy in memory.

* `parseRetention`, `parseStorageLimit`, `parseSignalRetentions`: the values of a push.
* `PolicyDocument.entry`: what a start makes of a stored document.
* `State.push`, `State.remove`: the two calls, with what the store does of each request.
* `Retryable`: what the control plane relies on.
-/

namespace Obsy

namespace Policies

open Part (Nanos)
open Retention (TenantRetention Signal)

/-! ### Values -/

/-- `str::parse::<u64>`, digit by digit. -/
def parseU64.go (value : ℕ) : List Char → Except String ℕ
  | [] => .ok value
  | c :: cs =>
    if !c.isDigit then .error "invalid digit found in string"
    else
      let value := 10 * value + (c.toNat - '0'.toNat)
      if value < 2 ^ 64 then parseU64.go value cs
      else .error "number too large to fit in target type"

def parseU64 : List Char → Except String ℕ
  | [] => .error "cannot parse integer from empty string"
  | ['+'] => .error "invalid digit found in string"
  | '+' :: digits => parseU64.go 0 digits
  | digits => parseU64.go 0 digits

/-- `str::strip_suffix`. -/
def stripSuffix (suffix s : List Char) : Option (List Char) :=
  if suffix.isSuffixOf s then some (s.take (s.length - suffix.length)) else none

/-- The first suffix of a list that a text has, with what is before it. -/
def stripUnit (units : List (String × ℕ)) (s : List Char) : Option (List Char × ℕ) :=
  units.findSome? fun unit => (stripSuffix unit.1.toList s).map fun number => (number, unit.2)

/-- The units of a duration, in nanoseconds. -/
def durationUnits : List (String × ℕ) :=
  [("ms", 1000000), ("s", 1000000000), ("m", 60 * 1000000000), ("h", 60 * 60 * 1000000000),
    ("d", 24 * 60 * 60 * 1000000000), ("w", 7 * 24 * 60 * 60 * 1000000000),
    ("y", 365 * 24 * 60 * 60 * 1000000000)]

/-- A duration, or the literal `infinite`. -/
def parseRetention (raw : String) : Except String TenantRetention :=
  let value := Logql.trim raw.toList
  if value.map Char.toLower = "infinite".toList then .ok .infinite
  else if value = ['0'] then .ok (.finite 0)
  else match stripUnit durationUnits value with
    | none => .error "expected a duration such as 90m, 24h, 7d, or the literal \"infinite\""
    | some (number, unitNanos) =>
      (parseU64 (Logql.trim number)).bind fun number =>
        if number * unitNanos < 2 ^ 64 then .ok (.finite (number * unitNanos))
        else .error "duration overflow"

inductive TenantStorageLimit where
  | unlimited
  | bytes (limit : ℕ)
deriving DecidableEq

/-- The units of a size, in bytes. -/
def sizeUnits : List (String × ℕ) :=
  [("KiB", 1024), ("MiB", 1024 * 1024), ("GiB", 1024 * 1024 * 1024), ("B", 1)]

/-- A size, or the literal `unlimited`. -/
def parseStorageLimit (raw : String) : Except String TenantStorageLimit :=
  let value := Logql.trim raw.toList
  if value.map Char.toLower = "unlimited".toList then .ok .unlimited
  else if "/s".toList.isSuffixOf value then
    .error "a storage limit is a size, not a rate; drop the \"/s\""
  else
    let (number, unit) := (stripUnit sizeUnits value).getD (value, 1)
    match parseU64 (Logql.trim number) with
    | .error _ =>
      .error "expected a byte size such as 512MiB, 10GiB, 0, or the literal \"unlimited\""
    | .ok number =>
      if number * unit < 2 ^ 64 then .ok (.bytes (number * unit))
      else .error "storage limit overflow"

/-- A value as it is stored. -/
def trimmed (raw : String) : String := String.ofList (Logql.trim raw.toList)

/-! ### Policies -/

/-- A retention, with the text it was pushed as. -/
structure SignalRetention where
  retention : TenantRetention
  raw : String
deriving DecidableEq

structure SignalRetentions where
  logs : Option SignalRetention
  traces : Option SignalRetention
  metrics : Option SignalRetention
deriving DecidableEq

def SignalRetentions.get (retentions : SignalRetentions) : Signal → Option SignalRetention
  | .logs => retentions.logs
  | .traces => retentions.traces
  | .metrics => retentions.metrics

def SignalRetentions.raw (retentions : SignalRetentions) (signal : Signal) : Option String :=
  (retentions.get signal).map SignalRetention.raw

/-- The retentions of single signals, as they were pushed. -/
structure SignalRetentionRequest where
  logs : Option String
  traces : Option String
  metrics : Option String
deriving DecidableEq

/-- The retention of one signal; a tenant that is being deleted keeps none. -/
def parseSignalRetention (retention : TenantRetention) (name : String) :
    Option String → Except String (Option SignalRetention)
  | none => .ok none
  | some raw =>
    match parseRetention raw with
    | .error error => .error (name ++ ": " ++ error)
    | .ok signalRetention =>
      if retention = .finite 0 ∧ signalRetention ≠ .finite 0 then
        .error (name ++
          ": a tenant at retention \"0\" is being deleted, so no signal may keep data")
      else .ok (some ⟨signalRetention, trimmed raw⟩)

def parseSignalRetentions (retention : TenantRetention) (request : SignalRetentionRequest) :
    Except String SignalRetentions := do
  let logs ← parseSignalRetention retention "log_retention" request.logs
  let traces ← parseSignalRetention retention "trace_retention" request.traces
  let metrics ← parseSignalRetention retention "metric_retention" request.metrics
  return ⟨logs, traces, metrics⟩

/-- What the control plane pushed for one tenant. -/
structure PolicyEntry where
  revision : ℕ
  retention : TenantRetention
  raw : String
  maxStoredBytes : Option TenantStorageLimit
  rawMaxStoredBytes : Option String
  signalRetentions : SignalRetentions
  updatedAt : Nanos
deriving DecidableEq

/-- Whether two policies of one revision were pushed with the same values. -/
def samePolicyDocument (entry : PolicyEntry) (raw : String) (rawMaxStoredBytes : Option String)
    (signalRetentions : SignalRetentions) : Bool :=
  entry.raw == raw && entry.rawMaxStoredBytes == rawMaxStoredBytes &&
    [Signal.logs, .traces, .metrics].all fun signal =>
      entry.signalRetentions.raw signal == signalRetentions.raw signal

/-- A policy as it is reported. -/
structure PolicyView where
  revision : ℕ
  retention : String
  maxStoredBytes : Option String
  logRetention : Option String
  traceRetention : Option String
  metricRetention : Option String
  updatedAt : Nanos
deriving DecidableEq

def PolicyEntry.view (entry : PolicyEntry) : PolicyView :=
  ⟨entry.revision, entry.raw, entry.rawMaxStoredBytes, entry.signalRetentions.raw .logs,
    entry.signalRetentions.raw .traces, entry.signalRetentions.raw .metrics, entry.updatedAt⟩

structure PolicyDocument where
  revision : ℕ
  retention : String
  maxStoredBytes : Option String
  logRetention : Option String
  traceRetention : Option String
  metricRetention : Option String
  updatedAt : Nanos
deriving DecidableEq

def PolicyEntry.document (entry : PolicyEntry) : PolicyDocument :=
  ⟨entry.revision, entry.raw, entry.rawMaxStoredBytes, entry.signalRetentions.raw .logs,
    entry.signalRetentions.raw .traces, entry.signalRetentions.raw .metrics, entry.updatedAt⟩

/-- `Option::transpose` of a parsed value. -/
def parseLimit : Option String → Except String (Option TenantStorageLimit)
  | none => .ok none
  | some raw => (parseStorageLimit raw).map some

/-- What a start makes of a stored document; an error is fatal. -/
def PolicyDocument.entry (document : PolicyDocument) : Except String PolicyEntry := do
  let retention ← parseRetention document.retention
  let maxStoredBytes ← parseLimit document.maxStoredBytes
  let signalRetentions ← parseSignalRetentions retention
    ⟨document.logRetention, document.traceRetention, document.metricRetention⟩
  return ⟨document.revision, retention, document.retention, maxStoredBytes,
    document.maxStoredBytes, signalRetentions, document.updatedAt⟩

/-! ### Calls -/

/-- A push for one tenant. -/
structure PolicyPush where
  revision : ℕ
  raw : String
  rawMaxStoredBytes : Option String
  rawSignalRetentions : SignalRetentionRequest
deriving DecidableEq

/-- The policy of a push that is well formed. -/
def PolicyPush.entry (push : PolicyPush) (updatedAt : Nanos) : Except String PolicyEntry := do
  let retention ← parseRetention push.raw
  let maxStoredBytes ← parseLimit push.rawMaxStoredBytes
  let signalRetentions ← parseSignalRetentions retention push.rawSignalRetentions
  return ⟨push.revision, retention, trimmed push.raw, maxStoredBytes,
    push.rawMaxStoredBytes.map trimmed, signalRetentions, updatedAt⟩

/-- Why a policy change did not take effect. -/
inductive PolicyError where
  | invalid (message : String)
  /-- It could not be made durable, and the control plane owns the retry. -/
  | persist (message : String)
  | revisionConflict (revision : ℕ)
deriving DecidableEq

inductive PushResult where
  | applied (view : PolicyView)
  | duplicate (view : PolicyView)
  | stale (view : PolicyView)
deriving DecidableEq

/-- Where the policy objects are: at an object store, or in files of this machine. -/
inductive PolicyStore where
  | remote
  | localFiles
deriving DecidableEq

/-- What the store does of the request of one call. -/
inductive Outcome where
  /-- Nothing, as the stored object could not be read. -/
  | unread (error : String)
  /-- Nothing. -/
  | failed (error : String)
  /-- What it was asked for, and it reports an error. -/
  | lost (error : String)
  | done
deriving DecidableEq

/-- Whether the request takes effect, if the call gets to make it. -/
def Outcome.lands : Outcome → Bool
  | .unread _ => false
  | .failed _ => false
  | .lost _ => true
  | .done => true

/-- What is stored after a request to write a document, and what the caller is told. -/
def write (existing : Option PolicyDocument) (document : PolicyDocument) (context : String) :
    Outcome → Option PolicyDocument × Except String Unit
  | .unread error => (existing, .error (context ++ error))
  | .failed error => (existing, .error (context ++ error))
  | .lost error => (some document, .error (context ++ error))
  | .done => (some document, .ok ())

/-- `put_tenant_policy_revision`: a body is compared whole. -/
def putTenantPolicyRevision (existing : Option PolicyDocument) (tenant : String)
    (document : PolicyDocument) (outcome : Outcome) :
    Option PolicyDocument × Except String Unit :=
  match outcome with
  | .unread error =>
    (existing, .error ("failed to read the policy for tenant " ++ tenant ++ ": " ++ error))
  | outcome =>
    match existing with
    | some current =>
      if current.revision = document.revision ∧ current = document then (existing, .ok ())
      else if document.revision ≤ current.revision then
        (existing, .error ("tenant policy revision conflict for " ++ tenant ++ ": current=" ++
          toString current.revision ++ ", requested=" ++ toString document.revision))
      else
        write existing document ("failed to update the policy for tenant " ++ tenant ++ ": ")
          outcome
    | none =>
      write existing document ("failed to create the policy for tenant " ++ tenant ++ ": ") outcome

/-- `PolicyStore::put`; a file is renamed over what is there. -/
def PolicyStore.put (store : PolicyStore) (existing : Option PolicyDocument) (tenant : String)
    (document : PolicyDocument) (outcome : Outcome) :
    Option PolicyDocument × Except String Unit :=
  match store with
  | .remote => putTenantPolicyRevision existing tenant document outcome
  | .localFiles => write existing document "" outcome

/-- `PolicyStore::delete`; what is not there is deleted. -/
def PolicyStore.delete (store : PolicyStore) (existing : Option PolicyDocument) (tenant : String)
    (outcome : Outcome) : Option PolicyDocument × Except String Unit :=
  let context := match store with
    | .remote => "failed to delete the policy for tenant " ++ tenant ++ ": "
    | .localFiles => ""
  match outcome with
  | .unread error => (existing, .error (context ++ error))
  | .failed error => (existing, .error (context ++ error))
  | .lost error => (none, .error (context ++ error))
  | .done => (none, .ok ())

structure State where
  store : Option PolicyStore
  /-- The policies in memory. -/
  entries : String → Option PolicyEntry
  objects : String → Option PolicyDocument
  /-- The pushes that the control plane repeats: their answer was that they could not be made
  durable, and none of as late a revision has been applied since. -/
  failed : List (String × PolicyPush)
  /-- The revisions that were stored since the last removal, the newest first. -/
  written : String → List ℕ

/-- The answer of the policy in memory, unless the push is of a later revision. -/
def State.fence (s : State) (tenant : String) (entry : PolicyEntry) :
    Option (Except PolicyError PushResult) :=
  (s.entries tenant).bind fun current =>
    if entry.revision < current.revision then some (.ok (.stale current.view))
    else if entry.revision = current.revision then
      if samePolicyDocument current entry.raw entry.rawMaxStoredBytes entry.signalRetentions then
        some (.ok (.duplicate current.view))
      else some (.error (.revisionConflict entry.revision))
    else none

/-- The object of a tenant after a request, with the revision of one that is new. -/
def State.setObject (s : State) (tenant : String) (object : Option PolicyDocument) : State :=
  { s with
    objects := Function.update s.objects tenant object
    written := Function.update s.written tenant <|
      match object with
      | none => []
      | some document =>
        if s.objects tenant = object then s.written tenant
        else document.revision :: s.written tenant }

/-- The policy of a tenant in memory. -/
def State.setEntry (s : State) (tenant : String) (entry : Option PolicyEntry) : State :=
  { s with entries := Function.update s.entries tenant entry }

/-- `push_with_signal_retentions`. -/
def State.push (s : State) (tenant : String) (push : PolicyPush) (now : Nanos)
    (outcome : Outcome) : State × Except PolicyError PushResult :=
  match s.store with
  | none => (s, .error (.invalid "per-tenant retention is not enabled"))
  | some store =>
    match push.entry now with
    | .error error => (s, .error (.invalid error))
    | .ok entry =>
      match s.fence tenant entry with
      | some answer => (s, answer)
      | none =>
        let (object, result) := store.put (s.objects tenant) tenant entry.document outcome
        let s := s.setObject tenant object
        match result with
        | .error error =>
          ({ s with failed := (tenant, push) :: s.failed }, .error (.persist error))
        | .ok () =>
          let s := s.setEntry tenant (some entry)
          ({ s with failed := s.failed.filter fun failed =>
              failed.1 != tenant || push.revision < failed.2.revision },
            .ok (.applied entry.view))

/-- `remove`. -/
def State.remove (s : State) (tenant : String) (outcome : Outcome) :
    State × Except PolicyError Unit :=
  match s.store with
  | none => (s, .error (.invalid "per-tenant retention is not enabled"))
  | some store =>
    let (object, result) := store.delete (s.objects tenant) tenant outcome
    let s := s.setObject tenant object
    match result with
    | .error error => (s, .error (.persist error))
    | .ok () => (s.setEntry tenant none, .ok ())

inductive Event where
  | push (tenant : String) (push : PolicyPush) (now : Nanos) (outcome : Outcome)
  | remove (tenant : String) (outcome : Outcome)

def State.step (s : State) : Event → State
  | .push tenant push now outcome => (s.push tenant push now outcome).1
  | .remove tenant outcome => (s.remove tenant outcome).1

/-- The calls for all tenants, one after the other: they take a lock. -/
def machine : Machine State Event := ⟨fun s event => some (s.step event)⟩

/-- What is in memory is what a start would load. -/
def Loaded (object : Option PolicyDocument) (entry : Option PolicyEntry) : Prop :=
  object.map PolicyDocument.entry = entry.map .ok

/-- A first state. -/
def State.start (store : Option PolicyStore) (entries : String → Option PolicyEntry)
    (objects : String → Option PolicyDocument) : State :=
  ⟨store, entries, objects, [], fun tenant =>
    ((objects tenant).map PolicyDocument.revision).toList⟩

/-! ### What is promised -/

/-- A push that has been accepted, now or before. -/
def PushResult.Settled : PushResult → Prop
  | .applied _ => True
  | .duplicate _ => True
  | .stale _ => False

/-- **A push can be retried.** -/
structure Retryable (s : State) : Prop where
  /-- The memory is not ahead of the store. -/
  notAhead : ∀ tenant entry, s.entries tenant = some entry →
    ∃ document, s.objects tenant = some document ∧ entry.revision ≤ document.revision
  /-- Revisions are stored in order. -/
  increasing : ∀ tenant, (s.written tenant).Pairwise (· > ·)
  /-- A push that could not be made durable is accepted when the store answers. -/
  retried : ∀ failed ∈ s.failed, ∀ now, ∃ result,
    (s.push failed.1 failed.2 now .done).2 = .ok result ∧ result.Settled ∧
      Loaded ((s.push failed.1 failed.2 now .done).1.objects failed.1)
        ((s.push failed.1 failed.2 now .done).1.entries failed.1)

/-- A step that leaves nothing to be told apart: a push that an object store has stored is answered
so, a push to files is of a later revision than the file that it replaces, and a removal that is
answered with an error has not taken effect where a policy is in memory. -/
def Calm (s : State) : Event → Prop
  | .push tenant push now outcome =>
    ∀ entry, push.entry now = .ok entry → s.fence tenant entry = none → outcome.lands = true →
      match s.store with
      | none => True
      | some .remote => outcome = .done
      | some .localFiles =>
        ∀ document, s.objects tenant = some document → document ≠ entry.document →
          document.revision < push.revision
  | .remove tenant outcome =>
    s.store.isSome = true → outcome.lands = true → outcome = .done ∨ s.entries tenant = none

end Policies

end Obsy
