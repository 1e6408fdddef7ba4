import Obsy.Machine.Run
import Obsy.Queue.Segment

/-!
# The queue

The calls on a collecty's queue, as programs over its files.  The queue itself is their memory:
a call that fails leaves what it had done to it.

* `openQueue`: recover the three directories and start a fresh segment in each.
* `writeRecord`, `roll`, `dropOldest`, `commit`: the calls of a running queue.
* `queueMachine`: openings, calls and crashes one after the other.
-/

namespace Obsy

namespace Queue

open Machine Machine.Program

open Journal (SenderId)

/-! ### The queue in memory -/

structure QueueLimits where
  /-- The size of the whole queue. -/
  maxBytes : ℕ
  /-- The size from which a segment is closed. -/
  maxSegmentBytes : ℕ

/-- A segment the queue holds. -/
structure Held where
  seq : ℕ
  bytes : ℕ
  /-- Where it falls among all closed segments; zero while it is open. -/
  stamp : ℕ
deriving DecidableEq

/-- The open segment: one zstd stream. -/
structure SegmentWriter where
  /-- The segment's number. -/
  seq : ℕ
  /-- What the encoder has handed to the file. -/
  written : ℕ
  /-- What the encoder has taken. -/
  plain : List UInt8
deriving DecidableEq

/-- One signal's segments: the closed ones, oldest first, and the one at the back. -/
structure SignalQueue where
  /-- The segments in front of the back one. -/
  closed : List Held
  back : Held
  /-- Its encoder; none after closing it failed. -/
  active : Option SegmentWriter
  /-- When the open segment took its first record. -/
  activeSince : Option ℕ
deriving DecidableEq

/-- All the segments a signal holds. -/
def SignalQueue.segments (q : SignalQueue) : List Held := q.closed ++ [q.back]

/-- What the queue counts. -/
structure QueueStats where
  /-- Everything held. -/
  queuedBytes : ℕ
  appendedRecords : ℕ
  /-- Their plain size. -/
  appendedBytes : ℕ
  droppedBytes : ℕ
  droppedSegments : ℕ
deriving DecidableEq

/-- `Inner`: the state behind the queue's lock. -/
structure Inner where
  /-- The signals' segments. -/
  signals : Signal → SignalQueue
  /-- The last arrival stamp handed out. -/
  stamped : ℕ
  stats : QueueStats

/-- Change one signal's segments. -/
def Inner.update (inner : Inner) (signal : Signal) (f : SignalQueue → SignalQueue) : Inner :=
  { inner with signals := Function.update inner.signals signal (f (inner.signals signal)) }

/-- `u64::MAX + 1`, where numbers wrap. -/
def u64Wrap : ℕ := 2 ^ 64

/-- `FIRST_SEGMENT`. -/
def firstSegment : ℕ := 1

/-! ### Opening -/

/-- A signal's directory after its recovery: the number of its next segment and its files. -/
structure Recovered where
  signal : Signal
  /-- From the highest number the directory held. -/
  next : ℕ
  /-- The files that are left. -/
  files : List Listed

/-- The number after the highest one listed. -/
def nextNumber (listed : List Listed) : ℕ :=
  match listed.getLast? with
  | some last => (last.seq + 1) % u64Wrap
  | none => firstSegment

/-- Recover one signal's directory. -/
def recover (zstd : Zstd) (signal : Signal) : Call Unit Recovered := do
  act .createDir
  act (.sweepTemporaries signal)
  let listed ← ask (.list signal)
  match listed.getLast? with
  | none => return ⟨signal, nextNumber listed, []⟩
  | some last =>
    let resealed ← reseal zstd signal last.seq
    match resealed with
    | some bytes =>
      return ⟨signal, nextNumber listed, listed.dropLast ++ [{ last with bytes := bytes }]⟩
    | none => return ⟨signal, nextNumber listed, listed.dropLast⟩

/-- The key the recovered files are sorted by. -/
def sortKey (file : Signal × Listed) : ℕ ×ₗ ℕ ×ₗ ℕ :=
  toLex (file.2.modified, toLex (file.1.index, file.2.seq))

/-- The order the signals closed their segments in, read off the files' timestamps. -/
def arrivalOrder (recovered : List Recovered) : List (Signal × Listed) :=
  (recovered.flatMap fun r => r.files.map fun file => (r.signal, file)).insertionSort
    fun a b => sortKey a ≤ sortKey b

/-- The recovered segments, stamped in their order. -/
def stampFiles (files : List (Signal × Listed)) : List (Signal × Held) :=
  files.zipIdx.map fun (file, i) => (file.1, ⟨file.2.seq, file.2.bytes, i + 1⟩)

/-- One signal's segments among the stamped ones. -/
def heldOf (signal : Signal) (stamped : List (Signal × Held)) : List Held :=
  (stamped.filter fun held => held.1 = signal).map (·.2)

/-- Make a segment file: `SegmentWriter::create` and `SegmentWriter::reusing`. -/
def createSegment {Mem : Type} (sender : SenderId) (signal : Signal) (seq : ℕ) :
    Call Mem Unit := do
  act (.createSegment sender signal seq)
  act .sync
  act .sync

/-- The next number of a signal. -/
def nextOf (recovered : List Recovered) (signal : Signal) : ℕ :=
  ((recovered.find? fun r => r.signal = signal).map (·.next)).getD firstSegment

/-- The queue that holds what was recovered, with a fresh open segment for each signal. -/
def openedInner (recovered : List Recovered) : Inner where
  signals signal :=
    { closed := heldOf signal (stampFiles (arrivalOrder recovered))
      back := ⟨nextOf recovered signal, 0, 0⟩
      active := some ⟨nextOf recovered signal, 0, []⟩
      activeSince := none }
  stamped := (arrivalOrder recovered).length
  stats := ⟨(recovered.flatMap fun r => r.files.map (·.bytes)).sum, 0, 0, 0, 0⟩

/-- The identity in the queue's directory, or a new one when it cannot be read. -/
def loadSender (fresh : SenderId) : Call Unit SenderId := do
  let stored ← ask .loadIdentity
  match stored with
  | some sender => return sender
  | none =>
    act (.writeIdentity fresh)
    act .sync
    act .renameIdentity
    act .sync
    return fresh

/-- `Queue::open`. -/
def openQueue (zstd : Zstd) (fresh : SenderId) : Call Unit (SenderId × Inner) := do
  act .createDir
  act .sweepIdentity
  let sender ← loadSender fresh
  let recovered ← each (recover zstd) Signal.all
  let _ ← each (fun r : Recovered => createSegment sender r.signal r.next) recovered
  return (sender, openedInner recovered)

/-! ### Calls on a running queue -/

/-- A subtraction of counters, which must not go below zero. -/
def checkedSub (a b : ℕ) : Call Inner ℕ := if b ≤ a then ret (a - b) else throw .overflow

/-- **The rule for a subtraction**, on any device. -/
theorem wp_checkedSub {σ F : Type} {D : Device fileInterface σ F} {a b : ℕ}
    {Q : ℕ → Inner → σ → Prop} {E : QueueError → Inner → σ → Prop} {K : σ → Prop} {m : Inner} {s : σ}
    (hdone : b ≤ a → Q (a - b) m s) (hbelow : a < b → E .overflow m s) :
    (checkedSub a b).wp D ⟨Q, E, K⟩ m s := by
  unfold checkedSub
  split_ifs with h
  · exact hdone h
  · exact hbelow (Nat.lt_of_not_le h)

theorem preserves_checkedSub {σ F : Type} {D : Device fileInterface σ F}
    {P : Inner → σ → Prop} {K : σ → Prop} (a b : ℕ) : Preserves D P K (checkedSub a b) :=
  fun _ _ h => wp_checkedSub (fun _ => h) fun _ => h

/-- Hand plain bytes to a signal's encoder. -/
def writeAll (signal : Signal) (plain : List UInt8) : Call Inner Unit := do
  let inner ← load
  match (inner.signals signal).active with
  | none => throw .closed
  | some writer =>
    let encoded ← ask (.encode signal writer.seq plain)
    store (inner.update signal fun q => { q with
      active := some { writer with
        written := writer.written + encoded.emitted
        plain := writer.plain ++ plain.take encoded.accepted } })
    if encoded.ok then return () else throw .io

/-- Close the open segment's stream; its true size is only known here. -/
def finish (signal : Signal) : Call Inner ℕ := do
  let inner ← load
  match (inner.signals signal).active with
  | none => throw .closed
  | some writer =>
    store (inner.update signal fun q => { q with active := none })
    let encoded ← ask (.encode signal writer.seq [])
    if encoded.ok then
      act .sync
      return writer.written + encoded.emitted
    else throw .io

/-- `Queue::roll`: close a signal's open segment and start the next one. -/
def roll (sender : SenderId) (signal : Signal) : Call Inner Unit := do
  let inner ← load
  if (inner.signals signal).activeSince.isNone then return ()
  else
    let stamp := inner.stamped + 1
    store { inner with stamped := stamp }
    let back := (inner.signals signal).back
    let next := (back.seq + 1) % u64Wrap
    let bytes ← finish signal
    let grew ← checkedSub bytes back.bytes
    let inner ← load
    store (inner.update signal fun q => { q with
      back := { q.back with bytes := bytes, stamp := stamp } })
    createSegment sender signal next
    let inner ← load
    store { inner.update signal fun q =>
        { closed := q.closed ++ [q.back]
          back := ⟨next, 0, 0⟩
          active := some ⟨next, 0, []⟩
          activeSince := none } with
      stats := { inner.stats with queuedBytes := inner.stats.queuedBytes + grew } }

/-- The signals that hold a closed segment, each with its oldest one. -/
def sealedFronts (inner : Inner) : List (Signal × Held) :=
  Signal.all.filterMap fun signal =>
    (inner.signals signal).closed.head?.map fun front => (signal, front)

/-- `oldest_sealed`: the closed segment that has been waiting longest. -/
def oldestSealed (inner : Inner) : Option (Signal × Held) :=
  match sealedFronts inner with
  | [] => none
  | first :: rest =>
    some (rest.foldl (fun best x => if x.2.stamp < best.2.stamp then x else best) first)

/-- `Queue::read_segment`: a closed segment, whole. -/
def readSegment (signal : Signal) (seq : ℕ) : Call Inner (List UInt8) := ask (.read signal seq)

/-- Unlink the closed segment that has been waiting longest, if there is one. -/
def dropSealed : Call Inner Unit := do
  let inner ← load
  match oldestSealed inner with
  | none => return ()
  | some (signal, held) =>
    store (inner.update signal fun q => { q with closed := q.closed.tail })
    act (.remove .dropped signal held.seq)
    let inner ← load
    let queued ← checkedSub inner.stats.queuedBytes held.bytes
    store { inner with stats := { inner.stats with
      queuedBytes := queued
      droppedBytes := inner.stats.droppedBytes + held.bytes
      droppedSegments := inner.stats.droppedSegments + 1 } }

/-- `Queue::drop_oldest`. -/
def dropOldest (sender : SenderId) : Call Inner Unit := do
  let inner ← load
  if (oldestSealed inner).isNone then
    let _ ← each (roll sender) Signal.all
  dropSealed

/-- Drop the oldest segments until a record has room, at most `fuel` of them. -/
def makeRoom (limits : QueueLimits) (sender : SenderId) (plainLen : ℕ) : ℕ → Call Inner Unit
  | 0 => do
    let inner ← load
    if limits.maxBytes < inner.stats.queuedBytes + plainLen then throw .unfinished
    else return ()
  | fuel + 1 => do
    let inner ← load
    if limits.maxBytes < inner.stats.queuedBytes + plainLen then
      dropOldest sender
      makeRoom limits sender plainLen fuel
    else return ()

def countRecord (signal : Signal) (plainLen now : ℕ) : Call Inner Unit := do
  let inner ← load
  store (inner.update signal fun q => { q with activeSince := some (q.activeSince.getD now) })
  let inner ← load
  let q := inner.signals signal
  let written := (q.active.map (·.written)).getD 0
  let grew ← checkedSub written q.back.bytes
  store { inner.update signal fun q => { q with back := { q.back with bytes := written } } with
    stats := { inner.stats with
      queuedBytes := inner.stats.queuedBytes + grew
      appendedRecords := inner.stats.appendedRecords + 1
      appendedBytes := inner.stats.appendedBytes + plainLen } }

/-- `Queue::write_record` of the payload that arrives in `pieces`. -/
def writeRecord (limits : QueueLimits) (sender : SenderId) (signal : Signal)
    (pieces : List (List UInt8)) (now fuel : ℕ) : Call Inner Unit := do
  let bytes := (pieces.map List.length).sum
  let plainLen := recordHeaderBytes + bytes
  if limits.maxBytes < plainLen then throw (.tooLarge plainLen limits.maxBytes)
  else
    makeRoom limits sender plainLen fuel
    let inner ← load
    if limits.maxSegmentBytes ≤ ((inner.signals signal).active.map (·.written)).getD 0 then
      roll sender signal
    writeAll signal (Bytes.leBytes recordHeaderBytes bytes)
    let _ ← each (writeAll signal) pieces
    countRecord signal plainLen now

/-- `Queue::seal_if_due`, with the signals whose open segment is old enough. -/
def sealIfDue (sender : SenderId) (due : Signal → Bool) : Call Inner Unit := do
  let _ ← each (fun signal => if due signal then roll sender signal else return ()) Signal.all

/-- `Queue::seal`. -/
def sealAll (sender : SenderId) : Call Inner Unit := do
  let _ ← each (roll sender) Signal.all

/-- The closed segments a commit takes from the front. -/
def commitLoop (signal : Signal) (acked active : ℕ) : List Held → Call Inner ℕ
  | [] => return 0
  | front :: rest => do
    if acked < front.seq ∨ front.seq = active then return 0
    else
      let inner ← load
      store (inner.update signal fun q => { q with closed := rest })
      act (.remove .committed signal front.seq)
      let freed ← commitLoop signal acked active rest
      return front.bytes + freed

/-- `Queue::commit`: the far end has every segment of this signal up to `acked`. -/
def commit (signal : Signal) (acked : ℕ) : Call Inner Unit := do
  let inner ← load
  let q := inner.signals signal
  let freed ← commitLoop signal acked q.back.seq q.closed
  let inner ← load
  let queued ← checkedSub inner.stats.queuedBytes freed
  store { inner with stats := { inner.stats with queuedBytes := queued } }

/-! ### The machine -/

/-- A call on a running queue. -/
inductive Command
  /-- Append one export, which arrives in pieces. -/
  | append (signal : Signal) (pieces : List (List UInt8)) (now fuel : ℕ)
  /-- Close the open segments that are old enough. -/
  | sealIfDue (due : Signal → Bool)
  /-- Close every open segment. -/
  | sealAll
  /-- Drop the oldest closed segment. -/
  | dropOldest
  /-- Unlink what the far end has. -/
  | commit (signal : Signal) (acked : ℕ)

def Command.program (limits : QueueLimits) (sender : SenderId) : Command → Call Inner Unit
  | append signal pieces now fuel => writeRecord limits sender signal pieces now fuel
  | sealIfDue due => Queue.sealIfDue sender due
  | sealAll => Queue.sealAll sender
  | dropOldest => Queue.dropOldest sender
  | commit signal acked => Queue.commit signal acked

/-- The queue's directory and the process that has it open, if one does. -/
structure State where
  disk : Disk
  /-- The running queue. -/
  queue : Option (SenderId × Inner)

/-- What happens to a queue. -/
inductive Event
  /-- A process opens it, with an identity to use when there is none. -/
  | openQueue (fresh : SenderId) (fates : List Fate)
  | call (command : Command) (fates : List Fate)
  /-- The process dies between two calls. -/
  | crash

/-- The state after a program that runs on an open queue. -/
def afterCall (sender : SenderId) (o : Outcome Inner Disk QueueError Unit Fate) : State :=
  match o.ending with
  | .crashed => ⟨o.device, none⟩
  | _ => ⟨o.device, some (sender, o.memory)⟩

def afterOpen (o : Outcome Unit Disk QueueError (SenderId × Inner) Fate) : State :=
  match o.ending with
  | .done opened => ⟨o.device, some opened⟩
  | _ => ⟨o.device, none⟩

/-- The queue under everything that can happen to it. -/
def queueMachine (zstd : Zstd) (limits : QueueLimits) : Machine State Event where
  step s e :=
    match e, s.queue with
    | .openQueue fresh fates, none =>
      some (afterOpen ((openQueue zstd fresh).exec files fates () s.disk))
    | .call command fates, some (sender, inner) =>
      some (afterCall sender ((command.program limits sender).exec files fates inner s.disk))
    | .crash, _ => some ⟨s.disk, none⟩
    | _, _ => none

end Queue

end Obsy
