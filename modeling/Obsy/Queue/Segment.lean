import Obsy.Bytes.Framing
import Obsy.Journal.Marks
import Obsy.Machine.Program
import Mathlib.Data.List.Sort
import Mathlib.Logic.Function.Basic

/-!
# Segment files

The files of a collecty's queue: a directory for each signal, one file for each segment, and
the identity of the queue beside them.  `files` is the device: one file operation of the source
each, which may fail with or without its effect.

* `Dir`: a directory's segment files, each number once, in the order a listing gives them.
* `Disk`: the three directories and the identity, with what was ever created.
* `reseal`: closing the segment that a previous process left open.
* `wholeRecordsLen`: how much of a plain text is whole records.
-/

namespace Obsy

namespace Queue

open Machine Machine.Program

open Journal (SenderId)

/-- Which of the three queues a segment belongs to. -/
inductive Signal
  | logs
  | traces
  | metrics
deriving DecidableEq, Repr

/-- `Signal::ALL`. -/
def Signal.all : List Signal := [.logs, .traces, .metrics]

/-- Which of the three queues this signal owns. -/
def Signal.index : Signal → ℕ
  | logs => 0
  | traces => 1
  | metrics => 2

theorem Signal.mem_all (signal : Signal) : signal ∈ all := by cases signal <;> decide

/-! ### Directories -/

structure SegmentFile where
  seq : ℕ
  content : List UInt8
  /-- When it was last written. -/
  modified : ℕ
deriving DecidableEq

/-- Put a file among others in the order of their numbers, over one of its own number. -/
def putFile (file : SegmentFile) : List SegmentFile → List SegmentFile
  | [] => [file]
  | other :: rest =>
    if file.seq < other.seq then file :: other :: rest
    else if file.seq = other.seq then file :: rest
    else other :: putFile file rest

theorem mem_putFile {file x : SegmentFile} {files : List SegmentFile}
    (h : x ∈ putFile file files) : x = file ∨ x ∈ files := by
  induction files with
  | nil => exact .inl (List.mem_singleton.1 h)
  | cons other rest ih =>
    simp only [putFile] at h
    split_ifs at h
    · exact (List.mem_cons.1 h).imp_right id
    · rcases List.mem_cons.1 h with h | h
      · exact .inl h
      · exact .inr (List.mem_cons_of_mem _ h)
    · rcases List.mem_cons.1 h with h | h
      · exact .inr (h ▸ List.mem_cons_self)
      · exact (ih h).imp_right (List.mem_cons_of_mem _)

theorem pairwise_putFile {file : SegmentFile} {files : List SegmentFile}
    (h : files.Pairwise (·.seq < ·.seq)) : (putFile file files).Pairwise (·.seq < ·.seq) := by
  induction files with
  | nil => exact List.pairwise_singleton _ _
  | cons other rest ih =>
    obtain ⟨hother, hrest⟩ := List.pairwise_cons.1 h
    simp only [putFile]
    split_ifs with hlt heq
    · refine List.pairwise_cons.2 ⟨fun x hx => ?_, h⟩
      rcases List.mem_cons.1 hx with rfl | hx
      · exact hlt
      · exact hlt.trans (hother x hx)
    · exact List.pairwise_cons.2 ⟨fun x hx => heq ▸ hother x hx, hrest⟩
    · refine List.pairwise_cons.2 ⟨fun x hx => ?_, ih hrest⟩
      rcases mem_putFile hx with rfl | hx
      · omega
      · exact hother x hx

theorem seqs_putFile {file : SegmentFile} {files : List SegmentFile} {seq : ℕ} :
    (∃ x ∈ putFile file files, x.seq = seq) ↔ seq = file.seq ∨ ∃ x ∈ files, x.seq = seq := by
  induction files with
  | nil => simp [putFile, eq_comm]
  | cons other rest ih =>
    simp only [putFile]
    split_ifs with hlt heq
    · simp only [List.exists_mem_cons_iff, eq_comm (a := seq)]
    · simp only [List.exists_mem_cons_iff, eq_comm (a := seq), heq]
      tauto
    · simp only [List.exists_mem_cons_iff, ih]
      tauto

/-- A signal's directory. -/
structure Dir where
  /-- The segment files, in the order of their numbers. -/
  files : List SegmentFile
  sorted : files.Pairwise (·.seq < ·.seq)
  /-- The rewrites that have not taken their segment's name yet. -/
  temporaries : List SegmentFile

namespace Dir

/-- An empty directory. -/
def empty : Dir := ⟨[], List.Pairwise.nil, []⟩

/-- The numbers of the segment files. -/
def seqs (dir : Dir) : List ℕ := dir.files.map (·.seq)

/-- Write a segment file under its name. -/
def put (dir : Dir) (file : SegmentFile) : Dir :=
  { dir with files := putFile file dir.files, sorted := pairwise_putFile dir.sorted }

/-- Unlink a segment file. -/
def erase (dir : Dir) (seq : ℕ) : Dir :=
  { dir with
    files := dir.files.filter fun file => file.seq ≠ seq
    sorted := dir.sorted.sublist List.filter_sublist }

/-- The file of a number. -/
def find (dir : Dir) (seq : ℕ) : Option SegmentFile := dir.files.find? fun file => file.seq = seq

@[simp] theorem mem_seqs_put {dir : Dir} {file : SegmentFile} {seq : ℕ} :
    seq ∈ (dir.put file).seqs ↔ seq = file.seq ∨ seq ∈ dir.seqs := by
  simp only [seqs, put, List.mem_map, seqs_putFile]

@[simp] theorem mem_seqs_erase {dir : Dir} {n seq : ℕ} :
    seq ∈ (dir.erase n).seqs ↔ seq ∈ dir.seqs ∧ seq ≠ n := by
  simp only [seqs, erase, List.mem_map, List.mem_filter, decide_eq_true_eq]
  constructor
  · rintro ⟨file, ⟨hfile, hne⟩, rfl⟩
    exact ⟨⟨file, hfile, rfl⟩, hne⟩
  · rintro ⟨⟨file, hfile, rfl⟩, hne⟩
    exact ⟨file, ⟨hfile, hne⟩, rfl⟩

theorem mem_seqs_of_find {dir : Dir} {seq : ℕ} {file : SegmentFile}
    (h : dir.find seq = some file) : seq ∈ dir.seqs := by
  have hs : file.seq = seq := by simpa using List.find?_some h
  exact hs ▸ List.mem_map_of_mem (List.mem_of_find?_eq_some h)

end Dir

/-! ### The disk and its operations -/

/-- Why a segment file is unlinked. -/
inductive Unlink
  /-- Startup found nothing readable in it. -/
  | unreadable
  /-- It made room for a record. -/
  | dropped
  /-- Its signal was committed. -/
  | committed
deriving DecidableEq

/-- A segment file that was created, and under which identity. -/
structure Creation where
  /-- The queue's identity. -/
  sender : SenderId
  /-- The signal's directory. -/
  signal : Signal
  seq : ℕ
deriving DecidableEq

/-- The queue's directory, and what happened in it. -/
structure Disk where
  /-- The identity file, when it can be read. -/
  identity : Option SenderId
  /-- The identity that is being written. -/
  identityTemporary : Option SenderId
  /-- The signals' directories. -/
  dirs : Signal → Dir
  /-- The segment files ever created, in order. -/
  created : List Creation
  /-- Startup has unlinked the signal's last segment and not yet created its next. -/
  gap : Signal → Bool

namespace Disk

/-- Change one signal's directory. -/
def update (disk : Disk) (signal : Signal) (f : Dir → Dir) : Disk :=
  { disk with dirs := Function.update disk.dirs signal (f (disk.dirs signal)) }

/-- The numbers created under a signal, in order. -/
def createdSeqs (disk : Disk) (signal : Signal) : List ℕ :=
  (disk.created.filter fun c => c.signal = signal).map (·.seq)

end Disk

/-- What a directory listing says of a segment. -/
structure Listed where
  seq : ℕ
  bytes : ℕ
  /-- When it was last written. -/
  modified : ℕ
deriving DecidableEq

/-- Why a call on the queue fails. -/
inductive QueueError
  /-- A file operation failed. -/
  | io
  /-- The segment is already closed. -/
  | closed
  /-- The record is larger than the queue. -/
  | tooLarge (plainLen maxBytes : ℕ)
  /-- A subtraction of counters went below zero. -/
  | overflow
  /-- The call has not ended yet. -/
  | unfinished
deriving DecidableEq

/-- The file operations of the queue. -/
inductive FileOp
  /-- `create_dir_all` of the queue or of a signal. -/
  | createDir
  /-- `sweep_temporaries` of the queue's directory. -/
  | sweepIdentity
  /-- `sweep_temporaries` of a signal's directory. -/
  | sweepTemporaries (signal : Signal)
  /-- `identity::load`. -/
  | loadIdentity
  /-- Write an identity under its temporary name. -/
  | writeIdentity (sender : SenderId)
  | renameIdentity
  /-- Force a file or a directory to the device. -/
  | sync
  /-- `segment::list`. -/
  | list (signal : Signal)
  | read (signal : Signal) (seq : ℕ)
  /-- Create a segment file, or truncate it. -/
  | createSegment (sender : SenderId) (signal : Signal) (seq : ℕ)
  /-- Hand plain bytes to the encoder of an open segment. -/
  | encode (signal : Signal) (seq : ℕ) (plain : List UInt8)
  /-- Write a whole stream under a temporary name. -/
  | writeTemporary (signal : Signal) (seq : ℕ) (content : List UInt8)
  /-- Rename a rewrite to its segment's name. -/
  | renameTemporary (signal : Signal) (seq : ℕ)
  /-- `segment::remove`. -/
  | remove (why : Unlink) (signal : Signal) (seq : ℕ)

/-- What the encoder did with the bytes it was handed. -/
structure Encoded where
  /-- How many plain bytes it took. -/
  accepted : ℕ
  /-- How many bytes it wrote to the file. -/
  emitted : ℕ
  /-- Whether it reported no error. -/
  ok : Bool

/-- What the file operations give when they go well; an encoder reports its errors itself. -/
def FileOp.Res : FileOp → Type
  | loadIdentity => Option SenderId
  | list _ => List Listed
  | read _ _ => List UInt8
  | encode _ _ _ => Encoded
  | _ => Unit

abbrev fileInterface : Interface := ⟨FileOp, fun op => Except QueueError op.Res⟩

/-- What becomes of one file operation. -/
structure Fate where
  fails : Bool
  /-- Whether an operation that reports an error took effect. -/
  applied : Bool
  time : ℕ
  /-- What the encoder writes. -/
  emitted : List UInt8
  /-- How many plain bytes an encoder that fails has taken. -/
  accepted : ℕ

/-- An operation that went well. -/
def Fate.fine (time : ℕ) (emitted : List UInt8) : Fate := ⟨false, true, time, emitted, 0⟩

/-- The listing of a directory. -/
def listing (dir : Dir) : List Listed :=
  dir.files.map fun file => ⟨file.seq, file.content.length, file.modified⟩

/-- The effect of an operation that changes the disk; nothing when the file it names is
missing. -/
def effect (time : ℕ) (emitted : List UInt8) (disk : Disk) : FileOp → Option Disk
  | .sweepIdentity => some { disk with identityTemporary := none }
  | .sweepTemporaries signal => some (disk.update signal fun dir => { dir with temporaries := [] })
  | .writeIdentity sender => some { disk with identityTemporary := some sender }
  | .renameIdentity =>
    some { disk with identity := disk.identityTemporary, identityTemporary := none }
  | .createSegment sender signal seq => some
    { disk.update signal fun dir => dir.put ⟨seq, [], time⟩ with
      created := disk.created ++ [⟨sender, signal, seq⟩]
      gap := Function.update disk.gap signal false }
  | .encode signal seq _ =>
    match (disk.dirs signal).find seq with
    | some file => some (disk.update signal fun dir =>
        dir.put ⟨seq, file.content ++ emitted, time⟩)
    | none => some disk
  | .writeTemporary signal seq content => some (disk.update signal fun dir =>
      { dir with temporaries := ⟨seq, content, time⟩ :: dir.temporaries })
  | .renameTemporary signal seq =>
    match (disk.dirs signal).temporaries.find? fun file => file.seq = seq with
    | some file => some (disk.update signal fun dir =>
        { dir.put file with temporaries := dir.temporaries.filter fun f => f.seq ≠ seq })
    | none => none
  | .remove why signal seq =>
    match (disk.dirs signal).find seq with
    | some _ => some
      { disk.update signal fun dir => dir.erase seq with
        gap := if why = .unreadable then Function.update disk.gap signal true else disk.gap }
    | none => none
  | _ => some disk

/-- What an operation that went well answers. -/
def answer (fate : Fate) (disk : Disk) : (op : FileOp) → Except QueueError op.Res
  | .loadIdentity => .ok disk.identity
  | .list signal => .ok (listing (disk.dirs signal))
  | .read signal seq =>
    match (disk.dirs signal).find seq with
    | some file => .ok file.content
    | none => .error .io
  | .encode _ _ plain => .ok ⟨plain.length, fate.emitted.length, true⟩
  | .createDir | .sweepIdentity | .sweepTemporaries _ | .writeIdentity _ | .renameIdentity
  | .sync | .createSegment _ _ _ | .writeTemporary _ _ _ | .renameTemporary _ _
  | .remove _ _ _ => .ok ()

/-- What an operation that failed answers. -/
def failure (fate : Fate) : (op : FileOp) → Except QueueError op.Res
  | .encode _ _ plain => .ok ⟨min fate.accepted plain.length, fate.emitted.length, false⟩
  | _ => .error .io

def files : Device fileInterface Disk Fate where
  apply fate disk op :=
    match effect fate.time fate.emitted disk op with
    | none => (failure fate op, disk)
    | some disk' =>
      if fate.fails then (failure fate op, if fate.applied then disk' else disk)
      else (answer fate disk op, disk')

/-- A call on the queue: the queue is its memory. -/
abbrev Call (Mem : Type) : Type → Type := Program fileInterface Mem QueueError

variable {Mem : Type}

/-- Ask for an operation and go on with what it gives, or fail with its error. -/
def ask (op : FileOp) : Call Mem op.Res :=
  (perform (I := fileInterface) op).bind fun r =>
    match r with
    | .ok res => ret res
    | .error e => throw e

/-- Ask for an operation that gives nothing. -/
def act (op : FileOp) : Call Mem Unit := (ask op).bind fun _ => ret ()

/-- **The rule for one operation**: it may fail before or after its effect. -/
theorem wp_ask {op : FileOp} (hop : ∀ fate, failure fate op = .error .io)
    {Q : op.Res → Mem → Disk → Prop} {E : QueueError → Mem → Disk → Prop} {K : Disk → Prop}
    {m : Mem} {disk : Disk} (hK : K disk) (hE : ∀ e, E e m disk)
    (heffect : ∀ time emitted disk', effect time emitted disk op = some disk' →
      (∀ fate res, answer fate disk op = .ok res → Q res m disk') ∧ ∀ e, E e m disk') :
    (ask op : Call Mem op.Res).wp files ⟨Q, E, K⟩ m disk := by
  refine ⟨hK, fun fate => ?_⟩
  cases heff : effect fate.time fate.emitted disk op with
  | none =>
    simp only [files, heff, hop]
    exact hE _
  | some disk' =>
    obtain ⟨hdone, hfailed⟩ := heffect _ _ _ heff
    simp only [files, heff, hop]
    by_cases hfails : fate.fails
    · by_cases happlied : fate.applied
      · simp only [hfails, happlied, if_true]
        exact hfailed _
      · simp only [hfails, happlied, if_true]
        exact hE _
    · simp only [hfails]
      cases ha : answer fate disk op with
      | ok res => exact hdone fate res ha
      | error e => exact hfailed e

theorem wp_act {op : FileOp} {Q : Mem → Disk → Prop} {E : QueueError → Mem → Disk → Prop}
    {K : Disk → Prop} {m : Mem} {disk : Disk}
    (h : (ask op : Call Mem op.Res).wp files ⟨fun _ m s => Q m s, E, K⟩ m disk) :
    (act op : Call Mem Unit).wp files ⟨fun _ m s => Q m s, E, K⟩ m disk :=
  wp_seq h fun _ _ _ hQ => hQ

/-! ### Closing an unfinished segment -/

/-- The zstd streams a segment holds: what decompresses before the first error and whether the
stream is whole, and a plain text as one whole stream. -/
structure Zstd where
  /-- Decompress as far as it goes. -/
  decode : List UInt8 → List UInt8 × Bool
  /-- Compress into one whole stream. -/
  encode : List UInt8 → List UInt8

/-- `RECORD_HEADER_BYTES`. -/
def recordHeaderBytes : ℕ := 4

/-- How much of `plain` is whole records. -/
def wholeRecordsLen (plain : List UInt8) : ℕ :=
  if plain.length < recordHeaderBytes then 0
  else
    let next := recordHeaderBytes + Bytes.leNat (plain.take recordHeaderBytes)
    if plain.length < next then 0 else next + wholeRecordsLen (plain.drop next)
termination_by plain.length
decreasing_by
  simp only [recordHeaderBytes, List.length_drop] at *
  omega

/-- Unlink a segment with nothing readable in it. -/
def removeUnreadable (signal : Signal) (seq : ℕ) : Call Mem (Option ℕ) := do
  act (.remove .unreadable signal seq)
  act .sync
  return none

/-- Write a segment out again as a stream that ends properly. -/
def rewrite (signal : Signal) (seq : ℕ) (content : List UInt8) : Call Mem (Option ℕ) := do
  act (.writeTemporary signal seq content)
  act .sync
  act (.renameTemporary signal seq)
  act .sync
  return some content.length

/-- What is left of a segment's plain text when it is closed where it stopped; nothing when the
segment is whole. -/
def resealed (zstd : Zstd) (content : List UInt8) : Option (List UInt8) :=
  let (plain, whole) := zstd.decode content
  let kept := wholeRecordsLen plain
  if whole && kept == plain.length then none else some (plain.take kept)

/-- Close a segment that a previous process left open: its size, or nothing when nothing in it
survived and the file is gone. -/
def reseal (zstd : Zstd) (signal : Signal) (seq : ℕ) : Call Mem (Option ℕ) := do
  let metadata ← ask (.read signal seq)
  if metadata.length = 0 then removeUnreadable signal seq
  else
    let content ← ask (.read signal seq)
    match resealed zstd content with
    | none => return some metadata.length
    | some [] => removeUnreadable signal seq
    | some (byte :: plain) => rewrite signal seq (zstd.encode (byte :: plain))

end Queue

end Obsy
