import Obsy.Bytes.Framing
import Mathlib.Data.List.AList
import Mathlib.Data.Prod.Lex
import Mathlib.Order.MinMax

/-!
# Collect marks

A collecty numbers the segments of each of its three streams.  `CollectMarks` remembers for
every pair of a sender and a signal the `Position` its stream has reached.  Positions only
move forward (`CollectMarks.position_advance`), and a mark of one stream leaves the other
streams alone.

* `frameMark`/`decodeMark`: a mark as a WAL record and back (`decodeMark_frameMark`).
* `CollectMarks.store`/`CollectMarks.load`: the marks file.  What is loaded back holds the
  position of every stream that has not been silent too long (`position_load_store`).
-/

namespace Obsy

namespace Journal

open Bytes

/-- `SENDER_ID_BYTES`. -/
def senderIdBytes : ℕ := 16

/-- Which collecty a segment came from. -/
structure SenderId where
  /-- The random bytes made with the queue directory. -/
  bytes : List UInt8
  size : bytes.length = senderIdBytes
deriving DecidableEq

/-- A collecty. -/
def sampleSender : SenderId := ⟨List.replicate 16 7, by decide⟩

/-- Which of a collecty's three streams a segment belongs to. -/
inductive CollectSignal
  | logs
  | traces
  | metrics
deriving DecidableEq, Repr

namespace CollectSignal

/-- The signals in the order the source lists them. -/
def all : List CollectSignal := [logs, traces, metrics]

/-- What a mark spells the signal as. -/
def tag : CollectSignal → UInt8
  | logs => 1
  | traces => 2
  | metrics => 3

/-- The signal a byte spells, if it spells one. -/
def fromTag (tag : UInt8) : Option CollectSignal := all.find? fun signal => signal.tag = tag

@[simp] theorem fromTag_tag (signal : CollectSignal) : fromTag signal.tag = some signal := by
  cases signal <;> decide

end CollectSignal

/-! ### Positions -/

/-- Where a stream is up to: everything strictly before this point is durable. -/
@[ext]
structure Position where
  /-- The segment being read. -/
  segment : UInt64
  /-- How many of its records are stored. -/
  records : UInt64
deriving DecidableEq

namespace Position

/-- Nothing of segment one yet. -/
def start : Position := ⟨1, 0⟩

/-- The last segment the sender has whole. -/
def wholeSegments (p : Position) : UInt64 := if p.segment = 0 then 0 else p.segment - 1

/-- The two numbers, compared lexicographically. -/
def toPair (p : Position) : ℕ ×ₗ ℕ := toLex (p.segment.toNat, p.records.toNat)

theorem toPair_injective : Function.Injective toPair := by
  intro p q h
  have h' := toLex.injective h
  simp only [Prod.mk.injEq, UInt64.toNat_inj] at h'
  exact Position.ext h'.1 h'.2

instance : LinearOrder Position := LinearOrder.lift' toPair toPair_injective

end Position

/-- A pair of a sender and a signal: the stream a position is held under. -/
abbrev Stream := SenderId × CollectSignal

/-- One claim about one stream, written into the WAL beside the records it accounts for. -/
structure CollectMark where
  /-- The collecty that sent the segment. -/
  sender : SenderId
  /-- The stream of the segment. -/
  signal : CollectSignal
  /-- How far the stream has got. -/
  pos : Position
deriving DecidableEq

/-- The stream a mark is about. -/
def CollectMark.stream (mark : CollectMark) : Stream := (mark.sender, mark.signal)

/-! ### Marks as WAL records -/

/-- `MARK_RECORD_MAGIC`: `LGYM`. -/
def markRecordMagic : List UInt8 := [76, 71, 89, 77]

/-- `MARK_RECORD_BYTES`. -/
def markRecordBytes : ℕ := 4 + senderIdBytes + 1 + 8 + 8

/-- The eight bytes of a `u64`. -/
def u64Bytes (n : UInt64) : List UInt8 := leBytes 8 n.toNat

/-- The `u64` in eight bytes. -/
def u64OfBytes (bytes : List UInt8) : UInt64 := UInt64.ofNat (leNat bytes)

@[simp] theorem length_u64Bytes (n : UInt64) : (u64Bytes n).length = 8 := length_leBytes 8 _

@[simp] theorem u64OfBytes_u64Bytes (n : UInt64) : u64OfBytes (u64Bytes n) = n := by
  have h : n.toNat < 256 ^ 8 := n.toNat_lt
  rw [u64OfBytes, u64Bytes, leNat_leBytes h, UInt64.ofNat_toNat]

/-- `LGYM | sender | signal | segment | records`. -/
def frameMark (mark : CollectMark) : List UInt8 :=
  markRecordMagic ++ (mark.sender.bytes ++ (mark.signal.tag ::
    (u64Bytes mark.pos.segment ++ u64Bytes mark.pos.records)))

/-- The bytes `data[start .. start + len]`. -/
def slice (data : List UInt8) (start len : ℕ) : List UInt8 := (data.drop start).take len

/-- The mark a WAL record holds, when it is a mark. -/
def decodeMark (data : List UInt8) : Option CollectMark :=
  if h : data.length = markRecordBytes ∧ data.take 4 = markRecordMagic then
    let id : SenderId := ⟨slice data 4 senderIdBytes, by
      simp only [slice, List.length_take, List.length_drop, h.1]
      decide⟩
    match CollectSignal.fromTag (data.getD (4 + senderIdBytes) 0) with
    | none => none
    | some signal => some ⟨id, signal,
        u64OfBytes (slice data (4 + senderIdBytes + 1) 8),
        u64OfBytes (slice data (4 + senderIdBytes + 9) 8)⟩
  else none

@[simp] theorem length_frameMark (mark : CollectMark) :
    (frameMark mark).length = markRecordBytes := by
  simp only [frameMark, List.length_append, List.length_cons, length_u64Bytes, mark.sender.size]
  rfl

theorem slice_append {xs ys zs : List UInt8} {start len : ℕ} (hs : xs.length = start)
    (hl : ys.length = len) : slice (xs ++ (ys ++ zs)) start len = ys := by
  subst hs hl
  simp [slice]

/-- **A mark reads back as written.** -/
@[simp] theorem decodeMark_frameMark (mark : CollectMark) :
    decodeMark (frameMark mark) = some mark := by
  obtain ⟨sender, signal, segment, records⟩ := mark
  have hsize := sender.size
  have hid : slice (frameMark ⟨sender, signal, segment, records⟩) 4 senderIdBytes =
      sender.bytes := slice_append rfl hsize
  have htag : (frameMark ⟨sender, signal, segment, records⟩).getD (4 + senderIdBytes) 0 =
      signal.tag := by
    simp [frameMark, markRecordMagic, senderIdBytes, List.getD_eq_getElem?_getD, hsize]
  have hseg : slice (frameMark ⟨sender, signal, segment, records⟩) (4 + senderIdBytes + 1) 8 =
      u64Bytes segment := by
    have : frameMark ⟨sender, signal, segment, records⟩ =
        (markRecordMagic ++ (sender.bytes ++ [signal.tag])) ++
          (u64Bytes segment ++ u64Bytes records) := by
      simp [frameMark]
    rw [this]
    exact slice_append (by simp [markRecordMagic, hsize, senderIdBytes]) (length_u64Bytes _)
  have hrec : slice (frameMark ⟨sender, signal, segment, records⟩) (4 + senderIdBytes + 9) 8 =
      u64Bytes records := by
    have : frameMark ⟨sender, signal, segment, records⟩ =
        (markRecordMagic ++ (sender.bytes ++ (signal.tag :: u64Bytes segment))) ++
          (u64Bytes records ++ []) := by
      simp [frameMark]
    rw [this]
    exact slice_append (by simp [markRecordMagic, hsize, senderIdBytes]) (length_u64Bytes _)
  have hcond : (frameMark ⟨sender, signal, segment, records⟩).length = markRecordBytes ∧
      (frameMark ⟨sender, signal, segment, records⟩).take 4 = markRecordMagic :=
    ⟨length_frameMark _, by simp [frameMark, markRecordMagic]⟩
  simp only [decodeMark, dif_pos hcond, htag, CollectSignal.fromTag_tag, hid, hseg, hrec,
    u64OfBytes_u64Bytes]

theorem decodeMark_eq_none {data : List UInt8} (h : data.take 4 ≠ markRecordMagic) :
    decodeMark data = none :=
  dif_neg fun hc => h hc.2

/-! ### The marks in memory -/

/-- What is remembered of one stream. -/
structure Seen where
  /-- How far the stream has got. -/
  pos : Position
  /-- When it was last heard of, in nanoseconds since the epoch. -/
  when : ℕ
deriving DecidableEq

/-- How far each stream has got, as far as this instance is concerned. -/
structure CollectMarks where
  /-- The remembered streams, each once. -/
  inner : AList fun _ : Stream => Seen

namespace CollectMarks

/-- Nothing remembered. -/
def empty : CollectMarks := ⟨∅⟩

instance : Inhabited CollectMarks := ⟨empty⟩

/-- Where a stream is up to: the start of segment one for one never heard from. -/
def position (marks : CollectMarks) (stream : Stream) : Position :=
  match marks.inner.lookup stream with
  | some seen => seen.pos
  | none => Position.start

/-- Only ever forward. -/
def advance (marks : CollectMarks) (now : ℕ) (mark : CollectMark) : CollectMarks :=
  let seen := (marks.inner.lookup mark.stream).getD ⟨Position.start, 0⟩
  ⟨marks.inner.insert mark.stream ⟨max seen.pos mark.pos, now⟩⟩

theorem position_eq_getD (marks : CollectMarks) (stream : Stream) :
    marks.position stream =
      ((marks.inner.lookup stream).getD ⟨Position.start, 0⟩).pos := by
  unfold position
  cases marks.inner.lookup stream <;> rfl

/-- **A mark moves its own stream forward and no other.** -/
theorem position_advance (marks : CollectMarks) (now : ℕ) (mark : CollectMark)
    (stream : Stream) : (marks.advance now mark).position stream =
      if stream = mark.stream then max (marks.position stream) mark.pos
      else marks.position stream := by
  split_ifs with h
  · subst h
    rw [position_eq_getD, position_eq_getD]
    simp only [advance, AList.lookup_insert, Option.getD_some]
  · simp only [position, advance, AList.lookup_insert_ne h]

/-- The furthest of `base` and the positions that `marks` claims for `stream`. -/
def furthest (base : Position) (stream : Stream) (marks : List CollectMark) : Position :=
  ((marks.filter fun mark => mark.stream = stream).map (·.pos)).foldl max base

@[simp] theorem furthest_nil (base : Position) (stream : Stream) :
    furthest base stream [] = base := rfl

theorem furthest_cons (base : Position) (stream : Stream) (mark : CollectMark)
    (marks : List CollectMark) : furthest base stream (mark :: marks) =
      furthest (if mark.stream = stream then max base mark.pos else base) stream marks := by
  by_cases h : mark.stream = stream
  · simp [furthest, h]
  · simp [furthest, h]

theorem furthest_append (base : Position) (stream : Stream) (xs ys : List CollectMark) :
    furthest base stream (xs ++ ys) = furthest (furthest base stream xs) stream ys := by
  simp [furthest, List.foldl_append]

theorem foldl_max_le {base bound : Position} {xs : List Position} :
    xs.foldl max base ≤ bound ↔ base ≤ bound ∧ ∀ x ∈ xs, x ≤ bound := by
  induction xs generalizing base with
  | nil => simp
  | cons x xs ih =>
    rw [List.foldl_cons, ih]
    simp only [max_le_iff, List.mem_cons, forall_eq_or_imp, and_assoc]

theorem furthest_le {base bound : Position} {stream : Stream} {marks : List CollectMark} :
    furthest base stream marks ≤ bound ↔
      base ≤ bound ∧ ∀ mark ∈ marks, mark.stream = stream → mark.pos ≤ bound := by
  rw [furthest, foldl_max_le]
  refine and_congr_right fun _ => ⟨fun h mark hm hs => h _ ?_, fun h x hx => ?_⟩
  · exact List.mem_map_of_mem (List.mem_filter.2 ⟨hm, by simpa using hs⟩)
  · obtain ⟨mark, hm, rfl⟩ := List.mem_map.1 hx
    obtain ⟨hm, hs⟩ := List.mem_filter.1 hm
    exact h mark hm (by simpa using hs)

/-- **What a list of marks does to every position.** -/
theorem position_foldl_advance (marks : CollectMarks) (now : ℕ) (list : List CollectMark)
    (stream : Stream) : (list.foldl (fun acc mark => acc.advance now mark) marks).position stream =
      furthest (marks.position stream) stream list := by
  induction list generalizing marks with
  | nil => rfl
  | cons mark list ih =>
    rw [List.foldl_cons, ih, furthest_cons, position_advance]
    simp only [eq_comm (a := stream)]

/-! ### The marks file -/

/-- `MARK_ENTRY_BYTES`. -/
def markEntryBytes : ℕ := senderIdBytes + 1 + 8 + 8 + 8

/-- `FORGET_AFTER`, in nanoseconds. -/
def forgetAfter : ℕ := 7 * 24 * 60 * 60 * 1000000000

/-- Nanoseconds in a second. -/
@[irreducible] def nanosPerSec : ℕ := 1000000000

/-- Forget whoever has been silent too long. -/
def retain (marks : CollectMarks) (now : ℕ) : CollectMarks :=
  ⟨⟨marks.inner.entries.filter fun entry => now - entry.2.when < forgetAfter,
    marks.inner.nodupKeys.sublist List.filter_sublist⟩⟩

/-- One entry of the marks file. -/
def entryBytes (entry : (_ : Stream) × Seen) : List UInt8 :=
  entry.1.1.bytes ++ (entry.1.2.tag :: (u64Bytes entry.2.pos.segment ++
    (u64Bytes entry.2.pos.records ++ leBytes 8 (entry.2.when / nanosPerSec))))

/-- The marks file that `store` writes, and the marks left in memory. -/
def store (C : Checksum) (marks : CollectMarks) (now : ℕ) : CollectMarks × List UInt8 :=
  let live := marks.retain now
  let bytes := leBytes 4 live.inner.entries.length ++ live.inner.entries.flatMap entryBytes
  (live, bytes ++ leBytes 4 (C.hash bytes).toNat)

/-- The entry at the front of `bytes`, put into the marks when its signal is one. -/
def loadEntry (marks : CollectMarks) (bytes : List UInt8) : CollectMarks :=
  if h : senderIdBytes ≤ bytes.length then
    let id : SenderId := ⟨bytes.take senderIdBytes, by simp [h]⟩
    match CollectSignal.fromTag (bytes.getD senderIdBytes 0) with
    | none => marks
    | some signal => ⟨marks.inner.insert (id, signal)
        ⟨⟨u64OfBytes (slice bytes (senderIdBytes + 1) 8),
          u64OfBytes (slice bytes (senderIdBytes + 9) 8)⟩,
          leNat (slice bytes (senderIdBytes + 17) 8) * nanosPerSec⟩⟩
  else marks

/-- The loop over the `count` entries that follow the count. -/
def loadEntries : ℕ → List UInt8 → CollectMarks → CollectMarks
  | 0, _, marks => marks
  | count + 1, bytes, marks => loadEntries count (bytes.drop markEntryBytes) (loadEntry marks bytes)

/-- Read what the last checkpoint knew; anything unreadable is nothing. -/
def load (C : Checksum) (file : Option (List UInt8)) : CollectMarks :=
  match file with
  | none => empty
  | some bytes =>
    if bytes.length < 8 then empty
    else
      let body := bytes.length - 4
      if (C.hash (bytes.take body)).toNat ≠ leNat (bytes.drop body) then empty
      else
        let count := leNat (bytes.take 4)
        if body ≠ 4 + count * markEntryBytes then empty
        else loadEntries count (bytes.drop 4) empty

theorem length_entryBytes (entry : (_ : Stream) × Seen) :
    (entryBytes entry).length = markEntryBytes := by
  simp only [entryBytes, List.length_append, List.length_cons, length_u64Bytes, length_leBytes,
    entry.1.1.size]
  rfl

/-- What an entry of the marks file keeps: the time is cut to whole seconds. -/
def Seen.toFile (seen : Seen) : Seen :=
  ⟨seen.pos, leNat (leBytes 8 (seen.when / nanosPerSec)) * nanosPerSec⟩

@[simp] theorem Seen.toFile_pos (seen : Seen) : (Seen.toFile seen).pos = seen.pos := rfl

theorem loadEntry_entryBytes (marks : CollectMarks) (entry : (_ : Stream) × Seen)
    (rest : List UInt8) : loadEntry marks (entryBytes entry ++ rest) =
      ⟨marks.inner.insert entry.1 (Seen.toFile entry.2)⟩ := by
  obtain ⟨⟨sender, signal⟩, ⟨⟨segment, records⟩, when⟩⟩ := entry
  have hsize := sender.size
  set tail := u64Bytes segment ++ (u64Bytes records ++
    (leBytes 8 (when / nanosPerSec) ++ rest)) with htail
  have hbytes : entryBytes ⟨(sender, signal), ⟨⟨segment, records⟩, when⟩⟩ ++ rest =
      sender.bytes ++ (signal.tag :: tail) := by
    simp [entryBytes, htail]
  have hid : (sender.bytes ++ (signal.tag :: tail)).take senderIdBytes = sender.bytes := by
    rw [← hsize]; exact List.take_left' rfl
  have htag : (sender.bytes ++ (signal.tag :: tail)).getD senderIdBytes 0 = signal.tag := by
    simp [List.getD_eq_getElem?_getD, hsize]
  have hseg : slice (sender.bytes ++ (signal.tag :: tail)) (senderIdBytes + 1) 8 =
      u64Bytes segment := by
    have : sender.bytes ++ (signal.tag :: tail) =
        (sender.bytes ++ [signal.tag]) ++ tail := by simp
    rw [this, htail]
    exact slice_append (by simp [hsize]) (length_u64Bytes _)
  have hrec : slice (sender.bytes ++ (signal.tag :: tail)) (senderIdBytes + 9) 8 =
      u64Bytes records := by
    have : sender.bytes ++ (signal.tag :: tail) =
        (sender.bytes ++ (signal.tag :: u64Bytes segment)) ++
          (u64Bytes records ++ (leBytes 8 (when / nanosPerSec) ++ rest)) := by simp [htail]
    rw [this]
    exact slice_append (by simp [hsize]) (length_u64Bytes _)
  have hwhen : slice (sender.bytes ++ (signal.tag :: tail)) (senderIdBytes + 17) 8 =
      leBytes 8 (when / nanosPerSec) := by
    have : sender.bytes ++ (signal.tag :: tail) =
        (sender.bytes ++ (signal.tag :: (u64Bytes segment ++ u64Bytes records))) ++
          (leBytes 8 (when / nanosPerSec) ++ rest) := by simp [htail]
    rw [this]
    exact slice_append (by simp [hsize]) (length_leBytes _ _)
  have hlen : senderIdBytes ≤ (sender.bytes ++ (signal.tag :: tail)).length := by
    rw [List.length_append, hsize]; exact Nat.le_add_right _ _
  rw [hbytes]
  simp only [loadEntry, dif_pos hlen, htag, CollectSignal.fromTag_tag, hid, hseg, hrec, hwhen,
    u64OfBytes_u64Bytes, Seen.toFile]

/-- Reading the entries back inserts them in the order they were written. -/
theorem loadEntries_flatMap (entries : List ((_ : Stream) × Seen)) (rest : List UInt8)
    (marks : CollectMarks) :
    loadEntries entries.length (entries.flatMap entryBytes ++ rest) marks =
      entries.foldl (fun acc entry => ⟨acc.inner.insert entry.1 (Seen.toFile entry.2)⟩) marks := by
  induction entries generalizing marks with
  | nil => rfl
  | cons entry entries ih =>
    rw [List.flatMap_cons, List.append_assoc, List.length_cons, loadEntries,
      loadEntry_entryBytes, List.foldl_cons, List.drop_left' (length_entryBytes entry), ih]

theorem lookup_foldl_insert (entries : List ((_ : Stream) × Seen)) (hnd : entries.NodupKeys)
    (marks : CollectMarks) (stream : Stream) :
    (entries.foldl (fun (acc : CollectMarks) entry =>
        ⟨acc.inner.insert entry.1 (Seen.toFile entry.2)⟩) marks).inner.lookup stream =
      ((entries.dlookup stream).map Seen.toFile).or (marks.inner.lookup stream) := by
  induction entries generalizing marks with
  | nil => simp
  | cons entry entries ih =>
    obtain ⟨key, seen⟩ := entry
    rw [List.nodupKeys_cons] at hnd
    rw [List.foldl_cons, ih hnd.2]
    by_cases h : stream = key
    · subst h
      rw [List.dlookup_eq_none.2 hnd.1]
      simp [AList.lookup_insert]
    · rw [AList.lookup_insert_ne h, List.dlookup_cons_ne _ _ h]

/-- **The marks file keeps every position.**  What is loaded from a stored file holds, for each
stream, the position the marks had after the silent streams were forgotten. -/
theorem position_load_store (C : Checksum) (marks : CollectMarks) (now : ℕ)
    (hcount : (marks.retain now).inner.entries.length < 2 ^ 32) (stream : Stream) :
    (load C (some (store C marks now).2)).position stream =
      (marks.retain now).position stream := by
  set live := marks.retain now with hlive
  set entries := live.inner.entries with hentries
  set bytes := leBytes 4 entries.length ++ entries.flatMap entryBytes with hbytes
  have hflat : (entries.flatMap entryBytes).length = entries.length * markEntryBytes := by
    simp [List.length_flatMap, length_entryBytes]
  have hlen : bytes.length = 4 + entries.length * markEntryBytes := by
    rw [hbytes, List.length_append, length_leBytes, hflat]
  have hfile : (store C marks now).2 = bytes ++ leBytes 4 (C.hash bytes).toNat := rfl
  have hbody : (store C marks now).2.length - 4 = bytes.length := by
    rw [hfile, List.length_append, length_leBytes]; omega
  have hcrc : (C.hash bytes).toNat < 256 ^ 4 := (C.hash bytes).toNat_lt
  have hload : load C (some (store C marks now).2) =
      loadEntries entries.length (entries.flatMap entryBytes ++ leBytes 4 (C.hash bytes).toNat)
        empty := by
    have hfile4 : (store C marks now).2 = leBytes 4 entries.length ++
        (entries.flatMap entryBytes ++ leBytes 4 (C.hash bytes).toNat) := by
      rw [hfile, hbytes, List.append_assoc]
    have hcount4 : leNat ((store C marks now).2.take 4) = entries.length := by
      rw [hfile4, List.take_left' (length_leBytes 4 _), leNat_leBytes (by simpa using hcount)]
    have htake : (store C marks now).2.take bytes.length = bytes := by
      rw [hfile, List.take_left' rfl]
    have hdrop : (store C marks now).2.drop bytes.length = leBytes 4 (C.hash bytes).toNat := by
      rw [hfile, List.drop_left' rfl]
    have h8 : ¬ (store C marks now).2.length < 8 := by
      rw [hfile, List.length_append, length_leBytes, hlen]; omega
    have hdrop4 : (store C marks now).2.drop 4 =
        entries.flatMap entryBytes ++ leBytes 4 (C.hash bytes).toNat := by
      rw [hfile4, List.drop_left' (length_leBytes 4 _)]
    simp only [load, if_neg h8, hbody, htake, hdrop, hcount4, hdrop4, leNat_leBytes hcrc]
    rw [if_neg (not_not_intro rfl), if_neg (not_not_intro hlen)]
  rw [hload, loadEntries_flatMap, position_eq_getD, position_eq_getD,
    lookup_foldl_insert _ live.inner.nodupKeys]
  have hlook : live.inner.lookup stream = entries.dlookup stream := rfl
  rw [hlook]
  cases entries.dlookup stream with
  | none => simp [empty]
  | some seen => simp only [Option.map_some, Option.some_or, Option.getD_some, Seen.toFile_pos]

/-- A mark that was seen a week before the file was written is not in it; one of a minute ago is. -/
theorem position_load_store_sample :
    let marks := (empty.advance 0 ⟨sampleSender, .traces, ⟨3, 1⟩⟩).advance (forgetAfter - 60)
      ⟨sampleSender, .logs, ⟨1, 5⟩⟩
    (load crc32 (some (store crc32 marks forgetAfter).2)).position (sampleSender, .logs) = ⟨1, 5⟩ ∧
      (load crc32 (some (store crc32 marks forgetAfter).2)).position (sampleSender, .traces) =
        Position.start := by
  intro marks
  have hcount : (marks.retain forgetAfter).inner.entries.length < 2 ^ 32 := by decide +kernel
  refine ⟨?_, ?_⟩
  · rw [position_load_store crc32 marks forgetAfter hcount]
    decide +kernel
  · rw [position_load_store crc32 marks forgetAfter hcount]
    decide +kernel

end CollectMarks

end Journal

end Obsy
