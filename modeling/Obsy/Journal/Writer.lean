import Obsy.Journal.Record
import Mathlib.Order.Bounds.Basic

/-!
# The journal writer

The writer takes a batch of appends, frames them and the batch's marks into one buffer, and
writes it with one `sync_all`.  A batch that could not be written is cut off again.

* `groupMarks`: the marks of a batch, one per sender.
* `BatchExact`: every stream of the batch has one mark, the furthest of its own.  The writer
  meets it exactly when no sender has marks of two signals in the batch
  (`groupMarks_exact_iff`).
* `Writer.run`: batches one after the other, each written or not.  The file holds the records
  of the written batches and nothing else (`Writer.run_file`), and the tables hold what these
  records hold (`Writer.tables_writeBatch`).
-/

namespace Obsy

namespace Journal

open Bytes

/-! ### The marks of a batch -/

/-- One more mark into the marks of a batch: the first entry of the same sender takes the
further position. -/
def noteMark : List CollectMark → CollectMark → List CollectMark
  | [], mark => [mark]
  | seen :: rest, mark =>
    if seen.sender = mark.sender then { seen with pos := max seen.pos mark.pos } :: rest
    else seen :: noteMark rest mark

/-- `batch_marks`: the marks of a batch's items, in order. -/
def groupMarks (marks : List CollectMark) : List CollectMark := marks.foldl noteMark []

/-- Every stream that has marks in the batch has exactly one framed mark, at the furthest of
its own positions, and no other stream has any. -/
def BatchExact (marks framed : List CollectMark) : Prop :=
  ∀ stream : Stream,
    ((∃ mark ∈ marks, mark.stream = stream) →
      ∃ one, framed.filter (fun mark => mark.stream = stream) = [one] ∧
        IsGreatest {pos | ∃ mark ∈ marks, mark.stream = stream ∧ mark.pos = pos} one.pos) ∧
    ((∀ mark ∈ marks, mark.stream ≠ stream) →
      framed.filter (fun mark => mark.stream = stream) = [])

/-- No sender has marks of two signals. -/
def OneSignal (marks : List CollectMark) : Prop :=
  ∀ mark ∈ marks, ∀ other ∈ marks, mark.sender = other.sender → mark.signal = other.signal

instance (marks : List CollectMark) : Decidable (OneSignal marks) :=
  inferInstanceAs (Decidable (∀ mark ∈ marks, ∀ other ∈ marks, _ → _))

theorem filter_noteMark (sender : SenderId) (acc : List CollectMark) (mark : CollectMark) :
    (noteMark acc mark).filter (fun m => m.sender = sender) =
      if mark.sender = sender then noteMark (acc.filter fun m => m.sender = sender) mark
      else acc.filter fun m => m.sender = sender := by
  induction acc with
  | nil => by_cases h : mark.sender = sender <;> simp [noteMark, h]
  | cons seen rest ih =>
    by_cases hseen : seen.sender = mark.sender
    · by_cases h : mark.sender = sender
      · simp [noteMark, hseen, h]
      · simp [noteMark, hseen, h]
    · by_cases h : mark.sender = sender
      · have hs : ¬ seen.sender = sender := fun hs => hseen (hs.trans h.symm)
        simp only [h, if_true] at ih
        simp [noteMark, hs, h, ih]
      · simp only [h, if_false] at ih
        rw [noteMark, if_neg hseen, if_neg h]
        by_cases hs : seen.sender = sender <;> simp [hs, ih]

/-- A sender's marks are grouped among themselves. -/
theorem filter_foldl_noteMark (sender : SenderId) (acc marks : List CollectMark) :
    (marks.foldl noteMark acc).filter (fun m => m.sender = sender) =
      (marks.filter fun m => m.sender = sender).foldl noteMark
        (acc.filter fun m => m.sender = sender) := by
  induction marks generalizing acc with
  | nil => rfl
  | cons mark marks ih =>
    rw [List.foldl_cons, ih, filter_noteMark]
    by_cases h : mark.sender = sender <;> simp [h]

theorem foldl_noteMark_singleton {sender : SenderId} (first : CollectMark)
    (hfirst : first.sender = sender) (marks : List CollectMark)
    (hmarks : ∀ mark ∈ marks, mark.sender = sender) :
    marks.foldl noteMark [first] =
      [{ first with pos := (marks.map (·.pos)).foldl max first.pos }] := by
  induction marks generalizing first with
  | nil => rfl
  | cons mark marks ih =>
    have hm : first.sender = mark.sender := hfirst.trans (hmarks mark List.mem_cons_self).symm
    rw [List.foldl_cons, noteMark, if_pos hm]
    exact ih { first with pos := max first.pos mark.pos } hfirst
      fun m h => hmarks m (List.mem_cons_of_mem _ h)

/-- **What is framed for a sender**: nothing when it has no mark, and otherwise one mark with
the signal of its first and the furthest position of all. -/
theorem groupMarks_filter (sender : SenderId) (marks : List CollectMark) :
    (groupMarks marks).filter (fun m => m.sender = sender) =
      match marks.filter fun m => m.sender = sender with
      | [] => []
      | first :: rest => [{ first with pos := (rest.map (·.pos)).foldl max first.pos }] := by
  rw [groupMarks, filter_foldl_noteMark]
  cases h : marks.filter fun m => m.sender = sender with
  | nil => rfl
  | cons first rest =>
    have hall : ∀ mark ∈ first :: rest, mark.sender = sender := by
      rw [← h]; exact fun mark hm => by simpa using (List.mem_filter.1 hm).2
    exact foldl_noteMark_singleton first (hall _ List.mem_cons_self) rest
      fun mark hm => hall mark (List.mem_cons_of_mem _ hm)

theorem filter_stream (stream : Stream) (marks : List CollectMark) :
    marks.filter (fun m => m.stream = stream) =
      (marks.filter fun m => m.sender = stream.1).filter fun m => m.signal = stream.2 := by
  rw [List.filter_filter]
  refine List.filter_congr fun m _ => ?_
  simp only [CollectMark.stream, Prod.ext_iff, Bool.decide_and]
  exact Bool.and_comm _ _

theorem isGreatest_foldl_max (base : Position) (xs : List Position) :
    IsGreatest {p | p ∈ base :: xs} (xs.foldl max base) := by
  induction xs generalizing base with
  | nil => exact ⟨List.mem_cons_self, fun p hp => (List.mem_singleton.1 hp).le⟩
  | cons x xs ih =>
    obtain ⟨hmem, hub⟩ := ih (max base x)
    refine ⟨?_, fun p hp => ?_⟩
    · rcases List.mem_cons.1 hmem with h | h
      · have hm : max base x = base ∨ max base x = x := max_choice base x
        change xs.foldl max (max base x) ∈ base :: x :: xs
        rw [h]
        rcases hm with hm | hm <;> rw [hm] <;> simp
      · exact List.mem_cons_of_mem _ (List.mem_cons_of_mem _ h)
    · have hbound : max base x ≤ xs.foldl max (max base x) := hub List.mem_cons_self
      rcases List.mem_cons.1 hp with rfl | hp
      · exact (le_max_left _ _).trans hbound
      · rcases List.mem_cons.1 hp with rfl | hp
        · exact (le_max_right _ _).trans hbound
        · exact hub (List.mem_cons_of_mem _ hp)

theorem groupMarks_exact {marks : List CollectMark} (h : OneSignal marks) :
    BatchExact marks (groupMarks marks) := by
  intro stream
  have hsignal : ∀ mark ∈ marks, mark.sender = stream.1 → ∀ other ∈ marks,
      other.stream = stream → mark.signal = stream.2 := by
    rintro mark hm hs other ho rfl
    exact h mark hm other ho hs
  refine ⟨?_, fun hnone => ?_⟩
  · rintro ⟨mark, hmark, hstream⟩
    have hsame : marks.filter (fun m => m.sender = stream.1) =
        marks.filter fun m => m.stream = stream := by
      rw [filter_stream]
      refine (List.filter_eq_self.2 fun m hm => ?_).symm
      obtain ⟨hm, hs⟩ := List.mem_filter.1 hm
      exact decide_eq_true (hsignal m hm (by simpa using hs) mark hmark hstream)
    have hframed := groupMarks_filter stream.1 marks
    rw [hsame] at hframed
    cases hlist : marks.filter fun m => m.stream = stream with
    | nil =>
      have : mark ∈ marks.filter fun m => m.stream = stream :=
        List.mem_filter.2 ⟨hmark, by simpa using hstream⟩
      rw [hlist] at this
      cases this
    | cons first rest =>
      rw [hlist] at hframed
      have hfirst : first ∈ marks ∧ first.stream = stream := by
        have : first ∈ marks.filter fun m => m.stream = stream := by
          rw [hlist]; exact List.mem_cons_self
        obtain ⟨hm, hs⟩ := List.mem_filter.1 this
        exact ⟨hm, by simpa using hs⟩
      refine ⟨{ first with pos := (rest.map (·.pos)).foldl max first.pos }, ?_, ?_⟩
      · rw [filter_stream, hframed]
        have hsig : first.signal = stream.2 := congrArg Prod.snd hfirst.2
        simp [hsig]
      · have hset : {pos | ∃ mark ∈ marks, mark.stream = stream ∧ mark.pos = pos} =
            {p | p ∈ first.pos :: rest.map (·.pos)} := by
          ext pos
          have hmap : first.pos :: rest.map (·.pos) =
              (marks.filter fun m => m.stream = stream).map (·.pos) := by rw [hlist]; rfl
          change (∃ mark ∈ marks, mark.stream = stream ∧ mark.pos = pos) ↔
            pos ∈ first.pos :: rest.map (·.pos)
          rw [hmap]
          simp only [List.mem_map, List.mem_filter, decide_eq_true_eq, and_assoc]
        rw [hset]
        exact isGreatest_foldl_max _ _
  · rw [filter_stream, groupMarks_filter]
    cases hlist : marks.filter fun m => m.sender = stream.1 with
    | nil => rfl
    | cons first rest =>
      have hfirst : first ∈ marks ∧ first.sender = stream.1 := by
        have : first ∈ marks.filter fun m => m.sender = stream.1 := by
          rw [hlist]; exact List.mem_cons_self
        obtain ⟨hm, hs⟩ := List.mem_filter.1 this
        exact ⟨hm, by simpa using hs⟩
      have hsig : ¬ first.signal = stream.2 :=
        fun hsig => hnone first hfirst.1 (Prod.ext hfirst.2 hsig)
      simp [hsig]

/-- A batch in which a sender has marks of two signals frames a mark for one of them only. -/
theorem oneSignal_of_exact {marks : List CollectMark} (h : BatchExact marks (groupMarks marks)) :
    OneSignal marks := by
  intro mark hmark other hother hsender
  by_contra hsignal
  obtain ⟨a, ha, -⟩ := (h mark.stream).1 ⟨mark, hmark, rfl⟩
  obtain ⟨b, hb, -⟩ := (h other.stream).1 ⟨other, hother, rfl⟩
  have hmem : ∀ {x : CollectMark} {stream : Stream},
      (groupMarks marks).filter (fun m => m.stream = stream) = [x] →
      x ∈ (groupMarks marks).filter (fun m => m.sender = stream.1) ∧ x.signal = stream.2 := by
    intro x stream hx
    have hx' : x ∈ (groupMarks marks).filter fun m => m.stream = stream := by
      rw [hx]; exact List.mem_cons_self
    rw [filter_stream] at hx'
    obtain ⟨hx', hs⟩ := List.mem_filter.1 hx'
    exact ⟨hx', by simpa using hs⟩
  obtain ⟨ha, hasig⟩ := hmem ha
  obtain ⟨hb, hbsig⟩ := hmem hb
  have hsame : other.stream.1 = mark.stream.1 := hsender.symm
  rw [hsame] at hb
  rw [groupMarks_filter] at ha hb
  cases hlist : marks.filter fun m => m.sender = mark.stream.1 with
  | nil => rw [hlist] at ha; cases ha
  | cons first rest =>
    rw [hlist, List.mem_singleton] at ha hb
    have hab : a.signal = b.signal := by rw [ha, hb]
    exact hsignal (hasig.symm.trans (hab.trans hbsig))

/-- **When a batch's marks are exact.** -/
theorem groupMarks_exact_iff (marks : List CollectMark) :
    BatchExact marks (groupMarks marks) ↔ OneSignal marks :=
  ⟨oneSignal_of_exact, groupMarks_exact⟩

/-! ### Writing a batch -/

section Writer

variable {Entry Span Sample : Type}

/-- What the records of a WAL have put into the tables, in order. -/
structure Tables (Entry Span Sample : Type) where
  /-- The log rows, each with its tenant. -/
  memtable : List (TenantId × Entry)
  traceMemtable : List Span
  seriesMemtable : List Sample
  collectMarks : CollectMarks

/-- An append's rows into the tables. -/
def Tables.insertItem (tables : Tables Entry Span Sample)
    (item : AppendItem Entry Span Sample) : Tables Entry Span Sample :=
  { tables with
    memtable := match item.tenant with
      | some tenant => tables.memtable ++ item.entries.map (tenant, ·)
      | none => tables.memtable
    traceMemtable := tables.traceMemtable ++ item.traces
    seriesMemtable := tables.seriesMemtable ++ item.metricSamples }

def Tables.advance (tables : Tables Entry Span Sample) (now : ℕ) (mark : CollectMark) :
    Tables Entry Span Sample :=
  { tables with collectMarks := tables.collectMarks.advance now mark }

/-- One record of the WAL: an append that names a tenant, or a mark. -/
inductive Written (Entry Span Sample : Type)
  /-- An append under its tenant. -/
  | record (item : AppendItem Entry Span Sample) (tenant : TenantId)
      (owns : item.tenant = some tenant)
  | mark (mark : CollectMark)

/-- The bytes of a record before its header. -/
def Written.data : Written Entry Span Sample → List UInt8
  | record item tenant _ => tenantRecordData tenant item.kind item.payload
  | mark m => frameMark m

/-- A record's rows, or its mark, into the tables. -/
def Written.insert (now : ℕ) (tables : Tables Entry Span Sample) :
    Written Entry Span Sample → Tables Entry Span Sample
  | record item _ _ => tables.insertItem item
  | mark m => tables.advance now m

def marksOf (items : List (AppendItem Entry Span Sample)) : List CollectMark :=
  items.filterMap (·.mark)

/-- The record an append leaves, when it names a tenant. -/
def AppendItem.written (item : AppendItem Entry Span Sample) :
    Option (Written Entry Span Sample) :=
  match h : item.tenant with
  | some tenant => some (.record item tenant h)
  | none => none

/-- The records of a batch in the order they are written: the tenants' first, the marks after
them. -/
def written (items : List (AppendItem Entry Span Sample)) : List (Written Entry Span Sample) :=
  items.filterMap AppendItem.written ++ (groupMarks (marksOf items)).map .mark

variable (C : Checksum)

/-- The frame of a record: the checksum is computed over the pieces as they land. -/
def Written.frame : Written Entry Span Sample → List UInt8
  | record item tenant _ =>
    let crc := C.finalize ([[item.kind, UInt8.ofNat tenant.bytes.length], tenant.bytes,
      item.payload].foldl C.update (C.update C.init tenantRecordMagic))
    leBytes 4 (framedRecordLen tenant item.payload) ++ (leBytes 4 crc.toNat ++
      tenantRecordData tenant item.kind item.payload)
  | mark m => leBytes 4 (frameMark m).length ++ (leBytes 4 (C.hash (frameMark m)).toNat ++
      frameMark m)

/-- `buf`: the bytes of a batch. -/
def frameBatch (items : List (AppendItem Entry Span Sample)) : List UInt8 :=
  stream (Written.frame C) (written items)

/-- What became of a batch's write. -/
inductive WriteOutcome
  /-- It was written and synced. -/
  | written
  /-- It failed after this many bytes; the file was cut back. -/
  | failed (reached : ℕ)
deriving DecidableEq

structure Batch (Entry Span Sample : Type) where
  /-- The appends the writer took. -/
  items : List (AppendItem Entry Span Sample)
  /-- The time of the write. -/
  now : ℕ
  /-- What became of the write. -/
  outcome : WriteOutcome

/-- The writer between two batches. -/
structure Writer (Entry Span Sample : Type) where
  /-- The WAL file. -/
  file : List UInt8
  /-- The length a failed write is cut back to. -/
  goodLen : ℕ
  /-- The tables the writer inserts into. -/
  tables : Tables Entry Span Sample

/-- One batch: written, published and inserted, or cut off again. -/
def Writer.writeBatch (w : Writer Entry Span Sample) (b : Batch Entry Span Sample) :
    Writer Entry Span Sample :=
  let buf := frameBatch C b.items
  match b.outcome with
  | .written =>
    { file := w.file ++ buf
      goodLen := w.goodLen + buf.length
      tables := b.items.foldl Tables.insertItem
        ((groupMarks (marksOf b.items)).foldl (fun t mark => t.advance b.now mark) w.tables) }
  | .failed reached => { w with file := (w.file ++ buf.take reached).take w.goodLen }

/-- Batches one after the other. -/
def Writer.run (w : Writer Entry Span Sample) (bs : List (Batch Entry Span Sample)) :
    Writer Entry Span Sample := bs.foldl (Writer.writeBatch C) w

variable {C}

/-- Hashing the pieces of a record is hashing the record. -/
theorem Written.frame_eq (w : Written Entry Span Sample) :
    w.frame C = frameRecord C w.data := by
  cases w with
  | record item tenant owns =>
    have hcrc := C.hash_pieces tenantRecordMagic
      [[item.kind, UInt8.ofNat tenant.bytes.length], tenant.bytes, item.payload]
    have hdata : tenantRecordMagic ++ ([[item.kind, UInt8.ofNat tenant.bytes.length],
        tenant.bytes, item.payload] : List (List UInt8)).flatten =
        tenantRecordData tenant item.kind item.payload := by
      simp [tenantRecordData]
    rw [hdata] at hcrc
    simp only [frame, frameRecord, data, length_tenantRecordData, hcrc]
  | mark m => rfl

theorem Written.length_data_le (w : Written Entry Span Sample) :
    w.data.length ≤ maxRecordBytes := by
  cases w with
  | record item tenant owns =>
    rw [data, length_tenantRecordData]
    exact item.fits tenant owns
  | mark m =>
    rw [data, length_frameMark]
    decide

@[simp] theorem Written.length_frame (w : Written Entry Span Sample) :
    (w.frame C).length = recordHeaderSize + w.data.length := by
  rw [frame_eq, length_frameRecord]

theorem Written.frame_ne_nil (w : Written Entry Span Sample) : w.frame C ≠ [] := by
  refine List.ne_nil_of_length_pos ?_
  rw [length_frame, recordHeaderSize]
  omega

/-- The batches whose write succeeded. -/
def writtenBatches (bs : List (Batch Entry Span Sample)) : List (Batch Entry Span Sample) :=
  bs.filter fun b => b.outcome = .written

theorem Writer.writeBatch_failed {w : Writer Entry Span Sample} {b : Batch Entry Span Sample}
    {reached : ℕ} (hw : w.goodLen = w.file.length) (hb : b.outcome = .failed reached) :
    w.writeBatch C b = w := by
  simp only [writeBatch, hb]
  rw [List.take_append_of_le_length hw.le, List.take_of_length_le hw.ge]

theorem Writer.goodLen_writeBatch {w : Writer Entry Span Sample} (b : Batch Entry Span Sample)
    (hw : w.goodLen = w.file.length) :
    (w.writeBatch C b).goodLen = (w.writeBatch C b).file.length := by
  cases hb : b.outcome with
  | written => simp [writeBatch, hb, hw]
  | failed reached => rw [writeBatch_failed hw hb, hw]

/-- **A failed batch leaves no trace.**  A run of batches leaves what its written batches
leave. -/
theorem Writer.run_eq_written {w : Writer Entry Span Sample} (hw : w.goodLen = w.file.length)
    (bs : List (Batch Entry Span Sample)) : w.run C bs = w.run C (writtenBatches bs) := by
  induction bs generalizing w with
  | nil => rfl
  | cons b bs ih =>
    have hstep := goodLen_writeBatch (C := C) b hw
    cases hb : b.outcome with
    | written =>
      simp only [run, writtenBatches, List.filter_cons, hb, decide_true, if_true,
        List.foldl_cons] at ih ⊢
      exact ih hstep
    | failed reached =>
      simp only [run, writtenBatches, List.filter_cons, hb, List.foldl_cons,
        writeBatch_failed hw hb] at ih ⊢
      exact ih hw

theorem Writer.run_file {w : Writer Entry Span Sample} (hw : w.goodLen = w.file.length)
    (bs : List (Batch Entry Span Sample)) :
    (w.run C bs).file = w.file ++
      stream (Written.frame C) ((writtenBatches bs).flatMap fun b => written b.items) := by
  rw [run_eq_written hw]
  have hall : ∀ b ∈ writtenBatches bs, b.outcome = .written := fun b hb => by
    simpa using (List.mem_filter.1 hb).2
  generalize writtenBatches bs = ws at hall
  clear hw
  induction ws generalizing w with
  | nil => simp [run]
  | cons b ws ih =>
    have hb := hall b List.mem_cons_self
    have hrun : w.run C (b :: ws) = (w.writeBatch C b).run C ws := rfl
    rw [hrun, ih fun x hx => hall x (List.mem_cons_of_mem _ hx), List.flatMap_cons,
      stream_append]
    simp only [writeBatch, hb, frameBatch, List.append_assoc]

/-! ### What the tables hold -/

/-- The marks among the records of a WAL. -/
def Written.marks (ws : List (Written Entry Span Sample)) : List CollectMark :=
  ws.filterMap fun w =>
    match w with
    | record _ _ _ => none
    | mark m => some m

theorem Written.marks_append (xs ys : List (Written Entry Span Sample)) :
    marks (xs ++ ys) = marks xs ++ marks ys := List.filterMap_append

theorem Written.marks_written (items : List (AppendItem Entry Span Sample)) :
    marks (written items) = groupMarks (marksOf items) := by
  have hrecords : marks (items.filterMap AppendItem.written) = [] := by
    rw [marks, List.filterMap_filterMap]
    refine List.filterMap_eq_nil_iff.2 fun item _ => ?_
    unfold AppendItem.written
    split <;> rfl
  rw [written, marks_append, hrecords, List.nil_append, marks, List.filterMap_map]
  exact List.filterMap_some

/-- Inserting records moves each position to the furthest of its own marks. -/
theorem Written.position_foldl_insert (now : ℕ) (tables : Tables Entry Span Sample)
    (ws : List (Written Entry Span Sample)) (stream : Stream) :
    (ws.foldl (Written.insert now) tables).collectMarks.position stream =
      CollectMarks.furthest (tables.collectMarks.position stream) stream (marks ws) := by
  induction ws generalizing tables with
  | nil => rfl
  | cons w ws ih =>
    rw [List.foldl_cons, ih]
    cases w with
    | record item tenant owns => rfl
    | mark m =>
      have hmarks : marks (.mark m :: ws) = m :: marks ws := rfl
      rw [hmarks, CollectMarks.furthest_cons]
      simp only [insert, Tables.advance, CollectMarks.position_advance,
        eq_comm (a := stream)]

theorem Tables.insertItem_advance (tables : Tables Entry Span Sample) (now : ℕ)
    (mark : CollectMark) (item : AppendItem Entry Span Sample) :
    (tables.advance now mark).insertItem item = (tables.insertItem item).advance now mark := rfl

theorem Tables.foldl_insertItem_advance (now : ℕ) (marks : List CollectMark)
    (items : List (AppendItem Entry Span Sample)) (tables : Tables Entry Span Sample) :
    items.foldl insertItem (marks.foldl (fun t mark => t.advance now mark) tables) =
      marks.foldl (fun t mark => t.advance now mark) (items.foldl insertItem tables) := by
  induction items generalizing tables with
  | nil => rfl
  | cons item items ih =>
    have hstep : (marks.foldl (fun t mark => t.advance now mark) tables).insertItem item =
        marks.foldl (fun t mark => t.advance now mark) (tables.insertItem item) := by
      clear ih
      induction marks generalizing tables with
      | nil => rfl
      | cons mark marks ihm => rw [List.foldl_cons, List.foldl_cons, ihm, insertItem_advance]
    rw [List.foldl_cons, List.foldl_cons, hstep, ih]

theorem Tables.collectMarks_foldl_insertItem (items : List (AppendItem Entry Span Sample))
    (tables : Tables Entry Span Sample) :
    (items.foldl insertItem tables).collectMarks = tables.collectMarks := by
  induction items generalizing tables with
  | nil => rfl
  | cons item items ih => rw [List.foldl_cons, ih]; rfl

theorem Tables.collectMarks_foldl_advance (now : ℕ) (marks : List CollectMark)
    (tables : Tables Entry Span Sample) :
    (marks.foldl (fun t mark => t.advance now mark) tables).collectMarks =
      marks.foldl (fun acc mark => acc.advance now mark) tables.collectMarks := by
  induction marks generalizing tables with
  | nil => rfl
  | cons mark marks ih => rw [List.foldl_cons, ih]; rfl

/-- An append with no tenant has no rows. -/
def AppendItem.Tidy (item : AppendItem Entry Span Sample) : Prop :=
  item.tenant = none → item.traces = [] ∧ item.metricSamples = []

theorem Tables.insertItem_eq (tables : Tables Entry Span Sample) (now : ℕ)
    {item : AppendItem Entry Span Sample} (h : item.Tidy) :
    tables.insertItem item = (item.written.toList).foldl (Written.insert now) tables := by
  unfold AppendItem.written
  split
  · rfl
  · rename_i hnone
    obtain ⟨ht, hs⟩ := h hnone
    simp [insertItem, hnone, ht, hs]

theorem Tables.foldl_insertItem_eq (now : ℕ) (items : List (AppendItem Entry Span Sample))
    (h : ∀ item ∈ items, item.Tidy) (tables : Tables Entry Span Sample) :
    items.foldl insertItem tables =
      (items.filterMap AppendItem.written).foldl (Written.insert now) tables := by
  induction items generalizing tables with
  | nil => rfl
  | cons item items ih =>
    rw [List.foldl_cons, insertItem_eq tables now (h item List.mem_cons_self),
      ih fun x hx => h x (List.mem_cons_of_mem _ hx)]
    cases hw : item.written with
    | none => rw [List.filterMap_cons_none hw]; rfl
    | some w => rw [List.filterMap_cons_some hw]; rfl

/-- **A written batch inserts what its records hold.** -/
theorem Writer.tables_writeBatch {w : Writer Entry Span Sample} {b : Batch Entry Span Sample}
    (hb : b.outcome = .written) (h : ∀ item ∈ b.items, item.Tidy) :
    (w.writeBatch C b).tables =
      (written b.items).foldl (Written.insert b.now) w.tables := by
  have hmarks : ∀ (marks : List CollectMark) (tables : Tables Entry Span Sample),
      marks.foldl (fun t mark => t.advance b.now mark) tables =
        (marks.map Written.mark).foldl (Written.insert b.now) tables := by
    intro marks tables
    rw [List.foldl_map]
    rfl
  simp only [writeBatch, hb, written, List.foldl_append]
  rw [Tables.foldl_insertItem_advance, Tables.foldl_insertItem_eq b.now b.items h, hmarks]

/-- **The positions in memory after a run** are the furthest of the marks its written batches
framed. -/
theorem Writer.position_run {w : Writer Entry Span Sample} (hw : w.goodLen = w.file.length)
    (bs : List (Batch Entry Span Sample)) (stream : Stream) :
    (w.run C bs).tables.collectMarks.position stream =
      CollectMarks.furthest (w.tables.collectMarks.position stream) stream
        ((writtenBatches bs).flatMap fun b => groupMarks (marksOf b.items)) := by
  rw [run_eq_written hw]
  have hall : ∀ b ∈ writtenBatches bs, b.outcome = .written := fun b hb => by
    simpa using (List.mem_filter.1 hb).2
  generalize writtenBatches bs = ws at hall
  clear hw
  induction ws generalizing w with
  | nil => rfl
  | cons b ws ih =>
    have hb := hall b List.mem_cons_self
    have hrun : w.run C (b :: ws) = (w.writeBatch C b).run C ws := rfl
    have hmarks : (w.writeBatch C b).tables.collectMarks =
        (groupMarks (marksOf b.items)).foldl (fun acc mark => acc.advance b.now mark)
          w.tables.collectMarks := by
      simp only [writeBatch, hb, Tables.collectMarks_foldl_insertItem,
        Tables.collectMarks_foldl_advance]
    rw [hrun, ih fun x hx => hall x (List.mem_cons_of_mem _ hx), List.flatMap_cons,
      CollectMarks.furthest_append, hmarks, CollectMarks.position_foldl_advance]

end Writer

end Journal

end Obsy
