import Obsy.Journal.Replay

/-!
# What a restart finds

A replay of a whole WAL gives the tables the writer had (`replayFrom_run_same`).

The writer frames one mark per sender in a batch.  While no batch mixes two signals of a
sender, the position of every stream is the furthest of that stream's own marks, in memory and
after a replay (`marks_exact_iff`).  A batch that does mix them moves one stream by the other's
mark and drops the other (`mixedBatch_inexact`).
-/

namespace Obsy

namespace Journal

open Bytes

namespace CollectMarks

theorem le_furthest (base : Position) (stream : Stream) (marks : List CollectMark) :
    base ≤ furthest base stream marks := (furthest_le.1 le_rfl).1

theorem pos_le_furthest {base : Position} {stream : Stream} {marks : List CollectMark}
    {mark : CollectMark} (hm : mark ∈ marks) (hs : mark.stream = stream) :
    mark.pos ≤ furthest base stream marks := (furthest_le.1 le_rfl).2 mark hm hs

/-- Exact marks move every stream as its own marks do. -/
theorem furthest_eq_of_exact {marks framed : List CollectMark} (h : BatchExact marks framed)
    (base : Position) (stream : Stream) :
    furthest base stream framed = furthest base stream marks := by
  have hmem : ∀ {one : CollectMark}, framed.filter (fun m => m.stream = stream) = [one] →
      ∀ m : CollectMark, m ∈ framed ∧ m.stream = stream ↔ m = one := by
    intro one hone m
    have hm : m ∈ framed.filter (fun m => m.stream = stream) ↔ m ∈ [one] := by rw [hone]
    simpa using hm
  by_cases hown : ∃ mark ∈ marks, mark.stream = stream
  · obtain ⟨one, hone, ⟨own, hownm, howns, hownp⟩, hbound⟩ := (h stream).1 hown
    apply le_antisymm
    · refine furthest_le.2 ⟨le_furthest _ _ _, fun m hm hs => ?_⟩
      rw [(hmem hone m).1 ⟨hm, hs⟩, ← hownp]
      exact pos_le_furthest hownm howns
    · refine furthest_le.2 ⟨le_furthest _ _ _, fun m hm hs => ?_⟩
      obtain ⟨honem, hones⟩ := (hmem hone one).2 rfl
      exact (hbound ⟨m, hm, hs, rfl⟩).trans (pos_le_furthest honem hones)
  · have hnone : ∀ mark ∈ marks, mark.stream ≠ stream := fun m hm hs => hown ⟨m, hm, hs⟩
    have hframed := (h stream).2 hnone
    have hmarks : marks.filter (fun m => m.stream = stream) = [] :=
      List.filter_eq_nil_iff.2 fun m hm => by simpa using hnone m hm
    rw [furthest, furthest, hframed, hmarks]

end CollectMarks

section Positions

variable {Entry Span Sample : Type} {C : Checksum} {codec : Codec Entry Span Sample}

/-- The marks that the appends of the written batches carry. -/
def ownMarks (bs : List (Batch Entry Span Sample)) : List CollectMark :=
  (writtenBatches bs).flatMap fun b => marksOf b.items

theorem furthest_groupMarks (bs : List (Batch Entry Span Sample))
    (h : ∀ b ∈ bs, OneSignal (marksOf b.items)) (base : Position) (stream : Stream) :
    CollectMarks.furthest base stream
        ((writtenBatches bs).flatMap fun b => groupMarks (marksOf b.items)) =
      CollectMarks.furthest base stream (ownMarks bs) := by
  have hall : ∀ b ∈ writtenBatches bs, OneSignal (marksOf b.items) :=
    fun b hb => h b (List.mem_of_mem_filter hb)
  rw [ownMarks]
  generalize writtenBatches bs = ws at hall
  induction ws generalizing base with
  | nil => rfl
  | cons b ws ih =>
    rw [List.flatMap_cons, List.flatMap_cons, CollectMarks.furthest_append,
      CollectMarks.furthest_append,
      CollectMarks.furthest_eq_of_exact (groupMarks_exact (hall b List.mem_cons_self)),
      ih _ fun x hx => hall x (List.mem_cons_of_mem _ hx)]

theorem marks_writtenRecords (bs : List (Batch Entry Span Sample)) :
    Written.marks (writtenRecords bs) =
      (writtenBatches bs).flatMap fun b => groupMarks (marksOf b.items) := by
  rw [writtenRecords]
  generalize writtenBatches bs = ws
  induction ws with
  | nil => rfl
  | cons b ws ih =>
    rw [List.flatMap_cons, List.flatMap_cons, Written.marks_append, Written.marks_written, ih]

theorem Replayed.tables_foldl_insert (now : ℕ) (ws : List (Written Entry Span Sample))
    (st : Replayed Entry Span Sample) : (ws.foldl (Replayed.insert now) st).tables =
      ws.foldl (Written.insert now) st.tables := by
  induction ws generalizing st with
  | nil => rfl
  | cons w ws ih => rw [List.foldl_cons, List.foldl_cons, ih]; rfl

theorem Writer.length_run_take_le {w : Writer Entry Span Sample}
    (hw : w.goodLen = w.file.length) (bs : List (Batch Entry Span Sample)) (n : ℕ) :
    (w.run C (bs.take n)).file.length ≤ (w.run C bs).file.length := by
  have hsplit : writtenBatches bs = writtenBatches (bs.take n) ++ writtenBatches (bs.drop n) := by
    rw [writtenBatches, writtenBatches, writtenBatches, ← List.filter_append,
      List.take_append_drop]
  rw [run_file hw, run_file hw, hsplit, List.flatMap_append, stream_append]
  simp only [List.length_append]
  omega

/-! ### The tables -/

/-- The same rows in the same order, and the same positions. -/
structure Tables.Same (a b : Tables Entry Span Sample) : Prop where
  memtable : a.memtable = b.memtable
  traceMemtable : a.traceMemtable = b.traceMemtable
  seriesMemtable : a.seriesMemtable = b.seriesMemtable
  position : ∀ stream, a.collectMarks.position stream = b.collectMarks.position stream

theorem Written.insert_same {now now' : ℕ} {a b : Tables Entry Span Sample} (h : a.Same b)
    (w : Written Entry Span Sample) : (w.insert now a).Same (w.insert now' b) := by
  cases w with
  | record item tenant owns =>
    exact ⟨by simp only [insert, Tables.insertItem, h.memtable],
      by simp only [insert, Tables.insertItem, h.traceMemtable],
      by simp only [insert, Tables.insertItem, h.seriesMemtable], h.position⟩
  | mark m =>
    refine ⟨h.memtable, h.traceMemtable, h.seriesMemtable, fun stream => ?_⟩
    simp only [insert, Tables.advance, CollectMarks.position_advance, h.position]

theorem Written.foldl_insert_same {now now' : ℕ} (ws : List (Written Entry Span Sample))
    {a b : Tables Entry Span Sample} (h : a.Same b) :
    (ws.foldl (Written.insert now) a).Same (ws.foldl (Written.insert now') b) := by
  induction ws generalizing a b with
  | nil => exact h
  | cons w ws ih => exact ih (insert_same h w)

/-- The writer's tables hold what its records hold. -/
theorem Writer.run_same {w : Writer Entry Span Sample} (hw : w.goodLen = w.file.length)
    {bs : List (Batch Entry Span Sample)} (hlive : ∀ b ∈ bs, ∀ item ∈ b.items, Live codec item)
    (now : ℕ) {tables : Tables Entry Span Sample} (h : w.tables.Same tables) :
    (w.run C bs).tables.Same ((writtenRecords bs).foldl (Written.insert now) tables) := by
  have hall : ∀ b ∈ writtenBatches bs, b.outcome = .written ∧ ∀ item ∈ b.items, item.Tidy :=
    fun b hb => ⟨by simpa using (List.mem_filter.1 hb).2,
      fun item hi => (hlive b (List.mem_of_mem_filter hb) item hi).tidy⟩
  rw [run_eq_written hw, writtenRecords]
  generalize writtenBatches bs = ws at hall
  clear hw
  induction ws generalizing w tables with
  | nil => exact h
  | cons b ws ih =>
    obtain ⟨hwritten, htidy⟩ := hall b List.mem_cons_self
    rw [List.flatMap_cons, List.foldl_append]
    refine ih (w := w.writeBatch C b) ?_ fun x hx => hall x (List.mem_cons_of_mem _ hx)
    rw [tables_writeBatch hwritten htidy]
    exact Written.foldl_insert_same _ h

/-- **A restart puts back what the writer held.**  Replaying the whole WAL of a run into tables
like those the writer began with gives tables like the writer's. -/
theorem replayFrom_run_same {bs : List (Batch Entry Span Sample)}
    (hlive : ∀ b ∈ bs, ∀ item ∈ b.items, Live codec item) (tables : Tables Entry Span Sample)
    (hmax : ((Writer.opened [] tables).run C bs).file.length < maxFileBytes) (now : ℕ)
    {st : Replayed Entry Span Sample} (h : tables.Same st.tables) :
    ∃ replayEnd st', replayFrom C codec now (some ((Writer.opened [] tables).run C bs).file) 0
        st = .ok (replayEnd, st') ∧ ((Writer.opened [] tables).run C bs).tables.Same st'.tables := by
  have hfile : ((Writer.opened [] tables).run C bs).file =
      stream (Written.frame C) ([] ++ writtenRecords bs) ++ [] := by
    rw [Writer.opened_run_file, List.append_nil, List.nil_append, List.nil_append]
  have hreplay := replayFrom_stream (C := C) now []
    (fun x hx => live_of_mem_writtenRecords hlive hx) (.inl rfl) (hfile ▸ hmax) st
  refine ⟨_, _, (congrArg (fun file => replayFrom C codec now (some file) 0 st) hfile).trans
    hreplay, ?_⟩
  rw [Replayed.tables_foldl_insert]
  exact Writer.run_same rfl hlive now h

/-- The sample batch is put back. -/
theorem replayFrom_run_same_sample : ∃ replayEnd st',
    replayFrom crc32 sampleCodec 9 (some ((Writer.opened [] Tables.empty).run crc32
        [sampleBatch]).file) 0 ⟨Tables.empty, 0, 0⟩ = .ok (replayEnd, st') ∧
      ((Writer.opened [] Tables.empty).run crc32 [sampleBatch]).tables.Same st'.tables :=
  replayFrom_run_same sampleBatch_live Tables.empty (by decide +kernel) 9
    ⟨rfl, rfl, rfl, fun _ => rfl⟩

/-! ### The positions -/

/-- The positions that memory holds after the first `n` batches, and that replaying the WAL
from where the run began gives, are those of each stream's own marks. -/
def PositionsExact (C : Checksum) (codec : Codec Entry Span Sample)
    (w : Writer Entry Span Sample) (bs : List (Batch Entry Span Sample)) : Prop :=
  ∀ (n : ℕ) (stream : Stream),
    (w.run C (bs.take n)).tables.collectMarks.position stream =
        CollectMarks.furthest (w.tables.collectMarks.position stream) stream
          (ownMarks (bs.take n)) ∧
      ∀ (now : ℕ) (st : Replayed Entry Span Sample), ∃ replayEnd st',
        replayFrom C codec now (some (w.run C (bs.take n)).file) w.file.length st =
            .ok (replayEnd, st') ∧
          st'.tables.collectMarks.position stream =
            CollectMarks.furthest (st.tables.collectMarks.position stream) stream
              (ownMarks (bs.take n))

theorem positionsExact {w : Writer Entry Span Sample} (hw : w.goodLen = w.file.length)
    {pre : List (Written Entry Span Sample)} (hfile : w.file = stream (Written.frame C) pre)
    {bs : List (Batch Entry Span Sample)}
    (hlive : ∀ b ∈ bs, ∀ item ∈ b.items, Live codec item)
    (hmax : (w.run C bs).file.length < maxFileBytes)
    (h : ∀ b ∈ bs, OneSignal (marksOf b.items)) : PositionsExact C codec w bs := by
  intro n stream
  have htake : ∀ b ∈ bs.take n, b ∈ bs := fun b hb => List.mem_of_mem_take hb
  have hone := furthest_groupMarks (bs.take n) fun b hb => h b (htake b hb)
  refine ⟨?_, fun now st => ?_⟩
  · rw [Writer.position_run hw, hone]
  · have hrun : (w.run C (bs.take n)).file =
        Bytes.stream (Written.frame C) (pre ++ writtenRecords (bs.take n)) ++ [] := by
      rw [Writer.run_file hw, hfile, stream_append, List.append_nil]
      rfl
    have hshort := lt_of_le_of_lt (Writer.length_run_take_le (C := C) hw bs n) hmax
    have hwritten : ∀ x ∈ writtenRecords (bs.take n), x.Live codec :=
      fun x hx => live_of_mem_writtenRecords (fun b hb => hlive b (htake b hb)) hx
    have hreplay := replayFrom_stream (C := C) now pre hwritten (.inl rfl) (hrun ▸ hshort) st
    rw [hrun, hfile]
    refine ⟨_, _, hreplay, ?_⟩
    rw [Replayed.tables_foldl_insert, Written.position_foldl_insert, marks_writtenRecords, hone]

/-- **When marks stay with their streams.**  In every run of batches, written or failed, each
batch frames exactly one mark for each of its streams, at the furthest of that stream's marks,
and every position in memory and after a replay is that of the stream's own marks, exactly when
no batch has marks of two signals of one sender. -/
theorem marks_exact_iff (codec : Codec Entry Span Sample) {w : Writer Entry Span Sample}
    (hw : w.goodLen = w.file.length) (pre : List (Written Entry Span Sample))
    (hfile : w.file = stream (Written.frame C) pre)
    (bs : List (Batch Entry Span Sample))
    (hlive : ∀ b ∈ bs, ∀ item ∈ b.items, Live codec item)
    (hmax : (w.run C bs).file.length < maxFileBytes) :
    (∀ b ∈ bs, BatchExact (marksOf b.items) (groupMarks (marksOf b.items))) ∧
        PositionsExact C codec w bs ↔
      ∀ b ∈ bs, OneSignal (marksOf b.items) :=
  ⟨fun h b hb => oneSignal_of_exact (h.1 b hb),
    fun h => ⟨fun b hb => groupMarks_exact (h b hb), positionsExact hw hfile hlive hmax h⟩⟩

end Positions

/-- The sample batch frames its one mark, and a replay finds it. -/
theorem marks_exact_iff_sample :
    BatchExact (marksOf sampleBatch.items) (groupMarks (marksOf sampleBatch.items)) ∧
      PositionsExact crc32 sampleCodec (Writer.opened [] Tables.empty) [sampleBatch] := by
  have h := (marks_exact_iff (C := crc32) sampleCodec (w := Writer.opened [] Tables.empty) rfl []
    rfl [sampleBatch] sampleBatch_live (by decide +kernel)).2 (by decide)
  exact ⟨h.1 sampleBatch List.mem_cons_self, h.2⟩

/-- A batch that carries a mark of the logs and a mark of the traces of one sender. -/
def mixedBatch : Batch (ℕ × String) Unit Unit :=
  ⟨[sampleItem ⟨sampleSender, .logs, ⟨1, 5⟩⟩, sampleItem ⟨sampleSender, .traces, ⟨3, 0⟩⟩], 0,
    .written⟩

/-- **Two signals in one batch.**  The writer frames one mark for the sender, under the signal
of its first: the logs move to the traces' position, though their own mark is behind it, and the
traces do not move. -/
theorem mixedBatch_inexact :
    (∀ item ∈ mixedBatch.items, Live sampleCodec item) ∧
      ¬ BatchExact (marksOf mixedBatch.items) (groupMarks (marksOf mixedBatch.items)) ∧
      (((Writer.opened [] Tables.empty).run crc32 [mixedBatch]).tables.collectMarks.position
        (sampleSender, .logs) = ⟨3, 0⟩) ∧
      (((Writer.opened [] Tables.empty).run crc32 [mixedBatch]).tables.collectMarks.position
        (sampleSender, .traces) = Position.start) := by
  refine ⟨?_, ?_, by decide +kernel, by decide +kernel⟩
  · intro item hitem
    simp only [mixedBatch, List.mem_cons, List.not_mem_nil, or_false] at hitem
    rcases hitem with rfl | rfl <;> exact sampleItem_live _
  · rw [groupMarks_exact_iff]
    decide

end Journal

end Obsy
