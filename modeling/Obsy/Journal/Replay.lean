import Obsy.Journal.Writer

/-!
# Replaying the WAL

After a restart the records from the checkpoint on are put back into the tables.  The last
record may be torn: replay stops there, and startup cuts the file at the offset it returns.

* `replayFrom`: the reader's chain of checks over the bytes of the file.
* `replayLoop_stream`: whole records followed by a torn one replay to the whole records.
* `replayFrom_run_cut`: a WAL that a writer wrote, cut anywhere after the checkpoint, replays to
  the records before the cut, and goes on from there.
-/

namespace Obsy

namespace Journal

open Bytes

section Replay

variable {Entry Span Sample : Type}

/-- What a replay has put back so far. -/
structure Replayed (Entry Span Sample : Type) where
  tables : Tables Entry Span Sample
  records : ℕ
  /-- How many log rows were replayed. -/
  entries : ℕ

/-- Why replay refuses a WAL. -/
inductive ReplayError
  /-- A checkpoint exists and the WAL is missing. -/
  | walMissing (checkpoint : ℕ)
  | beyondWal (checkpoint fileLen : ℕ)
  | lengthOverflow (offset : ℕ)
  /-- The record is longer than the maximum. -/
  | tooLarge (offset len : ℕ)
  /-- The checksum does not match, before the end of the file. -/
  | crcMismatch (offset : ℕ)
  /-- The tenant frame is invalid. -/
  | invalid (offset : ℕ) (error : TenantRecordError)
  | lokiPush (offset : ℕ)
  | payload (offset : ℕ) (error : String)
  /-- The export does not decode or normalize. -/
  | export (offset : ℕ) (error : String)
  /-- A kind nothing writes. -/
  | unsupportedKind (offset : ℕ) (kind : UInt8)
  /-- Neither a mark nor a tenant record. -/
  | noTenantFrame (offset : ℕ)

variable (C : Checksum) (codec : Codec Entry Span Sample) (now : ℕ)

/-- `replay_otlp_log_record`. -/
def replayOtlpLogRecord (tenant : TenantId) (payload : List UInt8) (offset : ℕ)
    (st : Replayed Entry Span Sample) : Except ReplayError (Replayed Entry Span Sample) :=
  match codec.normalizeLogs payload with
  | .error error => .error (.export offset error)
  | .ok none => .ok st
  | .ok (some entries) => .ok
    { st with
      tables := { st.tables with
        memtable := st.tables.memtable ++ entries.map (tenant, ·) }
      entries := st.entries + entries.length }

/-- `replay_trace_record`. -/
def replayTraceRecord (tenant : TenantId) (payload : List UInt8) (offset : ℕ)
    (st : Replayed Entry Span Sample) : Except ReplayError (Replayed Entry Span Sample) :=
  match codec.normalizeTraces tenant payload with
  | .error error => .error (.export offset error)
  | .ok spans => .ok
    { st with tables := { st.tables with traceMemtable := st.tables.traceMemtable ++ spans } }

/-- `replay_otlp_metric_record`. -/
def replayOtlpMetricRecord (tenant : TenantId) (payload : List UInt8) (offset : ℕ)
    (st : Replayed Entry Span Sample) : Except ReplayError (Replayed Entry Span Sample) :=
  match codec.normalizeMetrics tenant payload with
  | .error error => .error (.export offset error)
  | .ok none => .ok st
  | .ok (some samples) => .ok
    { st with tables := { st.tables with
        seriesMemtable := st.tables.seriesMemtable ++ samples } }

/-- Decompress a payload and hand it to the reader of its kind. -/
def replayPayload (payload : List UInt8) (offset : ℕ)
    (replay : List UInt8 → Except ReplayError (Replayed Entry Span Sample)) :
    Except ReplayError (Replayed Entry Span Sample) :=
  match decompressPayload codec payload with
  | .error error => .error (.payload offset error)
  | .ok data => replay data

/-- What one whole record does: a mark advances, a tenant record is read by its kind. -/
def replayRecord (data : List UInt8) (offset : ℕ) (st : Replayed Entry Span Sample) :
    Except ReplayError (Replayed Entry Span Sample) :=
  match decodeMark data with
  | some mark => .ok { st with tables := st.tables.advance now mark }
  | none =>
    match decodeTenantRecord data with
    | .error error => .error (.invalid offset error)
    | .ok none => .error (.noTenantFrame offset)
    | .ok (some (tenant, kind, payload)) =>
      if kind = tenantRecordKindLogs then .error (.lokiPush offset)
      else if kind = tenantRecordKindTraces then
        replayPayload codec payload offset fun data =>
          replayTraceRecord codec tenant data offset st
      else if kind = tenantRecordKindOtlpLogs then
        replayPayload codec payload offset fun data =>
          replayOtlpLogRecord codec tenant data offset st
      else if kind = tenantRecordKindOtlpMetrics then
        replayPayload codec payload offset fun data =>
          replayOtlpMetricRecord codec tenant data offset st
      else .error (.unsupportedKind offset kind)

/-- The reader's loop over the bytes that are left. -/
def replayLoop (fileLen offset : ℕ) (rest : List UInt8) (st : Replayed Entry Span Sample) :
    Except ReplayError (ℕ × Replayed Entry Span Sample) :=
  if rest.length < recordHeaderSize then .ok (offset, st)
  else
    let len := leNat (rest.take 4)
    let expectedCrc := leNat (slice rest 4 4)
    let recordEnd := offset + recordHeaderSize + len
    if 2 ^ 64 ≤ recordEnd then .error (.lengthOverflow offset)
    else if fileLen < recordEnd then .ok (offset, st)
    else if maxRecordBytes < len then .error (.tooLarge offset len)
    else
      let data := slice rest recordHeaderSize len
      if data.length < len then .ok (offset, st)
      else if (C.hash data).toNat ≠ expectedCrc then
        if recordEnd = fileLen then .ok (offset, st) else .error (.crcMismatch offset)
      else
        match replayRecord codec now data offset st with
        | .error error => .error error
        | .ok st' => replayLoop fileLen recordEnd (rest.drop (recordHeaderSize + len))
            { st' with records := st'.records + 1 }
termination_by rest.length
decreasing_by
  simp only [recordHeaderSize, List.length_drop] at *
  omega

/-- Replay the WAL from the checkpoint: the offset of the end of the last record and what was
put back. -/
def replayFrom (wal : Option (List UInt8)) (checkpoint : ℕ) (st : Replayed Entry Span Sample) :
    Except ReplayError (ℕ × Replayed Entry Span Sample) :=
  match wal with
  | none => if checkpoint = 0 then .ok (0, st) else .error (.walMissing checkpoint)
  | some bytes =>
    if bytes.length < checkpoint then .error (.beyondWal checkpoint bytes.length)
    else if checkpoint = bytes.length then .ok (checkpoint, st)
    else replayLoop C codec now bytes.length checkpoint (bytes.drop checkpoint) st

/-- Startup cuts the file at the offset replay returned. -/
def truncateTail (wal : List UInt8) (replayEnd : ℕ) : List UInt8 :=
  if replayEnd < wal.length then wal.take replayEnd else wal

/-! ### Live records -/

/-- A record that a live append or a mark left. -/
def Written.Live : Written Entry Span Sample → Prop
  | record item _ _ => Journal.Live codec item
  | mark _ => True

/-- A record's effect on a replay. -/
def Replayed.insert (st : Replayed Entry Span Sample) (w : Written Entry Span Sample) :
    Replayed Entry Span Sample :=
  { tables := w.insert now st.tables
    records := st.records + 1
    entries := st.entries + match w with
      | .record item _ _ => item.entries.length
      | .mark _ => 0 }

variable {C codec now}

theorem Live.tidy {item : AppendItem Entry Span Sample} (h : Live codec item) : item.Tidy := by
  intro hnone
  cases h with
  | logs hdata hrows henqueue =>
    obtain ⟨-, htenant, -⟩ := enqueueExport_eq_ok hdata henqueue
    rw [hnone] at htenant; cases htenant
  | traces hdata hrows henqueue =>
    obtain ⟨-, htenant, -⟩ := enqueueExport_eq_ok hdata henqueue
    rw [hnone] at htenant; cases htenant
  | metrics hdata hrows henqueue =>
    obtain ⟨-, htenant, -⟩ := enqueueExport_eq_ok hdata henqueue
    rw [hnone] at htenant; cases htenant
  | mark henqueue =>
    obtain ⟨-, -, -, -, htraces, hsamples, -⟩ := enqueueAppend_eq_ok henqueue
    exact ⟨htraces, hsamples⟩

/-- Every record of a batch of live appends is live. -/
theorem live_of_mem_written {items : List (AppendItem Entry Span Sample)}
    (h : ∀ item ∈ items, Live codec item) {w : Written Entry Span Sample}
    (hw : w ∈ written items) : w.Live codec := by
  rcases List.mem_append.1 hw with hw | hw
  · obtain ⟨item, hitem, heq⟩ := List.mem_filterMap.1 hw
    unfold AppendItem.written at heq
    split at heq
    · cases heq; exact h item hitem
    · cases heq
  · obtain ⟨m, -, rfl⟩ := List.mem_map.1 hw
    trivial

/-- **One record back.**  Replaying the bytes of a live record has the effect the writer's
insertion had. -/
theorem replayRecord_data (now : ℕ) {w : Written Entry Span Sample} (h : w.Live codec) (offset : ℕ)
    (st : Replayed Entry Span Sample) :
    replayRecord codec now w.data offset st =
      .ok { st.insert now w with records := st.records } := by
  cases w with
  | mark m => simp only [replayRecord, Written.data, decodeMark_frameMark, Replayed.insert,
      Written.insert, Nat.add_zero]
  | record item tenant owns =>
    simp only [replayRecord, Written.data, decodeMark_tenantRecordData,
      decodeTenantRecord_tenantRecordData]
    cases h with
    | @logs owner data entries mark _ hdata hrows henqueue =>
      obtain ⟨hkind, htenant, hentries, htraces, hsamples, hpayload⟩ :=
        enqueueExport_eq_ok hdata henqueue
      cases owns.symm.trans htenant
      rw [hkind, if_neg (by decide), if_neg (by decide), if_pos rfl, replayPayload, hpayload]
      simp only [replayOtlpLogRecord, hrows, Replayed.insert, Written.insert, Tables.insertItem,
        owns, hentries, htraces, hsamples, List.append_nil]
    | @traces owner data spans mark _ hdata hrows henqueue =>
      obtain ⟨hkind, htenant, hentries, htraces, hsamples, hpayload⟩ :=
        enqueueExport_eq_ok hdata henqueue
      cases owns.symm.trans htenant
      rw [hkind, if_neg (by decide), if_pos rfl, replayPayload, hpayload]
      simp only [replayTraceRecord, hrows, Replayed.insert, Written.insert, Tables.insertItem,
        owns, hentries, htraces, hsamples, List.append_nil, List.map_nil, List.length_nil,
        Nat.add_zero]
    | @metrics owner data samples mark _ hdata hrows henqueue =>
      obtain ⟨hkind, htenant, hentries, htraces, hsamples, hpayload⟩ :=
        enqueueExport_eq_ok hdata henqueue
      cases owns.symm.trans htenant
      rw [hkind, if_neg (by decide), if_neg (by decide), if_neg (by decide), if_pos rfl,
        replayPayload, hpayload]
      simp only [replayOtlpMetricRecord, hrows, Replayed.insert, Written.insert,
        Tables.insertItem, owns, hentries, htraces, hsamples, List.append_nil, List.map_nil,
        List.length_nil, Nat.add_zero]
    | mark henqueue =>
      obtain ⟨-, -, htenant, -⟩ := enqueueAppend_eq_ok henqueue
      rw [owns] at htenant; cases htenant

/-! ### The loop -/

/-- A file stays below the largest offset a file can have. -/
def maxFileBytes : ℕ := 2 ^ 63

/-- The loop reads a whole record and goes on behind it. -/
theorem replayLoop_record {w : Written Entry Span Sample} (h : w.Live codec)
    {fileLen offset : ℕ} {rest : List UInt8}
    (hlen : fileLen = offset + (w.frame C ++ rest).length) (hmax : fileLen < maxFileBytes)
    (st : Replayed Entry Span Sample) :
    replayLoop C codec now fileLen offset (w.frame C ++ rest) st =
      replayLoop C codec now fileLen (offset + (w.frame C).length) rest (st.insert now w) := by
  have hrecord := replayRecord_data now h offset st
  have hframe := w.frame_eq (C := C)
  have hdata := w.length_data_le
  have hflen := w.length_frame (C := C)
  simp only [List.length_append, hflen] at hlen
  have hnot : ¬ (w.frame C ++ rest).length < recordHeaderSize := by
    rw [List.length_append, hflen]; omega
  have hnat : leNat ((w.frame C ++ rest).take 4) = w.data.length := by
    rw [hframe]; exact frameRecord_len hdata
  have hcrc : leNat (slice (w.frame C ++ rest) 4 4) = (C.hash w.data).toNat := by
    rw [hframe]; exact frameRecord_crc _ _
  have hslice : slice (w.frame C ++ rest) recordHeaderSize w.data.length = w.data := by
    rw [hframe]; exact frameRecord_data _ _
  have hdrop : (w.frame C ++ rest).drop (recordHeaderSize + w.data.length) = rest :=
    List.drop_left' hflen
  have hoverflow : ¬ 2 ^ 64 ≤ offset + recordHeaderSize + w.data.length := by
    simp only [maxFileBytes] at hmax; omega
  have hend : ¬ fileLen < offset + recordHeaderSize + w.data.length := by omega
  rw [hflen, ← Nat.add_assoc, replayLoop, if_neg hnot]
  simp only [hnat, hcrc, hslice, hdrop, if_neg hoverflow, if_neg hend,
    if_neg (Nat.not_lt.2 hdata), lt_irrefl, if_false, ne_eq, not_true_eq_false, hrecord]
  rfl

/-- The loop stops at a record that is not all there. -/
theorem replayLoop_torn {w : Written Entry Span Sample} {fileLen offset : ℕ}
    {torn : List UInt8} (hpre : torn <+: w.frame C) (hshort : torn.length < (w.frame C).length)
    (hlen : fileLen = offset + torn.length) (hmax : fileLen < maxFileBytes)
    (st : Replayed Entry Span Sample) :
    replayLoop C codec now fileLen offset torn st = .ok (offset, st) := by
  rw [replayLoop]
  by_cases hheader : torn.length < recordHeaderSize
  · rw [if_pos hheader]
  · have hdata := w.length_data_le
    have hnat : leNat (torn.take 4) = w.data.length := by
      obtain ⟨tail, htail⟩ := hpre
      have htake : torn.take 4 = (w.frame C ++ []).take 4 := by
        rw [List.append_nil, ← htail, List.take_append_of_le_length]
        simp only [recordHeaderSize] at hheader
        omega
      rw [htake, w.frame_eq]
      exact frameRecord_len hdata
    rw [Written.length_frame] at hshort
    have hoverflow : ¬ 2 ^ 64 ≤ offset + recordHeaderSize + w.data.length := by
      simp only [maxFileBytes, maxRecordBytes, recordHeaderSize] at hmax hdata ⊢
      omega
    have hend : fileLen < offset + recordHeaderSize + w.data.length := by omega
    rw [if_neg hheader]
    simp only [hnat, if_neg hoverflow, if_pos hend]

/-- What a torn write leaves behind the whole records. -/
def Torn (Entry Span Sample : Type) (C : Checksum) (torn : List UInt8) : Prop :=
  torn = [] ∨ ∃ w : Written Entry Span Sample,
    torn <+: w.frame C ∧ torn.length < (w.frame C).length

/-- **Whole records and then a torn one** replay to the whole records. -/
theorem replayLoop_stream {ws : List (Written Entry Span Sample)}
    (hlive : ∀ w ∈ ws, w.Live codec) {torn : List UInt8}
    (htorn : Torn Entry Span Sample C torn)
    {fileLen offset : ℕ} (hlen : fileLen = offset + (stream (Written.frame C) ws ++ torn).length)
    (hmax : fileLen < maxFileBytes) (st : Replayed Entry Span Sample) :
    replayLoop C codec now fileLen offset (stream (Written.frame C) ws ++ torn) st =
      .ok (offset + (stream (Written.frame C) ws).length,
        ws.foldl (Replayed.insert now) st) := by
  induction ws generalizing offset st with
  | nil =>
    simp only [stream_nil, List.nil_append] at hlen ⊢
    rcases htorn with rfl | ⟨w, hpre, hshort⟩
    · rw [replayLoop, if_pos (by simp [recordHeaderSize])]
      rfl
    · exact replayLoop_torn hpre hshort hlen hmax st
  | cons w ws ih =>
    rw [stream_cons, List.append_assoc] at hlen ⊢
    rw [replayLoop_record (hlive w List.mem_cons_self) hlen hmax,
      ih (fun x hx => hlive x (List.mem_cons_of_mem _ hx))
        (by rw [hlen, List.length_append]; omega)]
    rw [List.length_append, List.foldl_cons, Nat.add_assoc]

/-- Replay of a file that holds whole records, of which `pre` are behind the checkpoint, and
then a torn one. -/
theorem replayFrom_stream (now : ℕ) (pre : List (Written Entry Span Sample))
    {ws : List (Written Entry Span Sample)} (hlive : ∀ w ∈ ws, w.Live codec) {torn : List UInt8}
    (htorn : Torn Entry Span Sample C torn)
    (hmax : (stream (Written.frame C) (pre ++ ws) ++ torn).length < maxFileBytes)
    (st : Replayed Entry Span Sample) :
    replayFrom C codec now (some (stream (Written.frame C) (pre ++ ws) ++ torn))
        (stream (Written.frame C) pre).length st =
      .ok ((stream (Written.frame C) (pre ++ ws)).length, ws.foldl (Replayed.insert now) st) := by
  have hsplit : stream (Written.frame C) (pre ++ ws) ++ torn =
      stream (Written.frame C) pre ++ (stream (Written.frame C) ws ++ torn) := by
    rw [stream_append, List.append_assoc]
  have hloop : replayLoop C codec now (stream (Written.frame C) (pre ++ ws) ++ torn).length
      (stream (Written.frame C) pre).length (stream (Written.frame C) ws ++ torn) st =
        .ok ((stream (Written.frame C) pre).length + (stream (Written.frame C) ws).length,
          ws.foldl (Replayed.insert now) st) :=
    replayLoop_stream hlive htorn (by rw [hsplit, List.length_append]) hmax st
  have hle : ¬ (stream (Written.frame C) (pre ++ ws) ++ torn).length <
      (stream (Written.frame C) pre).length := by
    rw [hsplit, List.length_append]; omega
  rw [replayFrom]
  simp only [if_neg hle]
  rw [hsplit, List.drop_left' rfl, ← hsplit, hloop, stream_append, List.length_append]
  split_ifs with heq
  · have hnil : ws = [] := by
      simp only [List.length_append] at heq
      cases ws with
      | nil => rfl
      | cons w ws =>
        have := List.length_pos_of_ne_nil (w.frame_ne_nil (C := C))
        rw [stream_cons, List.length_append] at heq
        omega
    subst hnil
    simp
  · rw [List.length_append]

/-! ### A writer's WAL -/

/-- The records a run of batches leaves in the WAL. -/
def writtenRecords (bs : List (Batch Entry Span Sample)) : List (Written Entry Span Sample) :=
  (writtenBatches bs).flatMap fun b => written b.items

/-- The writer that takes over a file. -/
def Writer.opened (file : List UInt8) (tables : Tables Entry Span Sample) :
    Writer Entry Span Sample := ⟨file, file.length, tables⟩

theorem live_of_mem_writtenRecords {bs : List (Batch Entry Span Sample)}
    (h : ∀ b ∈ bs, ∀ item ∈ b.items, Live codec item) {w : Written Entry Span Sample}
    (hw : w ∈ writtenRecords bs) : w.Live codec := by
  obtain ⟨b, hb, hw⟩ := List.mem_flatMap.1 hw
  exact live_of_mem_written (h b (List.mem_of_mem_filter hb)) hw

theorem Writer.opened_run_file (file : List UInt8) (tables : Tables Entry Span Sample)
    (bs : List (Batch Entry Span Sample)) : ((opened file tables).run C bs).file =
      file ++ stream (Written.frame C) (writtenRecords bs) :=
  run_file rfl bs

/-- The records of a WAL that a cut keeps behind a checkpoint. -/
theorem stream_take_split (ws : List (Written Entry Span Sample)) (k cut : ℕ)
    (hcut : (stream (Written.frame C) (ws.take k)).length ≤ cut) :
    ∃ torn, Torn Entry Span Sample C torn ∧
      (stream (Written.frame C) ws).take cut = stream (Written.frame C)
        (ws.take k ++ between (Written.frame C)
          (stream (Written.frame C) (ws.take k)).length cut 0 ws) ++ torn := by
  set pre := ws.take k with hpre
  have hws : pre ++ ws.drop k = ws := List.take_append_drop k ws
  obtain ⟨torn, htake, htorn⟩ := stream_take (Written.frame C)
    (cut - (stream (Written.frame C) pre).length) (ws.drop k)
  refine ⟨torn, ?_, ?_⟩
  · rcases htorn with rfl | ⟨w, -, hw⟩
    · exact .inl rfl
    · exact .inr ⟨w, hw⟩
  · have hbetween := between_eq Written.frame_ne_nil pre (ws.drop k) hcut
    rw [hws] at hbetween
    rw [hbetween]
    conv_lhs => rw [← hws]
    rw [stream_append, List.take_append, List.take_of_length_le hcut, htake, stream_append,
      List.append_assoc]

theorem truncateTail_append (xs torn : List UInt8) : truncateTail (xs ++ torn) xs.length = xs := by
  rw [truncateTail]
  split_ifs with h
  · exact List.take_left' rfl
  · have hnil : torn = [] := by
      rw [List.length_append] at h
      exact List.eq_nil_of_length_eq_zero (by omega)
    rw [hnil, List.append_nil]

/-- **Crash and recovery of the WAL.**  Batches of live appends were written, each successfully
or not, and the file was cut anywhere at or after a checkpoint that is a record boundary.
Replay puts back the records between the checkpoint and the cut, in the order they were written,
and returns the end of the last one; a writer that goes on from there leaves a WAL that replays
to these records and then its own. -/
theorem replayFrom_run_cut (now : ℕ) (bs : List (Batch Entry Span Sample))
    (hlive : ∀ b ∈ bs, ∀ item ∈ b.items, Live codec item) (tables : Tables Entry Span Sample)
    (k cut : ℕ) (hcut : (stream (Written.frame C) ((writtenRecords bs).take k)).length ≤ cut)
    (hmax : ((Writer.opened [] tables).run C bs).file.length < maxFileBytes)
    (st : Replayed Entry Span Sample) :
    let wal := ((Writer.opened [] tables).run C bs).file
    let checkpoint := (stream (Written.frame C) ((writtenRecords bs).take k)).length
    let survivors := between (Written.frame C) checkpoint cut 0 (writtenRecords bs)
    let replayEnd := checkpoint + (stream (Written.frame C) survivors).length
    replayFrom C codec now (some (wal.take cut)) checkpoint st =
        .ok (replayEnd, survivors.foldl (Replayed.insert now) st) ∧
      wal.take replayEnd =
        stream (Written.frame C) ((writtenRecords bs).take k ++ survivors) ∧
      ∀ (more : List (Batch Entry Span Sample)) (tables' : Tables Entry Span Sample),
        (∀ b ∈ more, ∀ item ∈ b.items, Live codec item) →
        let wal' := ((Writer.opened (truncateTail (wal.take cut) replayEnd) tables').run C
          more).file
        wal'.length < maxFileBytes → ∀ (now' : ℕ) (st' : Replayed Entry Span Sample),
          replayFrom C codec now' (some wal') checkpoint st' =
            .ok (wal'.length,
              (survivors ++ writtenRecords more).foldl (Replayed.insert now') st') := by
  intro wal checkpoint survivors replayEnd
  obtain ⟨torn, htorn, htake⟩ := stream_take_split (C := C) (writtenRecords bs) k cut hcut
  have hwal : wal = stream (Written.frame C) (writtenRecords bs) := by
    have := Writer.opened_run_file (C := C) [] tables bs
    rwa [List.nil_append] at this
  rw [← hwal] at htake
  change wal.take cut = stream (Written.frame C) (_ ++ survivors) ++ torn at htake
  have hend : (stream (Written.frame C) ((writtenRecords bs).take k ++ survivors)).length =
      replayEnd := by
    rw [stream_append, List.length_append]
  have hsurvive : ∀ w ∈ survivors, w.Live codec := by
    intro w hw
    have hsub : survivors <+: (writtenRecords bs).drop k := by
      have hws := List.take_append_drop k (writtenRecords bs)
      have := between_eq Written.frame_ne_nil ((writtenRecords bs).take k)
        ((writtenRecords bs).drop k) hcut
      rw [hws] at this
      change survivors = _ at this
      rw [this]
      exact wholePrefix_prefix _ _
    exact live_of_mem_writtenRecords hlive (List.mem_of_mem_drop (hsub.subset hw))
  have htakeEnd : truncateTail (wal.take cut) replayEnd =
      stream (Written.frame C) ((writtenRecords bs).take k ++ survivors) := by
    rw [htake, ← hend, truncateTail_append]
  refine ⟨?_, ?_, ?_⟩
  · rw [htake, replayFrom_stream now _ hsurvive htorn _ st, hend]
    rw [← htake, List.length_take]
    exact lt_of_le_of_lt (min_le_right _ _) hmax
  · have hle : replayEnd ≤ (wal.take cut).length := by
      rw [htake, List.length_append, hend]; omega
    have : wal.take replayEnd = (wal.take cut).take replayEnd := by
      rw [List.take_take, min_eq_left]
      rw [List.length_take] at hle
      omega
    rw [this, htake, List.take_left' hend]
  · intro more tables' hmore wal' hmax' now' st'
    have hwal' : wal' = stream (Written.frame C)
        ((writtenRecords bs).take k ++ (survivors ++ writtenRecords more)) ++ [] := by
      change ((Writer.opened (truncateTail (wal.take cut) replayEnd) tables').run C more).file = _
      rw [Writer.opened_run_file, htakeEnd, ← stream_append, List.append_assoc, List.append_nil]
    have hlive' : ∀ w ∈ survivors ++ writtenRecords more, w.Live codec := by
      intro w hw
      rcases List.mem_append.1 hw with hw | hw
      · exact hsurvive w hw
      · exact live_of_mem_writtenRecords hmore hw
    have hreplay := replayFrom_stream (C := C) now' ((writtenRecords bs).take k) hlive'
      (.inl rfl) (hwal' ▸ hmax') st'
    rw [hwal', hreplay, List.append_nil]

end Replay

/-! ### A sample WAL -/

def sampleTenant : TenantId := ⟨"acme", by decide, by decide, by decide⟩

/-- One zstd frame with one raw block, which is what a few bytes compress to. -/
def rawBlock (data : List UInt8) : List UInt8 :=
  [0x28, 0xB5, 0x2F, 0xFD, 0x00, 0x48] ++ (leBytes 3 (data.length * 8 + 1) ++ data)

/-- An encoded log export: one resource, one scope, one record with every field unset. -/
def sampleExport : List UInt8 := [10, 4, 18, 2, 18, 0]

/-- Raw blocks, and the sample export as its one row. -/
def sampleCodec : Codec (ℕ × String) Unit Unit where
  zstdEncode data :=
    if data.length < 2 ^ 17 then .ok (rawBlock data) else .error "not a raw block"
  zstdDecode payload := .ok (payload.drop 9)
  zstdDecode_zstdEncode data payload h := by
    split_ifs at h
    cases h
    rw [rawBlock, ← List.append_assoc, List.drop_left' (by simp)]
  normalizeLogs data :=
    if data = sampleExport then .ok (some [(0, "")]) else .error "invalid"
  normalizeTraces _ _ := .error "invalid"
  normalizeMetrics _ _ := .error "invalid"

/-- The sample export as an append that carries a mark. -/
def sampleItem (mark : CollectMark) : AppendItem (ℕ × String) Unit Unit where
  kind := tenantRecordKindOtlpLogs
  payload := rawBlock sampleExport
  tenant := some sampleTenant
  entries := [(0, "")]
  traces := []
  metricSamples := []
  mark := some mark
  fits := by
    intro owner h
    cases h
    decide +kernel

theorem sampleItem_live (mark : CollectMark) : Live sampleCodec (sampleItem mark) := by
  have hdata : sampleExport.length ≤ maxRecordBytes := by decide
  have hrows : sampleCodec.normalizeLogs sampleExport = .ok (some [(0, "")]) := rfl
  have henqueue : enqueueOtlpLogs sampleCodec sampleTenant sampleExport [(0, "")] (some mark) =
      .ok (sampleItem mark) := by rfl
  exact .logs hdata hrows henqueue

/-- No rows and no marks. -/
def Tables.empty {Entry Span Sample : Type} : Tables Entry Span Sample :=
  ⟨[], [], [], CollectMarks.empty⟩

/-- One batch with the sample append. -/
def sampleBatch : Batch (ℕ × String) Unit Unit :=
  ⟨[sampleItem ⟨sampleSender, .logs, ⟨1, 1⟩⟩], 0, .written⟩

theorem sampleBatch_live : ∀ b ∈ [sampleBatch], ∀ item ∈ b.items, Live sampleCodec item := by
  intro b hb item hitem
  cases List.mem_singleton.1 hb
  cases List.mem_singleton.1 hitem
  exact sampleItem_live _

/-- The sample batch takes 78 bytes.  A cut after 50 of them tears its mark: replay returns the
end of its record, and the same batch written there again replays behind it. -/
theorem replayFrom_run_cut_sample :
    replayFrom crc32 sampleCodec 0 (some (((Writer.opened [] Tables.empty).run crc32
        [sampleBatch]).file.take 50)) 0 ⟨Tables.empty, 0, 0⟩ =
      .ok (33, ⟨⟨[(sampleTenant, (0, ""))], [], [], CollectMarks.empty⟩, 1, 1⟩) ∧
    ∃ st, replayFrom crc32 sampleCodec 0 (some ((Writer.opened (truncateTail
        (((Writer.opened [] Tables.empty).run crc32 [sampleBatch]).file.take 50) 33)
        Tables.empty).run crc32 [sampleBatch]).file) 0 ⟨Tables.empty, 0, 0⟩ = .ok (111, st) ∧
      st.records = 3 := by
  obtain ⟨hcut, -, hmore⟩ := replayFrom_run_cut (C := crc32) 0 [sampleBatch]
    sampleBatch_live Tables.empty 0 50 (Nat.zero_le _) (by decide +kernel) ⟨Tables.empty, 0, 0⟩
  exact ⟨hcut.trans rfl, _, (hmore [sampleBatch] Tables.empty sampleBatch_live
    (by decide +kernel) 0 ⟨Tables.empty, 0, 0⟩).trans rfl, rfl⟩

end Journal

end Obsy
