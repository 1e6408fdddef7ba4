import Obsy.Machine.Feed
import Obsy.Queue.Reseal

/-!
# A batch as it arrives

The collect route reads a batch from a socket: the body arrives in chunks, a chunk goes to the
decoder a slice at a time, and a record is taken off the front of what was decompressed as soon as
its last byte is there.

* `CollectedRecords.next`: the loop, with `turn` for one pass through it.
* `answers`: what the whole plain text would answer.
* `Reading`: what is still to come of a batch; `next` answers for it (`next_spec`).
* `collected_records`: however the body is cut, the records are those `split_records` finds.
-/

namespace Obsy

namespace Collect

open Machine Bytes Queue

/-! ### Refusals -/

/-- The statuses of an answer that is not taken. -/
inductive StatusCode
  | badRequest
  | payloadTooLarge
  | internalServerError
deriving DecidableEq, Repr

/-- Why a request is refused. -/
structure IngestError where
  status : StatusCode
  message : String
  /-- How long to wait before the next attempt. -/
  retryAfter : Option ℕ
deriving DecidableEq, Repr

/-- `IngestError::from`. -/
def IngestError.of (status : StatusCode) (message : String) : IngestError :=
  ⟨status, message, none⟩

/-! ### The reader -/

/-- `COLLECT_RECORD_HEADER_BYTES`. -/
def collectRecordHeaderBytes : ℕ := 4

/-- `MAX_COLLECT_RECORD_BYTES`. -/
def maxCollectRecordBytes : ℕ := 16 * 1024 * 1024

/-- `DECODER_FEED_BYTES`. -/
def decoderFeedBytes : ℕ := 16 * 1024

/-- The zstd decoder, which writes to a buffer. -/
abbrev Decoder := Feeder UInt8 UInt8 String

/-- The batch's records, handed out as the socket produces them. -/
structure CollectedRecords (d : Decoder) where
  /-- The chunks that have not arrived. -/
  body : List (Except String (List UInt8))
  decoder : d.State
  decoded : List UInt8
  /-- What has arrived and was not fed to the decoder. -/
  pending : List UInt8
  ended : Bool

/-- A record claims more than a record may hold. -/
def overMaximum (len : ℕ) : IngestError :=
  .of .payloadTooLarge
    s!"a record claims {len} bytes, over the maximum of {maxCollectRecordBytes}"

/-- `CollectedRecords::take`: the record at the front of the decoded bytes and the bytes behind
it, if all of it has arrived. -/
def take (plain : List UInt8) : Except IngestError (Option (List UInt8 × List UInt8)) :=
  if plain.length < collectRecordHeaderBytes then .ok none
  else
    let len := leNat (plain.take collectRecordHeaderBytes)
    if maxCollectRecordBytes < len then .error (overMaximum len)
    else
      let recordEnd := collectRecordHeaderBytes + len
      if plain.length < recordEnd then .ok none
      else .ok (some ((plain.take recordEnd).drop collectRecordHeaderBytes, plain.drop recordEnd))

/-- `CollectedRecords::truncated`: what is left at the end is no record. -/
def truncated (plain : List UInt8) : IngestError :=
  let left := plain.length
  if left < collectRecordHeaderBytes then
    .of .badRequest s!"a record header needs {collectRecordHeaderBytes} bytes and {left} are left"
  else
    let len := leNat (plain.take collectRecordHeaderBytes)
    let behind := left - collectRecordHeaderBytes
    .of .badRequest s!"a record claims {len} bytes and {behind} are left"

namespace CollectedRecords

variable {d : Decoder}

/-- `CollectedRecords::new`. -/
def new (d : Decoder) (body : List (Except String (List UInt8))) :
    Except IngestError (CollectedRecords d) :=
  match d.make with
  | .error e => .error (.of .internalServerError s!"a zstd decoder could not be made: {e}")
  | .ok decoder => .ok ⟨body, decoder, [], [], false⟩

/-- What one pass through the loop comes to: an answer, or another pass. -/
inductive Turn (d : Decoder)
  | answer (result : Except IngestError (Option (List UInt8) × CollectedRecords d))
  | again (c : CollectedRecords d)

/-- The decoder refuses what it was fed. -/
def notDecompressed (e : String) : IngestError :=
  .of .badRequest s!"the batch could not be decompressed: {e}"

/-- One pass through the loop of `next`. -/
def turn (c : CollectedRecords d) : Turn d :=
  match take c.decoded with
  | .error e => .answer (.error e)
  | .ok (some (record, rest)) => .answer (.ok (some record, { c with decoded := rest }))
  | .ok none =>
    if c.pending ≠ [] then
      match d.write c.decoder (c.pending.take decoderFeedBytes) with
      | .error e => .answer (.error (notDecompressed e))
      | .ok (decoder, out) => .again
        { c with
          decoder := decoder
          decoded := c.decoded ++ out
          pending := c.pending.drop decoderFeedBytes }
    else if c.ended then
      if c.decoded = [] then .answer (.ok (none, c)) else .answer (.error (truncated c.decoded))
    else
      match c.body with
      | .ok chunk :: body => .again { c with body := body, pending := chunk }
      | .error e :: _ => .answer (.error (.of .badRequest s!"the batch stopped arriving: {e}"))
      | [] =>
        match d.flush c.decoder with
        | .error e => .answer (.error (notDecompressed e))
        | .ok (decoder, out) => .again
          { c with ended := true, decoder := decoder, decoded := c.decoded ++ out }

/-- What is left to be done: chunks and the end of the body, then bytes of a chunk. -/
def left (c : CollectedRecords d) : ℕ ×ₗ ℕ :=
  toLex (if c.ended then 0 else c.body.length + 1, c.pending.length)

theorem left_lt_of_again {c c' : CollectedRecords d} (h : c.turn = .again c') :
    c'.left < c.left := by
  simp only [turn] at h
  split at h
  case h_1 => cases h
  case h_2 => cases h
  case h_3 =>
    split_ifs at h with hpending hended hnil
    · split at h
      case h_1 => cases h
      case h_2 =>
        cases h
        refine Prod.Lex.toLex_lt_toLex.2 (.inr ⟨rfl, ?_⟩)
        have := List.length_pos_of_ne_nil hpending
        simp only [List.length_drop, decoderFeedBytes]
        omega
    · split at h
      case h_1 hbody =>
        cases h
        refine Prod.Lex.toLex_lt_toLex.2 (.inl ?_)
        simp [hended, hbody]
      case h_2 => cases h
      case h_3 =>
        split at h
        case h_1 => cases h
        case h_2 =>
          cases h
          refine Prod.Lex.toLex_lt_toLex.2 (.inl ?_)
          simp [hended]

/-- `CollectedRecords::next`: the next record, or the end of the batch. -/
def next (c : CollectedRecords d) :
    Except IngestError (Option (List UInt8) × CollectedRecords d) :=
  match _h : c.turn with
  | .answer result => result
  | .again c' => c'.next
termination_by c.left
decreasing_by exact left_lt_of_again ‹_›

theorem next_of_answer {c : CollectedRecords d}
    {result : Except IngestError (Option (List UInt8) × CollectedRecords d)}
    (h : c.turn = .answer result) : c.next = result := by
  rw [next]
  split <;> simp_all

theorem next_of_again {c c' : CollectedRecords d} (h : c.turn = .again c') :
    c.next = c'.next := by
  rw [next]
  split <;> simp_all

/-- What the calls of `next` answer, up to `n` of them and up to the first that hands out no
record. -/
def calls : ℕ → CollectedRecords d → List (Except IngestError (Option (List UInt8)))
  | 0, _ => []
  | n + 1, c =>
    match c.next with
    | .error e => [.error e]
    | .ok (none, _) => [.ok none]
    | .ok (some record, c') => .ok (some record) :: calls n c'

end CollectedRecords

/-! ### The record at the front -/

section Take

variable {plain : List UInt8}

theorem take_of_short (h : plain.length < recordHeaderBytes) : take plain = .ok none :=
  if_pos h

theorem take_of_over (h : recordHeaderBytes ≤ plain.length)
    (hover : maxCollectRecordBytes < claimed plain) :
    take plain = .error (overMaximum (claimed plain)) :=
  (if_neg (Nat.not_lt.2 h)).trans (if_pos hover)

theorem take_of_cut (h : recordHeaderBytes ≤ plain.length)
    (hmax : claimed plain ≤ maxCollectRecordBytes) (hcut : plain.length < recordEnd plain) :
    take plain = .ok none :=
  (if_neg (Nat.not_lt.2 h)).trans ((if_neg (Nat.not_lt.2 hmax)).trans (if_pos hcut))

theorem take_of_whole (h : Fronted plain) (hmax : claimed plain ≤ maxCollectRecordBytes) :
    take plain = .ok (some (frontPayload plain, plain.drop (recordEnd plain))) := by
  have hpayload : (plain.take (recordEnd plain)).drop recordHeaderBytes = frontPayload plain := by
    rw [List.drop_take, recordEnd, Nat.add_sub_cancel_left, frontPayload]
  rw [← hpayload]
  exact (if_neg (Nat.not_lt.2 h.1)).trans
    ((if_neg (Nat.not_lt.2 hmax)).trans (if_neg (Nat.not_lt.2 h.2)))

/-- The ways a text can begin. -/
theorem take_cases (plain : List UInt8) :
    plain.length < recordHeaderBytes ∨
      (recordHeaderBytes ≤ plain.length ∧ maxCollectRecordBytes < claimed plain) ∨
      (recordHeaderBytes ≤ plain.length ∧ claimed plain ≤ maxCollectRecordBytes ∧
        plain.length < recordEnd plain) ∨
      (Fronted plain ∧ claimed plain ≤ maxCollectRecordBytes) := by
  unfold Fronted
  omega

/-- What is refused at the front stays refused when more arrives. -/
theorem take_append_error {e : IngestError} (h : take plain = .error e) (more : List UInt8) :
    take (plain ++ more) = .error e := by
  rcases take_cases plain with hshort | ⟨hlong, hover⟩ | ⟨hlong, hmax, hcut⟩ | ⟨hfront, hmax⟩
  · rw [take_of_short hshort] at h
    cases h
  · rw [take_of_over hlong hover] at h
    cases h
    have hsame := claimed_of_prefix (List.prefix_append plain more) hlong
    rw [hsame] at hover ⊢
    exact take_of_over (hlong.trans (by simp)) hover
  · rw [take_of_cut hlong hmax hcut] at h
    cases h
  · rw [take_of_whole hfront hmax] at h
    cases h

/-- A record that is there is there when more arrives. -/
theorem take_append_record {record rest : List UInt8} (h : take plain = .ok (some (record, rest)))
    (more : List UInt8) : take (plain ++ more) = .ok (some (record, rest ++ more)) := by
  rcases take_cases plain with hshort | ⟨hlong, hover⟩ | ⟨hlong, hmax, hcut⟩ | ⟨hfront, hmax⟩
  · rw [take_of_short hshort] at h
    cases h
  · rw [take_of_over hlong hover] at h
    cases h
  · rw [take_of_cut hlong hmax hcut] at h
    cases h
  · rw [take_of_whole hfront hmax] at h
    cases h
    have hsame := claimed_of_prefix (List.prefix_append plain more) hfront.1
    have hend : recordEnd (plain ++ more) = recordEnd plain := by
      rw [recordEnd, recordEnd, hsame]
    have hpayload : frontPayload (plain ++ more) = frontPayload plain := by
      have hclaim := hfront.2
      rw [recordEnd] at hclaim
      rw [frontPayload, frontPayload, ← hsame, List.drop_append_of_le_length hfront.1,
        List.take_append_of_le_length (by rw [List.length_drop]; omega)]
    have hwhole : Fronted (plain ++ more) :=
      ⟨hfront.1.trans (by simp), hend ▸ hfront.2.trans (by simp)⟩
    rw [take_of_whole hwhole (hsame ▸ hmax), hpayload, hend,
      List.drop_append_of_le_length hfront.2]

theorem take_rest_lt {record rest : List UInt8} (h : take plain = .ok (some (record, rest))) :
    rest.length < plain.length := by
  rcases take_cases plain with hshort | ⟨hlong, hover⟩ | ⟨hlong, hmax, hcut⟩ | ⟨hfront, hmax⟩
  · rw [take_of_short hshort] at h
    cases h
  · rw [take_of_over hlong hover] at h
    cases h
  · rw [take_of_cut hlong hmax hcut] at h
    cases h
  · rw [take_of_whole hfront hmax] at h
    cases h
    exact hfront.rest_lt

end Take

/-! ### What a whole text answers -/

/-- The answers for a plain text that is there as a whole. -/
def answers (plain : List UInt8) : List (Except IngestError (Option (List UInt8))) :=
  match _h : take plain with
  | .error e => [.error e]
  | .ok (some (record, rest)) => .ok (some record) :: answers rest
  | .ok none => if plain = [] then [.ok none] else [.error (truncated plain)]
termination_by plain.length
decreasing_by exact take_rest_lt ‹_›

theorem answers_of_error {plain : List UInt8} {e : IngestError} (h : take plain = .error e) :
    answers plain = [.error e] := by
  rw [answers]
  split <;> simp_all

theorem answers_of_record {plain record rest : List UInt8}
    (h : take plain = .ok (some (record, rest))) :
    answers plain = .ok (some record) :: answers rest := by
  rw [answers]
  split <;> simp_all

theorem answers_of_none {plain : List UInt8} (h : take plain = .ok none) :
    answers plain = if plain = [] then [.ok none] else [.error (truncated plain)] := by
  rw [answers]
  split <;> simp_all

namespace CollectedRecords

variable {d : Decoder}

/-- `plain` is still to be handed out: it is in the buffer, or the decoder still delivers it. -/
inductive Reading : CollectedRecords d → List UInt8 → Prop
  | arriving {decoder : d.State} {decoded pending owed : List UInt8} (chunks : List (List UInt8))
      (delivers : d.Delivers decoder (pending ++ chunks.flatten) owed) :
      Reading ⟨chunks.map .ok, decoder, decoded, pending, false⟩ (decoded ++ owed)
  /-- All of it is in the buffer. -/
  | ended {body : List (Except String (List UInt8))} {decoder : d.State}
      {decoded : List UInt8} : Reading ⟨body, decoder, decoded, [], true⟩ decoded

/-- What `next` may answer while `plain` is to be handed out. -/
inductive Answers (plain : List UInt8) :
    Except IngestError (Option (List UInt8) × CollectedRecords d) → Prop
  | record {record rest : List UInt8} {c : CollectedRecords d}
      (front : take plain = .ok (some (record, rest))) (reading : c.Reading rest) :
      Answers plain (.ok (some record, c))
  | refused {e : IngestError} (front : take plain = .error e) : Answers plain (.error e)
  | ended {c : CollectedRecords d} (front : take plain = .ok none) (nil : plain = []) :
      Answers plain (.ok (none, c))
  | truncated (front : take plain = .ok none) (ne : plain ≠ []) :
      Answers plain (.error (Collect.truncated plain))

/-- Taking a record off the buffer. -/
theorem Reading.drop {c : CollectedRecords d} {plain record rest : List UInt8}
    (h : c.Reading plain) (htake : take c.decoded = .ok (some (record, rest))) :
    ∃ left, take plain = .ok (some (record, left)) ∧
      ({ c with decoded := rest } : CollectedRecords d).Reading left := by
  cases h with
  | arriving chunks delivers => exact ⟨_, take_append_record htake _, .arriving chunks delivers⟩
  | ended => exact ⟨rest, htake, .ended⟩

theorem Reading.refused {c : CollectedRecords d} {plain : List UInt8} {e : IngestError}
    (h : c.Reading plain) (htake : take c.decoded = .error e) : take plain = .error e := by
  cases h with
  | arriving chunks delivers => exact take_append_error htake _
  | ended => exact htake

/-- **One pass** answers for what is to be handed out, or leaves it to be handed out. -/
theorem turn_spec {c : CollectedRecords d} {plain : List UInt8} (h : c.Reading plain) :
    (∃ result, c.turn = .answer result ∧ Answers plain result) ∨
      ∃ c', c.turn = .again c' ∧ c'.Reading plain := by
  cases htake : take c.decoded with
  | error e => exact .inl ⟨_, by simp only [turn, htake], .refused (h.refused htake)⟩
  | ok front =>
    rcases front with - | ⟨record, rest⟩
    case some =>
      obtain ⟨left, hleft, hreading⟩ := h.drop htake
      exact .inl ⟨_, by simp only [turn, htake], .record hleft hreading⟩
    case none =>
      cases h with
      | @arriving decoder decoded pending owed chunks delivers =>
        by_cases hpending : pending = []
        case neg =>
          -- A slice of the chunk goes to the decoder.
          have hslice : pending.take decoderFeedBytes ≠ [] := by
            simpa [decoderFeedBytes] using hpending
          rw [← List.take_append_drop decoderFeedBytes pending, List.append_assoc] at delivers
          obtain ⟨decoder', out, owed', hwrite, rfl, hdelivers⟩ := delivers.write hslice
          refine .inr ⟨⟨chunks.map .ok, decoder', decoded ++ out, pending.drop decoderFeedBytes,
            false⟩, by simp only [turn, htake, if_pos hpending, hwrite], ?_⟩
          rw [← List.append_assoc]
          exact .arriving chunks hdelivers
        subst hpending
        cases chunks with
        | cons chunk chunks =>
          exact .inr ⟨⟨chunks.map .ok, decoder, decoded, chunk, false⟩, by simp [turn, htake],
            .arriving chunks delivers⟩
        | nil =>
          obtain ⟨decoder', hflush⟩ := delivers.flush
          exact .inr ⟨⟨[], decoder', decoded ++ owed, [], true⟩, by simp [turn, htake, hflush],
            .ended⟩
      | @ended body decoder decoded =>
        by_cases hnil : plain = []
        · refine .inl ⟨.ok (none, ⟨body, decoder, plain, [], true⟩), ?_, .ended htake hnil⟩
          simp only [turn, htake, ne_eq, not_true_eq_false, if_false, if_true, if_pos hnil]
        · refine .inl ⟨.error (Collect.truncated plain), ?_, .truncated htake hnil⟩
          simp only [turn, htake, ne_eq, not_true_eq_false, if_false, if_true, if_neg hnil]

/-- **One call** answers for what is to be handed out. -/
theorem next_spec (c : CollectedRecords d) {plain : List UInt8} (h : c.Reading plain) :
    Answers plain c.next := by
  induction c using next.induct with
  | case1 c result hturn =>
    rcases turn_spec h with ⟨result', hturn', hanswers⟩ | ⟨c', hturn', -⟩
    · cases hturn.symm.trans hturn'
      rw [next_of_answer hturn]
      exact hanswers
    · cases hturn.symm.trans hturn'
  | case2 c c' hturn ih =>
    rcases turn_spec h with ⟨result', hturn', -⟩ | ⟨c'', hturn', hreading⟩
    · cases hturn.symm.trans hturn'
    · cases hturn.symm.trans hturn'
      rw [next_of_again hturn]
      exact ih hreading

/-- **The calls** answer as if the whole text were there. -/
theorem calls_eq (n : ℕ) (c : CollectedRecords d) {plain : List UInt8} (h : c.Reading plain) :
    calls n c = (answers plain).take n := by
  induction n generalizing c plain with
  | zero => rfl
  | succ n ih =>
    have hnext := next_spec c h
    rw [calls]
    generalize c.next = result at hnext
    cases hnext with
    | record front reading => rw [answers_of_record front, List.take_succ_cons, ← ih _ reading]
    | refused front => rw [answers_of_error front, List.take_succ_cons, List.take_nil]
    | ended front nil =>
      rw [answers_of_none front, if_pos nil, List.take_succ_cons, List.take_nil]
    | truncated front ne =>
      rw [answers_of_none front, if_neg ne, List.take_succ_cons, List.take_nil]

end CollectedRecords

/-! ### The answers and the records -/

/-- Why there is no record to take at the front of what is left of a batch. -/
inductive Refuses (rest : List UInt8) : IngestError → Prop
  /-- It claims more than a record may hold. -/
  | tooLong (long : recordHeaderBytes ≤ rest.length) (exceeds : maxCollectRecordBytes < claimed rest) :
      Refuses rest (overMaximum (claimed rest))
  /-- It ends in a header or in a payload that may be that long. -/
  | cut (ne : rest ≠ []) (cut : ¬ Fronted rest)
      (fits : recordHeaderBytes ≤ rest.length → claimed rest ≤ maxCollectRecordBytes) :
      Refuses rest (truncated rest)

/-- How a batch of a plain text ends. -/
inductive Ends (plain : List UInt8) (records : List (List UInt8)) :
    Except IngestError (Option (List UInt8)) → Prop
  /-- All of it is records, none of which claims too much. -/
  | whole (splits : splitRecords plain = .ok records)
      (fits : ∀ len ∈ claims plain, len ≤ maxCollectRecordBytes) : Ends plain records (.ok none)
  /-- Behind the whole records it is refused. -/
  | refused {e : IngestError} (rest : List UInt8)
      (fails : (∃ message, splitRecords plain = .error message) ∨
        ∃ len ∈ claims plain, maxCollectRecordBytes < len)
      (front : plain = stream frameRecord records ++ rest)
      (fits : ∀ record ∈ records, record.length ≤ maxCollectRecordBytes)
      (refuses : Refuses rest e) : Ends plain records (.error e)

/-- **The answers are the records and an ending.** -/
theorem answers_spec (plain : List UInt8) :
    ∃ records ending, answers plain = records.map (fun record => .ok (some record)) ++ [ending] ∧
      Ends plain records ending := by
  induction plain using record_induction with
  | whole plain h ih =>
    by_cases hmax : claimed plain ≤ maxCollectRecordBytes
    case pos =>
      obtain ⟨records, ending, hanswers, hends⟩ := ih
      refine ⟨frontPayload plain :: records, ending, ?_, ?_⟩
      · rw [answers_of_record (take_of_whole h hmax), hanswers]
        rfl
      have hclaims : claims plain = claimed plain :: claims (plain.drop (recordEnd plain)) := by
        rw [claims, if_pos h]
      have hsplit := splitRecords_of_whole h
      cases hends with
      | whole splits fits =>
        rw [splits] at hsplit
        exact .whole hsplit (by simpa [hclaims, hmax] using fits)
      | refused rest fails front fits refuses =>
        refine .refused rest ?_ ?_ ?_ refuses
        · rcases fails with ⟨message, hmessage⟩ | ⟨len, hlen, hover⟩
          · rw [hmessage] at hsplit
            exact .inl ⟨message, hsplit⟩
          · exact .inr ⟨len, hclaims ▸ List.mem_cons_of_mem _ hlen, hover⟩
        · rw [stream_cons, List.append_assoc, ← front, h.frame_append]
        · intro record hrecord
          rcases List.mem_cons.1 hrecord with rfl | hrecord
          · exact (List.length_take_le _ _).trans hmax
          · exact fits record hrecord
    case neg =>
      have hover := not_le.1 hmax
      refine ⟨[], _, answers_of_error (take_of_over h.1 hover), .refused plain (.inr ?_) rfl
        (by simp) (.tooLong h.1 hover)⟩
      exact ⟨claimed plain, by rw [claims, if_pos h]; exact List.mem_cons_self, hover⟩
  | rest plain h =>
    by_cases hnil : plain = []
    · subst hnil
      refine ⟨[], .ok none, answers_of_none (take_of_short (by decide)), ?_⟩
      exact .whole splitRecords_nil (by rw [claims]; simp [Fronted, recordHeaderBytes])
    by_cases hshort : plain.length < recordHeaderBytes
    · refine ⟨[], .error (truncated plain), ?_, .refused plain (.inl ?_) rfl (by simp)
        (.cut hnil h fun hlong => absurd hshort (not_lt.2 hlong))⟩
      · rw [answers_of_none (take_of_short hshort), if_neg hnil]
        rfl
      · exact ⟨_, splitRecords_of_short hnil hshort⟩
    have hlong := not_lt.1 hshort
    have hcut : plain.length < recordEnd plain := not_le.1 fun hend => h ⟨hlong, hend⟩
    by_cases hmax : claimed plain ≤ maxCollectRecordBytes
    · refine ⟨[], .error (truncated plain), ?_, .refused plain (.inl ?_) rfl (by simp)
        (.cut hnil h fun _ => hmax)⟩
      · rw [answers_of_none (take_of_cut hlong hmax hcut), if_neg hnil]
        rfl
      · exact ⟨_, splitRecords_of_cut hnil hlong hcut⟩
    · refine ⟨[], _, answers_of_error (take_of_over hlong (not_le.1 hmax)),
        .refused plain (.inl ?_) rfl (by simp) (.tooLong hlong (not_le.1 hmax))⟩
      exact ⟨_, splitRecords_of_cut hnil hlong hcut⟩

/-- **A batch is read as its whole text would be split**: for every way its body is cut into
chunks and every way the decoder gives out the plain text, the calls of `next` hand out the
records in front and then end the way the text does. -/
theorem collected_records {d : Decoder} {decoder : d.State} {body plain : List UInt8}
    (hmake : d.make = .ok decoder) (hdelivers : d.Delivers decoder body plain)
    (chunks : List (List UInt8)) (hchunks : chunks.flatten = body) :
    ∃ c records ending, CollectedRecords.new d (chunks.map .ok) = .ok c ∧
      (∀ n, c.calls n =
        (records.map (fun record => .ok (some record)) ++ [ending]).take n) ∧
      Ends plain records ending := by
  obtain ⟨records, ending, hanswers, hends⟩ := answers_spec plain
  refine ⟨⟨chunks.map .ok, decoder, [], [], false⟩, records, ending, ?_, fun n => ?_, hends⟩
  · simp only [CollectedRecords.new, hmake]
  · rw [← hanswers]
    subst hchunks
    exact CollectedRecords.calls_eq n _ (.arriving chunks hdelivers)

/-- A decoder of frames of stored bytes, which gives out each byte as its block ends. -/
def storedDecoder : Decoder where
  State := List UInt8
  make := .ok []
  write fed piece := .ok (fed ++ piece,
    (storedFrames.decode (fed ++ piece)).1.drop (storedFrames.decode fed).1.length)
  flush fed := .ok (fed, [])

theorem storedDecoder_delivers (plain : List UInt8) :
    storedDecoder.Delivers [] (storedFrames.encode plain) plain := by
  refine Feeder.Delivers.of_invariant
    (fun (fed : List UInt8) rest owed => (storedFrames.decode (fed ++ rest)).1 =
      (storedFrames.decode fed).1 ++ owed)
    (fun (fed : List UInt8) piece rest owed h => ?_) (fun (fed : List UInt8) owed h => ?_) ?_
  · obtain ⟨out, hout⟩ := storedFrames_prefix fed piece
    obtain ⟨left, hleft⟩ := storedFrames_prefix (fed ++ piece) rest
    refine ⟨fed ++ piece, out, left, ?_, ?_, hleft.symm⟩
    · simp only [storedDecoder, ← hout, List.drop_left]
    · rw [← List.append_assoc, ← hleft, ← hout, List.append_assoc] at h
      exact (List.append_cancel_left h).symm
  · have hnil : owed = [] := by simpa using h
    exact ⟨fed, by rw [hnil]; rfl⟩
  · rw [List.nil_append, storedFrames_sound.decode_encode]
    rfl

/-- One record in a body that arrives in two chunks, cut in the frame's header. -/
theorem collected_records_stored :
    ∃ c records ending,
      CollectedRecords.new storedDecoder
        (([frameHeader.take 3, (storedFrames.encode [1, 0, 0, 0, 65]).drop 3]).map .ok) = .ok c ∧
      (∀ n, c.calls n =
        (records.map (fun record => .ok (some record)) ++ [ending]).take n) ∧
      Ends [1, 0, 0, 0, 65] records ending :=
  collected_records rfl (storedDecoder_delivers [1, 0, 0, 0, 65]) _ (by decide)

end Collect

end Obsy
