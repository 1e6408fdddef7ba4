import Obsy.Queue.Counting

/-!
# Records in a segment

The plain text of a segment is meant to be the records that were appended to it, each behind its
length.  An append is several writes into one stream, and what the encoder took cannot be taken
back.

* `frameRecord`/`splitRecords`: a record as it goes into a segment and a plain text cut into its
  records (`splitRecords_stream`).
* `Streams`: what the encoder of each segment took, and the appends to it that returned.
* `recordMachine`: an open queue whose streams are followed.
* `streams_framed`: until an append fails halfway every segment is the records of the appends
  that returned, in their order.
-/

namespace Obsy

namespace Queue

open Machine Machine.Program Bytes

open Journal (SenderId sampleSender)

/-! ### The framing of records -/

/-- `frame_record`: the payload's length and the payload. -/
def frameRecord (payload : List UInt8) : List UInt8 :=
  leBytes recordHeaderBytes payload.length ++ payload

/-- `split_records`: the payloads of a plain text. -/
def splitRecords (plain : List UInt8) : Except String (List (List UInt8)) :=
  if plain = [] then .ok []
  else if plain.length < recordHeaderBytes then
    let left := plain.length
    .error s!"a record header needs {recordHeaderBytes} bytes and {left} are left"
  else
    let len := leNat (plain.take recordHeaderBytes)
    let rest := plain.drop recordHeaderBytes
    let left := rest.length
    if left < len then .error s!"a record claims {len} bytes and {left} are left"
    else
      match splitRecords (rest.drop len) with
      | .ok records => .ok (rest.take len :: records)
      | .error e => .error e
termination_by plain.length
decreasing_by
  simp only [recordHeaderBytes, List.length_drop] at *
  have := List.length_pos_iff.2 ‹¬ plain = []›
  omega

/-- The payloads that four bytes can say the length of. -/
def Countable (payload : List UInt8) : Prop := payload.length < 2 ^ 32

instance (payload : List UInt8) : Decidable (Countable payload) := by
  unfold Countable
  infer_instance

theorem splitRecords_frame {payload : List UInt8} (h : Countable payload) (rest : List UInt8) :
    splitRecords (frameRecord payload ++ rest) =
      match splitRecords rest with
      | .ok records => .ok (payload :: records)
      | .error e => .error e := by
  have hlen : (leBytes recordHeaderBytes payload.length).length = recordHeaderBytes :=
    length_leBytes _ _
  have htake : (frameRecord payload ++ rest).take recordHeaderBytes =
      leBytes recordHeaderBytes payload.length := by
    rw [frameRecord, List.append_assoc, List.take_left' hlen]
  have hdrop : (frameRecord payload ++ rest).drop recordHeaderBytes = payload ++ rest := by
    rw [frameRecord, List.append_assoc, List.drop_left' hlen]
  have hread : leNat (leBytes recordHeaderBytes payload.length) = payload.length :=
    leNat_leBytes (by simpa [recordHeaderBytes, Countable] using h)
  have hlong : recordHeaderBytes ≤ (frameRecord payload ++ rest).length := by
    simp only [frameRecord, List.length_append, hlen]
    omega
  have hne : frameRecord payload ++ rest ≠ [] := by
    intro hnil
    rw [hnil] at hlong
    exact absurd hlong (by decide)
  rw [splitRecords, if_neg hne, if_neg (Nat.not_lt.2 hlong), htake, hdrop, hread]
  simp only [List.length_append, Nat.not_lt.2 (Nat.le_add_right _ _), if_false, List.take_left,
    List.drop_left]

/-- **The records come back** as they were framed, in their order. -/
theorem splitRecords_stream {payloads : List (List UInt8)} (h : ∀ p ∈ payloads, Countable p) :
    splitRecords (stream frameRecord payloads) = .ok payloads := by
  induction payloads with
  | nil => rw [stream_nil, splitRecords, if_pos rfl]
  | cons p ps ih =>
    rw [stream_cons, splitRecords_frame (h p List.mem_cons_self),
      ih fun q hq => h q (List.mem_cons_of_mem _ hq)]

/-! ### What the encoders took -/

/-- The streams of the segments that were created. -/
structure Streams where
  /-- What the encoder of a segment took: its plain text. -/
  took : Signal → ℕ → List UInt8
  /-- The payloads of the appends to a segment that returned. -/
  returned : Signal → ℕ → List (List UInt8)
  /-- An encoder has taken bytes since the last other operation. -/
  begun : Bool
  /-- An encoder failed when it had taken part of a record. -/
  torn : Bool

namespace Streams

/-- No segment yet. -/
def none : Streams := ⟨fun _ _ => [], fun _ _ => [], false, false⟩

/-- Add to what is known of one segment. -/
def push {α : Type} (f : Signal → ℕ → List α) (signal : Signal) (seq : ℕ) (xs : List α) :
    Signal → ℕ → List α :=
  fun s n => if s = signal ∧ n = seq then f s n ++ xs else f s n

/-- Forget what is known of one segment. -/
def clear {α : Type} (f : Signal → ℕ → List α) (signal : Signal) (seq : ℕ) :
    Signal → ℕ → List α :=
  fun s n => if s = signal ∧ n = seq then [] else f s n

/-- One more operation. -/
def see (w : Streams) (op : FileOp) (r : Except QueueError op.Res) : Streams :=
  match op, r with
  | .encode signal seq plain, .ok encoded =>
    let taken := plain.take encoded.accepted
    { w with
      took := push w.took signal seq taken
      begun := w.begun || !taken.isEmpty
      torn := w.torn || (!encoded.ok && (w.begun || !taken.isEmpty)) }
  | .createSegment _ signal seq, _ =>
    { w with
      took := clear w.took signal seq
      returned := clear w.returned signal seq
      begun := false }
  | _, _ => { w with begun := false }

/-- Before the first operation of a call. -/
def start (w : Streams) : Streams := { w with begun := false, torn := false }

/-- An append to a segment has returned. -/
def accept (w : Streams) (signal : Signal) (seq : ℕ) (payload : List UInt8) : Streams :=
  { w with returned := push w.returned signal seq [payload] }

/-- Every segment is the records of the appends that returned. -/
def Framed (w : Streams) : Prop :=
  ∀ signal seq, w.took signal seq = stream frameRecord (w.returned signal seq)

@[simp] theorem push_nil {α : Type} (f : Signal → ℕ → List α) (signal : Signal) (seq : ℕ) :
    push f signal seq [] = f := by
  funext s n
  simp [push]

theorem push_push {α : Type} (f : Signal → ℕ → List α) (signal : Signal) (seq : ℕ)
    (xs ys : List α) : push (push f signal seq xs) signal seq ys = push f signal seq (xs ++ ys) := by
  funext s n
  unfold push
  split_ifs
  · rw [List.append_assoc]
  · rfl

theorem Framed.clear {w : Streams} (h : w.Framed) (signal : Signal) (seq : ℕ) (begun torn : Bool) :
    (⟨Streams.clear w.took signal seq, Streams.clear w.returned signal seq, begun, torn⟩ :
      Streams).Framed := by
  intro s n
  simp only [Streams.clear]
  split_ifs
  · rfl
  · exact h s n

/-- A whole record of an append that returned. -/
theorem Framed.push {w : Streams} (h : w.Framed) (signal : Signal) (seq : ℕ)
    (payload : List UInt8) (begun torn : Bool) :
    (⟨Streams.push w.took signal seq (frameRecord payload),
      Streams.push w.returned signal seq [payload], begun, torn⟩ : Streams).Framed := by
  intro s n
  simp only [Streams.push]
  split_ifs
  · rw [stream_append, h s n, stream_cons, stream_nil, List.append_nil]
  · exact h s n

end Streams

/-- The files under this observer. -/
abbrev followed : Device fileInterface (Disk × Streams) Fate := files.watch Streams.see

/-! ### Calls that write no record -/

/-- What holds of a queue in memory, whatever failed. -/
structure Inner.Coherent (inner : Inner) : Prop where
  settled : ∀ signal, (inner.signals signal).Settled
  writes : ∀ signal writer, (inner.signals signal).active = some writer →
    writer.seq = (inner.signals signal).back.seq

/-- Between two writes: every segment is whole records. -/
structure Whole (m : Inner) (s : Disk × Streams) : Prop where
  coherent : m.Coherent
  framed : s.2.Framed
  begun : s.2.begun = false
  torn : s.2.torn = false

variable {m inner : Inner} {s : Disk × Streams} {signal : Signal} {sender : SenderId}

theorem Inner.Coherent.change (h : inner.Coherent) (signal : Signal)
    (f : SignalQueue → SignalQueue)
    (hsettled : (f (inner.signals signal)).Settled)
    (hwrites : ∀ writer, (f (inner.signals signal)).active = some writer →
      writer.seq = (f (inner.signals signal)).back.seq)
    (hsignals : m.signals = (inner.update signal f).signals) : m.Coherent := by
  refine ⟨fun other => ?_, fun other => ?_⟩ <;> rw [hsignals] <;> by_cases ho : other = signal
  · subst ho
    rwa [Inner.signals_update_self]
  · rw [Inner.signals_update_of_ne ho]
    exact h.settled other
  · subst ho
    rwa [Inner.signals_update_self]
  · rw [Inner.signals_update_of_ne ho]
    exact h.writes other

theorem Inner.Coherent.counters (h : inner.Coherent) (hsignals : m.signals = inner.signals) :
    m.Coherent :=
  ⟨fun other => hsignals ▸ h.settled other, fun other => hsignals ▸ h.writes other⟩

/-- Operations on which nothing is written. -/
def FileOp.IsSilent : FileOp → Prop
  | .encode _ _ plain => plain = []
  | _ => True

theorem Streams.see_silent {w : Streams} {op : FileOp} (hop : op.IsSilent)
    (r : Except QueueError op.Res) (hf : w.Framed) (hb : w.begun = false) (ht : w.torn = false) :
    (w.see op r).Framed ∧ (w.see op r).begun = false ∧ (w.see op r).torn = false := by
  cases op with
  | encode signal seq plain =>
    obtain rfl : plain = [] := hop
    cases r with
    | ok encoded =>
      simp only [see, List.take_nil, push_nil, List.isEmpty_nil, Bool.not_true, Bool.or_false, hb,
        ht, Bool.and_false]
      exact ⟨hf, trivial, trivial⟩
    | error e => exact ⟨hf, rfl, ht⟩
  | createSegment sender signal seq => exact ⟨hf.clear signal seq _ _, rfl, ht⟩
  | _ => exact ⟨hf, rfl, ht⟩

theorem Whole.memory (h : Whole m s) {m' : Inner} (hm : m'.Coherent) : Whole m' s :=
  ⟨hm, h.framed, h.begun, h.torn⟩

theorem wp_ask_silent (op : FileOp) (hop : op.IsSilent) (h : Whole m s) :
    (ask op : Call Inner op.Res).wp followed
      ⟨fun _ m' s' => m' = m ∧ Whole m s', fun _ m' s' => Whole m' s', fun _ => True⟩ m s := by
  obtain ⟨disk, w⟩ := s
  have hsee := fun r => Streams.see_silent hop r h.framed h.begun h.torn
  refine wp_ask_seen trivial (fun res _ => ⟨rfl, ?_⟩) fun _ => ?_
  · obtain ⟨hf, hb, ht⟩ := hsee (.ok res)
    exact ⟨h.coherent, hf, hb, ht⟩
  · obtain ⟨hf, hb, ht⟩ := hsee (.error .io)
    exact ⟨h.coherent, hf, hb, ht⟩

theorem wp_act_silent (op : FileOp) (hop : op.IsSilent) (h : Whole m s) :
    (act op : Call Inner Unit).wp followed
      ⟨fun _ m' s' => m' = m ∧ Whole m s', fun _ m' s' => Whole m' s', fun _ => True⟩ m s :=
  wp_seq (wp_ask_silent op hop h) fun _ _ _ hw => hw

/-- Closing a stream leaves no encoder and writes nothing. -/
theorem wp_finish_whole (signal : Signal) (h : Whole m s) : (finish signal).wp followed
    ⟨fun _ m' s' => m' = m.update signal (fun q => { q with active := none }) ∧ Whole m' s',
      fun _ m' s' => Whole m' s', fun _ => True⟩ m s := by
  simp only [finish, bind_eq, wp_bind, wp_load]
  cases ha : (m.signals signal).active with
  | none => exact h
  | some writer =>
    have hclosed : (m.update signal fun q => { q with active := none }).Coherent :=
      h.coherent.change _ _ ⟨(h.coherent.settled signal).fresh, fun _ hw => by cases hw⟩
        (fun _ hw => by cases hw) rfl
    simp only [wp_bind, wp_store]
    refine wp_mono (wp_ask_silent (.encode signal writer.seq []) rfl (h.memory hclosed))
      (fun encoded m' s' hw => ?_) (fun _ _ _ he => he) fun _ hk => hk
    obtain ⟨rfl, hw⟩ := hw
    split_ifs
    · exact wp_seq (wp_act_silent .sync trivial hw) fun _ m' s' hs => ⟨hs.1, hs.1 ▸ hs.2⟩
    · exact hw

theorem wp_createSegment_whole {seq : ℕ} (h : Whole m s) :
    (createSegment sender signal seq : Call Inner Unit).wp followed
      ⟨fun _ m' s' => m' = m ∧ Whole m s', fun _ m' s' => Whole m' s', fun _ => True⟩ m s := by
  simp only [createSegment, bind_eq]
  refine wp_seq (wp_act_silent (.createSegment sender signal seq) trivial h)
    fun _ m' s' hw => ?_
  obtain ⟨rfl, hw⟩ := hw
  refine wp_seq (wp_act_silent .sync trivial hw) fun _ m'' s'' hw => ?_
  obtain ⟨rfl, hw⟩ := hw
  exact wp_act_silent .sync trivial hw

theorem whole_roll (sender : SenderId) (signal : Signal) :
    Preserves followed Whole (fun _ => True) (roll sender signal) := by
  intro m s h
  simp only [roll, bind_eq, wp_bind, wp_load]
  split_ifs with hsince
  · exact h
  simp only [wp_bind, wp_store]
  refine wp_mono (wp_finish_whole signal (h.memory (h.coherent.counters rfl)))
    (fun bytes m' s' hfin => ?_) (fun _ _ _ he => he) fun _ hk => hk
  obtain ⟨rfl, hfin⟩ := hfin
  refine wp_checkedSub (fun _ => ?_) fun _ => hfin
  simp only [wp_load]
  have hsized : ∀ m' : Inner, m' = Inner.update (Inner.update { m with stamped := m.stamped + 1 }
      signal fun q => { q with active := none }) signal (fun q => { q with
        back := { q.back with bytes := bytes, stamp := m.stamped + 1 } }) → m'.Coherent := by
    rintro m' rfl
    refine h.coherent.change signal (fun q => { q with
      active := none
      back := { q.back with bytes := bytes, stamp := m.stamped + 1 } })
      ⟨fun hn => ?_, fun _ hw => by cases hw⟩ (fun _ hw => by cases hw) ?_
    · exact absurd (Option.isNone_iff_eq_none.2 hn) hsince
    · simp only [Inner.update, Function.update_self, Function.update_idem]
  refine wp_mono (wp_createSegment_whole (hfin.memory (hsized _ rfl))) (fun _ m' s' hc => ?_)
    (fun _ _ _ he => he) fun _ hk => hk
  obtain ⟨rfl, hc⟩ := hc
  refine hc.memory (hc.coherent.change _ (fun q =>
    { closed := q.closed ++ [q.back]
      back := ⟨((m.signals signal).back.seq + 1) % u64Wrap, 0, 0⟩
      active := some ⟨((m.signals signal).back.seq + 1) % u64Wrap, 0, []⟩
      activeSince := none }) ⟨fun _ => rfl, fun _ _ => Nat.zero_le _⟩ (fun _ hw => ?_) rfl)
  rw [← Option.some.inj hw]

theorem whole_dropSealed : Preserves followed Whole (fun _ => True) dropSealed := by
  intro m s h
  simp only [dropSealed, bind_eq, wp_bind, wp_load]
  cases oldestSealed m with
  | none => exact h
  | some oldest =>
    obtain ⟨signal, held⟩ := oldest
    have hpop : (m.update signal fun q => { q with closed := q.closed.tail }).Coherent :=
      h.coherent.change _ _ ⟨(h.coherent.settled signal).fresh, (h.coherent.settled signal).written⟩
        (h.coherent.writes signal) rfl
    simp only [wp_bind, wp_store, wp_load]
    refine wp_mono (wp_act_silent (.remove .dropped signal held.seq) trivial
      (h.memory hpop)) (fun _ m' s' hw => ?_) (fun _ _ _ he => he) fun _ hk => hk
    obtain ⟨rfl, hw⟩ := hw
    exact wp_checkedSub (fun _ => hw.memory (hw.coherent.counters rfl)) fun _ => hw

theorem whole_commitLoop (signal : Signal) (acked active : ℕ) (closed : List Held) :
    Preserves followed Whole (fun _ => True) (commitLoop signal acked active closed) := by
  induction closed with
  | nil => exact preserves_ret _
  | cons front rest ih =>
    intro m s h
    simp only [commitLoop]
    split_ifs
    · exact h
    have hpop : (m.update signal fun q => { q with closed := rest }).Coherent :=
      h.coherent.change _ _ ⟨(h.coherent.settled signal).fresh, (h.coherent.settled signal).written⟩
        (h.coherent.writes signal) rfl
    simp only [bind_eq, wp_bind, wp_load, wp_store]
    refine wp_mono (wp_act_silent (.remove .committed signal front.seq) trivial
      (h.memory hpop)) (fun _ m' s' hw => ?_) (fun _ _ _ he => he) fun _ hk => hk
    obtain ⟨rfl, hw⟩ := hw
    exact ih _ _ hw

theorem whole_commit (signal : Signal) (acked : ℕ) :
    Preserves followed Whole (fun _ => True) (commit signal acked) := by
  intro m s h
  simp only [commit, bind_eq, wp_bind, wp_load, wp_store]
  refine wp_mono (whole_commitLoop signal acked _ _ m s h) (fun freed m' s' hw => ?_)
    (fun _ _ _ he => he) fun _ hk => hk
  exact wp_checkedSub (fun _ => hw.memory (hw.coherent.counters rfl)) fun _ => hw

theorem upkeep_whole (sender : SenderId) : Upkeep followed sender Whole fun _ => True where
  roll := whole_roll sender
  dropSealed := whole_dropSealed
  commit := whole_commit

/-! ### Writing a record -/

/-- Part of a record has been written. -/
structure Writing (signal : Signal) (w₀ : Streams) (text : List UInt8) (m : Inner)
    (s : Disk × Streams) : Prop where
  coherent : m.Coherent
  returned : s.2.returned = w₀.returned
  took : s.2.took = Streams.push w₀.took signal (m.signals signal).back.seq text
  torn : s.2.torn = false
  begun : s.2.begun = false → text = []
  active : (m.signals signal).active = none → text = []

/-- Nothing has been written, unless the encoder failed halfway. -/
structure Unwritten (w₀ : Streams) (m : Inner) (s : Disk × Streams) : Prop where
  coherent : m.Coherent
  took : s.2.torn = false → s.2.took = w₀.took
  returned : s.2.returned = w₀.returned

variable {w₀ : Streams} {text : List UInt8}

/-- **One write** of an append adds all it was given to the open segment; one that fails has
taken nothing, unless it failed halfway. -/
theorem wp_writeAll_writing (plain : List UInt8) (h : Writing signal w₀ text m s) :
    (writeAll signal plain).wp followed
      ⟨fun _ m' s' => Writing signal w₀ (text ++ plain) m' s' ∧
          (m'.signals signal).active.isSome,
        fun _ m' s' => Unwritten w₀ m' s', fun _ => True⟩ m s := by
  obtain ⟨disk, w⟩ := s
  simp only [writeAll, bind_eq, wp_bind, wp_load]
  cases ha : (m.signals signal).active with
  | none =>
    refine ⟨h.coherent, fun _ => ?_, h.returned⟩
    rw [h.took, h.active ha, Streams.push_nil]
  | some writer =>
    have hseq := h.coherent.writes signal writer ha
    have hwritten : ∀ writer' : SegmentWriter, writer'.seq = writer.seq →
        writer.written ≤ writer'.written →
        (m.update signal fun q => { q with active := some writer' }).Coherent := by
      intro writer' hs hw
      refine h.coherent.change _ _ ⟨(h.coherent.settled signal).fresh, fun other ho => ?_⟩
        (fun other ho => ?_) rfl
      · rw [← Option.some.inj ho]
        exact ((h.coherent.settled signal).written writer ha).trans hw
      · rw [← Option.some.inj ho, hs, hseq]
    simp only [wp_bind]
    refine wp_encode_seen (K := fun _ => True) trivial fun encoded disk' hall => ?_
    have hcoherent := hwritten { writer with
      written := writer.written + encoded.emitted
      plain := writer.plain ++ plain.take encoded.accepted } rfl (Nat.le_add_right _ _)
    have htook : Streams.push w.took signal writer.seq (plain.take encoded.accepted) =
        Streams.push w₀.took signal (m.signals signal).back.seq
          (text ++ plain.take encoded.accepted) := by
      rw [show w.took = _ from h.took, hseq, Streams.push_push]
    have htorn : w.torn = false := h.torn
    simp only [wp_store]
    split_ifs with hok
    · have htake : plain.take encoded.accepted = plain := by rw [hall hok, List.take_length]
      refine ⟨⟨hcoherent, h.returned, ?_, ?_, fun hbegun => ?_, fun hnone => ?_⟩, ?_⟩
      · rw [Inner.signals_update_self]
        show Streams.push w.took signal writer.seq (plain.take encoded.accepted) = _
        rw [htake] at htook ⊢
        exact htook
      · simp [Streams.see, htorn, hok]
      · simp only [Streams.see, htake, Bool.or_eq_false_iff, Bool.not_eq_false',
          List.isEmpty_iff] at hbegun
        rw [h.begun hbegun.1, hbegun.2, List.append_nil]
      · rw [Inner.signals_update_self] at hnone
        cases hnone
      · rw [Inner.signals_update_self]
        rfl
    · -- The encoder failed: what it took stays in the stream.
      refine ⟨hcoherent, fun hnot => ?_, h.returned⟩
      have hok' : encoded.ok = false := by simpa using hok
      simp only [Streams.see, htorn, hok', Bool.not_false, Bool.true_and, Bool.false_or,
        Bool.or_eq_false_iff, Bool.not_eq_false', List.isEmpty_iff] at hnot
      show Streams.push w.took signal writer.seq (plain.take encoded.accepted) = w₀.took
      rw [htook, h.begun hnot.1, hnot.2, List.append_nil, Streams.push_nil]

/-- Writing the pieces of a payload, one after the other. -/
theorem wp_pieces_writing (pieces : List (List UInt8)) (h : Writing signal w₀ text m s)
    (hactive : (m.signals signal).active.isSome) :
    (each (writeAll signal) pieces).wp followed
      ⟨fun _ m' s' => Writing signal w₀ (text ++ pieces.flatten) m' s' ∧
          (m'.signals signal).active.isSome,
        fun _ m' s' => Unwritten w₀ m' s', fun _ => True⟩ m s := by
  refine wp_each (fun _ todo m' s' => ∃ done, done ++ todo = pieces ∧
    Writing signal w₀ (text ++ done.flatten) m' s' ∧ (m'.signals signal).active.isSome)
    (fun piece todo _ m' s' hi => ?_) pieces [] ⟨[], rfl, ?_, hactive⟩ fun _ m' s' hc => ?_
  · obtain ⟨done, rfl, hw, -⟩ := hi
    refine wp_mono (wp_writeAll_writing piece hw) (fun _ m'' s'' hw => ⟨done ++ [piece], ?_, ?_⟩)
      (fun _ _ _ he => he) fun _ hk => hk
    · rw [List.append_assoc, List.singleton_append]
    · rwa [List.flatten_append, List.flatten_singleton, ← List.append_assoc]
  · rwa [List.flatten_nil, List.append_nil]
  · obtain ⟨done, hdone, hw, hactive⟩ := hc
    rw [List.append_nil] at hdone
    exact hdone ▸ ⟨hw, hactive⟩

/-- Counting a record never fails. -/
theorem wp_countRecord_writing (plainLen now : ℕ) (h : Writing signal w₀ text m s)
    (hactive : (m.signals signal).active.isSome) :
    (countRecord signal plainLen now).wp followed
      ⟨fun _ m' s' => Writing signal w₀ text m' s', fun _ m' s' => Unwritten w₀ m' s',
        fun _ => True⟩ m s := by
  obtain ⟨writer, ha⟩ := Option.isSome_iff_exists.1 hactive
  have hle := (h.coherent.settled signal).written writer ha
  simp only [countRecord, bind_eq, wp_bind, wp_load, wp_store, Inner.signals_update_self, ha,
    Option.map_some, Option.getD_some]
  refine wp_checkedSub (fun _ => ⟨?_, h.returned, ?_, h.torn, h.begun, fun hnone => ?_⟩)
    fun hlt => absurd hle (Nat.not_le.2 hlt)
  · refine h.coherent.change signal (fun q => { q with
      back := { q.back with bytes := writer.written }
      activeSince := some (q.activeSince.getD now) })
      { fresh := fun hs => by cases hs
        written := fun writer' hw' => ?_ } (h.coherent.writes signal) ?_
    · rw [Option.some.inj (ha.symm.trans hw')]
    · simp only [Inner.update, Function.update_self, Function.update_idem]
  · rw [h.took]
    simp [Inner.update]
  · simp [Inner.update, ha] at hnone

/-- What an append does to the streams: nothing when it fails, unless it fails halfway, and one
record when it returns. -/
theorem wp_record_writing (pieces : List (List UInt8)) (plainLen now : ℕ) (h : Whole m s) :
    (do
      writeAll signal (leBytes recordHeaderBytes (pieces.map List.length).sum)
      let _ ← each (writeAll signal) pieces
      countRecord signal plainLen now : Call Inner Unit).wp followed
      ⟨fun _ m' s' => Writing signal s.2 (frameRecord pieces.flatten) m' s',
        fun _ m' s' => Unwritten s.2 m' s', fun _ => True⟩ m s := by
  have hstart : Writing signal s.2 [] m s :=
    ⟨h.coherent, rfl, (Streams.push_nil _ _ _).symm, h.torn, fun _ => rfl, fun _ => rfl⟩
  rw [show (pieces.map List.length).sum = pieces.flatten.length from List.length_flatten.symm]
  simp only [bind_eq]
  refine wp_seq (wp_writeAll_writing _ hstart) fun _ m₁ s₁ h₁ => ?_
  refine wp_seq (wp_pieces_writing pieces h₁.1 h₁.2) fun _ m₂ s₂ h₂ => ?_
  exact wp_countRecord_writing plainLen now h₂.1 h₂.2

/-- After an append: a failed one has left the segments whole unless the encoder failed halfway,
and one that returned has added its record to the open segment. -/
def Appended (signal : Signal) (payload : List UInt8) (m : Inner) (s : Disk × Streams) : Prop :=
  ∃ w : Streams, w.Framed ∧ s.2.returned = w.returned ∧
    s.2.took = Streams.push w.took signal (m.signals signal).back.seq (frameRecord payload)

/-- After a call that failed. -/
structure Broken (m : Inner) (s : Disk × Streams) : Prop where
  coherent : m.Coherent
  framed : s.2.torn = false → s.2.Framed

theorem Whole.broken (h : Whole m s) : Broken m s := ⟨h.coherent, fun _ => h.framed⟩

theorem Unwritten.broken {s₀ : Disk × Streams} {m₀ : Inner} (h : Unwritten s₀.2 m s)
    (h₀ : Whole m₀ s₀) : Broken m s := by
  refine ⟨h.coherent, fun hnot sg n => ?_⟩
  rw [h.took hnot, h.returned]
  exact h₀.framed sg n

/-- **An append** adds one record or nothing, unless the encoder fails halfway. -/
theorem wp_writeRecord_appended (limits : QueueLimits) (sender : SenderId) (signal : Signal)
    (pieces : List (List UInt8)) (now fuel : ℕ) (h : Whole m s) :
    (writeRecord limits sender signal pieces now fuel).wp followed
      ⟨fun _ m' s' => m'.Coherent ∧ Appended signal pieces.flatten m' s',
        fun _ m' s' => Broken m' s', fun _ => True⟩ m s := by
  have hwrite : ∀ plainLen m' s', Whole m' s' → (do
      writeAll signal (leBytes recordHeaderBytes (pieces.map List.length).sum)
      let _ ← each (writeAll signal) pieces
      countRecord signal plainLen now : Call Inner Unit).wp followed
        ⟨fun _ m' s' => m'.Coherent ∧ Appended signal pieces.flatten m' s',
          fun _ m' s' => Broken m' s', fun _ => True⟩ m' s' :=
    fun plainLen m' s' hw => wp_mono (wp_record_writing pieces plainLen now hw)
      (fun _ _ _ hr => ⟨hr.coherent, s'.2, hw.framed, hr.returned, hr.took⟩)
      (fun _ _ _ hu => hu.broken hw) fun _ hk => hk
  simp only [writeRecord]
  split_ifs
  · exact h.broken
  refine wp_seq (wp_mono ((upkeep_whole sender).makeRoom limits _ fuel m s h) (fun _ _ _ hw => hw)
    (fun _ _ _ hw => hw.broken) fun _ hk => hk) fun _ m' s' hw => ?_
  simp only [bind_eq, wp_bind, wp_load]
  split_ifs
  · refine wp_seq (wp_mono (whole_roll sender signal m' s' hw) (fun _ _ _ hw => hw)
      (fun _ _ _ hw => hw.broken) fun _ hk => hk) fun _ m'' s'' hw => ?_
    exact hwrite _ m'' s'' hw
  · exact hwrite _ m' s' hw

/-! ### Runs -/

/-- An open queue whose streams are followed, until its process dies. -/
structure Recording where
  disk : Disk
  process : Option (SenderId × Inner)
  /-- What the encoders took and which appends returned. -/
  streams : Streams

/-- What an append that returned adds to what is known of its segment. -/
def Command.record (inner : Inner) (w : Streams) : Command → Streams
  | append signal pieces _ _ => w.accept signal (inner.signals signal).back.seq pieces.flatten
  | _ => w

/-- The state after a call. -/
def Recording.after (sender : SenderId) (command : Command)
    (o : Outcome Inner (Disk × Streams) QueueError Unit Fate) : Recording :=
  match o.ending with
  | .done _ => ⟨o.device.1, some (sender, o.memory), command.record o.memory o.device.2⟩
  | .failed _ => ⟨o.device.1, some (sender, o.memory), o.device.2⟩
  | .crashed => ⟨o.device.1, none, o.device.2⟩

/-- Calls on an open queue, one after the other. -/
def recordMachine (limits : QueueLimits) : Machine Recording (Command × List Fate) where
  step s e :=
    match s.process with
    | none => none
    | some (sender, inner) => some (.after sender e.1
        ((e.1.program limits sender).exec followed e.2 inner (s.disk, s.streams.start)))

/-- Where an open queue starts. -/
def Recording.opened (zstd : Zstd) (fresh : SenderId) (fates : List Fate) (disk : Disk) :
    Recording :=
  let t := afterOpen ((openQueue zstd fresh).exec files fates () disk)
  ⟨t.disk, t.queue, Streams.none⟩

/-- A step in which no append fails halfway and none is handed a payload whose length four bytes
cannot say. -/
def Untorn (limits : QueueLimits) (s : Recording) (e : Command × List Fate) (_ : Recording) :
    Prop :=
  match s.process with
  | none => True
  | some (sender, inner) =>
    ((e.1.program limits sender).seen files Streams.see e.2 inner s.disk s.streams.start).torn =
        false ∧
      match e.1 with
      | .append _ pieces _ _ => Countable pieces.flatten
      | _ => True

instance (limits : QueueLimits) (s : Recording) (e : Command × List Fate) (s' : Recording) :
    Decidable (Untorn limits s e s') := by
  unfold Untorn
  split
  · infer_instance
  · have : ∀ command : Command, Decidable (match command with
        | .append _ pieces _ _ => Countable pieces.flatten
        | _ => True) := fun command => by split <;> infer_instance
    infer_instance

/-- What holds between the calls: every segment is the records of the appends to it that
returned, and each of these can be read back. -/
structure Recorded (inner : Inner) (w : Streams) : Prop where
  coherent : inner.Coherent
  framed : w.Framed
  countable : ∀ signal seq, ∀ p ∈ w.returned signal seq, Countable p

/-- The appends that returned are known only by the machine. -/
theorem see_returned {w : Streams} {op : FileOp} {r : Except QueueError op.Res} {signal : Signal}
    {seq : ℕ} {p : List UInt8} (h : p ∈ (w.see op r).returned signal seq) :
    p ∈ w.returned signal seq := by
  unfold Streams.see at h
  split at h
  · exact h
  · simp only [Streams.clear] at h
    split_ifs at h
    · cases h
    · exact h
  · exact h

theorem exec_returned {α : Type} (p : Call Inner α) (fs : List Fate) (m : Inner)
    (s : Disk × Streams) {signal : Signal} {seq : ℕ} {x : List UInt8}
    (h : x ∈ (p.exec followed fs m s).device.2.returned signal seq) :
    x ∈ s.2.returned signal seq := by
  induction p generalizing fs m s with
  | ret a => exact h
  | throw e => exact h
  | get k ih => exact ih m fs m s h
  | set m' k ih => exact ih fs m' s h
  | call op k ih =>
    cases fs with
    | nil => exact h
    | cons f fs => exact see_returned (ih _ fs m _ h)

/-- What a call adds to what is known of the segments. -/
theorem recorded_command (limits : QueueLimits) (sender : SenderId) (command : Command)
    (fates : List Fate) {inner : Inner} (disk : Disk) {w : Streams} (h : Recorded inner w)
    (hcountable : ∀ signal pieces now fuel, command = .append signal pieces now fuel →
      Countable pieces.flatten) :
    let o := (command.program limits sender).exec followed fates inner (disk, w.start)
    o.device.2.torn = false → match o.ending with
      | .done _ => Recorded o.memory (command.record o.memory o.device.2)
      | .failed _ => Recorded o.memory o.device.2
      | .crashed => True := by
  intro o hnot
  have hwhole : Whole inner (disk, w.start) := ⟨h.coherent, h.framed, rfl, rfl⟩
  have hreturned : ∀ signal seq, ∀ p ∈ o.device.2.returned signal seq, Countable p :=
    fun signal seq p hp => h.countable signal seq p (exec_returned _ _ _ _ hp)
  have hquiet : Preserves followed Whole (fun _ => True) (command.program limits sender) →
      (∀ m w, command.record m w = w) → match o.ending with
        | .done _ => Recorded o.memory (command.record o.memory o.device.2)
        | .failed _ => Recorded o.memory o.device.2
        | .crashed => True := by
    intro hkeeps hrecord
    have hmeets : o.Meets ⟨fun _ m s => Whole m s, fun _ m s => Whole m s, fun _ => True⟩ :=
      exec_of_wp (hkeeps _ _ hwhole) fates
    unfold Outcome.Meets at hmeets
    split <;> rename_i ho <;> rw [ho] at hmeets
    · rw [hrecord]
      exact ⟨hmeets.coherent, hmeets.framed, hreturned⟩
    · exact ⟨hmeets.coherent, hmeets.framed, hreturned⟩
    · trivial
  cases command with
  | append signal pieces now fuel =>
    have hmeets : o.Meets ⟨fun _ m s => m.Coherent ∧ Appended signal pieces.flatten m s,
        fun _ m s => Broken m s, fun _ => True⟩ :=
      exec_of_wp (wp_writeRecord_appended limits sender signal pieces now fuel hwhole) fates
    unfold Outcome.Meets at hmeets
    split <;> rename_i ho <;> rw [ho] at hmeets
    · obtain ⟨hcoherent, w', hframed, hsame, htook⟩ := hmeets
      have hpush := hframed.push signal (o.memory.signals signal).back.seq pieces.flatten
      refine ⟨hcoherent, fun sg n => ?_, fun sg n p hp => ?_⟩
      · show o.device.2.took sg n = stream frameRecord (Streams.push o.device.2.returned _ _ _ sg n)
        rw [htook, hsame]
        exact hpush false false sg n
      · simp only [Command.record, Streams.accept, Streams.push] at hp
        split_ifs at hp
        · rcases List.mem_append.1 hp with hp | hp
          · exact hreturned sg n p hp
          · rw [List.mem_singleton.1 hp]
            exact hcountable signal pieces now fuel rfl
        · exact hreturned sg n p hp
    · exact ⟨hmeets.coherent, hmeets.framed hnot, hreturned⟩
    · trivial
  | sealIfDue due => exact hquiet ((upkeep_whole sender).sealIfDue due) fun _ _ => rfl
  | sealAll => exact hquiet (upkeep_whole sender).sealAll fun _ _ => rfl
  | dropOldest => exact hquiet (upkeep_whole sender).dropOldest fun _ _ => rfl
  | commit signal acked => exact hquiet (whole_commit signal acked) fun _ _ => rfl

/-- The open queue's segments are whole. -/
def Recording.Sound (s : Recording) : Prop :=
  ∀ sender inner, s.process = some (sender, inner) → Recorded inner s.streams

theorem sound_step (limits : QueueLimits) {s s' : Recording} {e : Command × List Fate}
    (h : s.Sound) (hstep : (recordMachine limits).step s e = some s')
    (huntorn : Untorn limits s e s') : s'.Sound := by
  obtain ⟨disk, process, streams⟩ := s
  obtain ⟨command, fates⟩ := e
  cases process with
  | none => cases hstep
  | some p =>
    obtain ⟨sender, inner⟩ := p
    simp only [recordMachine, Option.some.injEq] at hstep
    subst hstep
    obtain ⟨hnot, hcountable⟩ := huntorn
    have hrecorded := recorded_command limits sender command fates disk
      (h sender inner rfl) (fun signal pieces now fuel hc => by subst hc; exact hcountable) hnot
    intro sender' inner' hp
    unfold Recording.after at hp ⊢
    cases ho : ((command.program limits sender).exec followed fates inner
        (disk, streams.start)).ending <;> rw [ho] at hp <;> simp only [ho] at hrecorded <;> cases hp
    · exact hrecorded
    · exact hrecorded

theorem coherent_openedInner (recovered : List Recovered) : (openedInner recovered).Coherent :=
  ⟨(tallied_openedInner recovered).settled, fun _ _ hw => by cases hw; rfl⟩

theorem sound_opened (zstd : Zstd) (fresh : SenderId) (opening : List Fate) (disk : Disk) :
    (Recording.opened zstd fresh opening disk).Sound := by
  intro sender inner hp
  obtain ⟨recovered, rfl⟩ := exists_openedInner hp
  exact ⟨coherent_openedInner recovered, fun _ _ => rfl, fun _ _ _ hp => by cases hp⟩

/-- **Every segment is its records**: in a run from the opening of a queue in which no append
fails halfway, what the encoder of a segment took is the records of the appends to it that
returned, in their order, and that is how it is read back. -/
theorem streams_framed (zstd : Zstd) (limits : QueueLimits) (fresh : SenderId)
    (opening : List Fate) (disk : Disk) {es : List (Command × List Fate)} {t : Recording}
    (hrun : (recordMachine limits).run (.opened zstd fresh opening disk) es = some t)
    (huntorn : (recordMachine limits).Within (Untorn limits) (.opened zstd fresh opening disk) es)
    (hopen : t.process.isSome) (signal : Signal) (seq : ℕ) :
    t.streams.took signal seq = stream frameRecord (t.streams.returned signal seq) ∧
      splitRecords (t.streams.took signal seq) = .ok (t.streams.returned signal seq) := by
  have hsound : t.Sound := run_invariant_within (P := Recording.Sound)
    (fun _ _ _ h hstep hu => sound_step limits h hstep hu) (sound_opened zstd fresh opening disk)
    huntorn hrun
  obtain ⟨⟨sender, inner⟩, hp⟩ := Option.isSome_iff_exists.1 hopen
  have hrecorded := hsound sender inner hp
  refine ⟨hrecorded.framed signal seq, ?_⟩
  rw [hrecorded.framed signal seq]
  exact splitRecords_stream (hrecorded.countable signal seq)

/-- An opening in which everything goes well. -/
def sampleRecording : Recording :=
  .opened sampleZstd sampleSender (List.replicate 50 (Fate.fine 0 [0])) Disk.empty

/-- A record in two pieces, and its segment is closed. -/
def recordEvents : List (Command × List Fate) :=
  [(.append .logs [[1], [2]] 5 0, List.replicate 3 (Fate.fine 5 [0])),
    (.sealAll, List.replicate 5 (Fate.fine 6 []))]

theorem streams_framed_sample : ∃ t,
    (recordMachine ⟨100, 50⟩).run sampleRecording recordEvents = some t ∧
      t.streams.returned .logs 1 = [[1, 2]] ∧
      t.streams.took .logs 1 = stream frameRecord [[1, 2]] ∧
      splitRecords (t.streams.took .logs 1) = .ok [[1, 2]] := by
  have hrun : ((recordMachine ⟨100, 50⟩).run sampleRecording recordEvents).map (fun t =>
      (t.streams.returned .logs 1, t.process.isSome)) = some ([[1, 2]], true) := by decide +kernel
  obtain ⟨t, ht, hsees⟩ := Option.map_eq_some_iff.1 hrun
  obtain ⟨hreturned, hopen⟩ := Prod.mk.inj hsees
  have hframed := streams_framed sampleZstd ⟨100, 50⟩ sampleSender _ Disk.empty ht
    (by decide +kernel) hopen .logs 1
  rw [hreturned] at hframed
  exact ⟨t, ht, hreturned, hframed.1, hframed.2⟩

/-- The encoder takes the length and half of the payload of a record and fails; a second record
follows, and the segment is closed. -/
def tornEvents : List (Command × List Fate) :=
  [(.append .logs [[1, 2]] 5 0, [Fate.fine 5 [], ⟨true, true, 5, [], 1⟩]),
    (.append .logs [[9]] 6 0, List.replicate 2 (Fate.fine 6 [])),
    (.sealAll, List.replicate 5 (Fate.fine 7 [0]))]

/-- **A failed append swallows the record after it**: the one record that was acknowledged
cannot be read back from its closed segment. -/
theorem torn_segment : ∃ t sender inner,
    (recordMachine ⟨100, 50⟩).run sampleRecording tornEvents = some t ∧
      t.process = some (sender, inner) ∧
      (inner.signals .logs).closed.map (·.seq) = [1] ∧
      t.streams.returned .logs 1 = [[9]] ∧
      t.streams.took .logs 1 ≠ stream frameRecord (t.streams.returned .logs 1) ∧
      ∃ e, splitRecords (t.streams.took .logs 1) = .error e := by
  have hrun : ((recordMachine ⟨100, 50⟩).run sampleRecording tornEvents).bind (fun t =>
      t.process.map fun p => ((p.2.signals .logs).closed.map (·.seq), t.streams.returned .logs 1,
        t.streams.took .logs 1)) = some ([1], [[9]], [2, 0, 0, 0, 1, 1, 0, 0, 0, 9]) := by
    decide +kernel
  obtain ⟨t, ht, hsees⟩ := Option.bind_eq_some_iff.1 hrun
  obtain ⟨⟨sender, inner⟩, hp, hsees⟩ := Option.map_eq_some_iff.1 hsees
  simp only [Prod.mk.injEq] at hsees
  obtain ⟨hclosed, hreturned, htook⟩ := hsees
  refine ⟨t, sender, inner, ht, hp, hclosed, hreturned, ?_, ?_⟩
  · rw [htook, hreturned]
    decide
  · have hcut : t.streams.took .logs 1 = frameRecord [1, 1] ++ [0, 0, 0, 9] := by
      rw [htook]
      decide
    rw [hcut, splitRecords_frame (by decide), splitRecords, if_neg (by decide), if_neg (by decide)]
    exact ⟨_, rfl⟩

end Queue

end Obsy
