import Obsy.Queue.Records

/-!
# Records on the wire

A plain text is cut into records from its front: `split_records` refuses one that does not end with
a record, and `whole_records_len` says where to cut it.

* `splitRecords_of_whole`, `wholeRecordsLen_of_whole`: one record at the front.
* `splitRecords_isOk_iff`: a text is accepted exactly when it is whole records.
* `LongestWhole`: the longest front of a text that is whole records; it is where
  `whole_records_len` cuts (`longestWhole_take`).
-/

namespace Obsy

namespace Queue

open Bytes

/-! ### The record at the front -/

/-- The length that the first header claims. -/
def claimed (plain : List UInt8) : ℕ := leNat (plain.take recordHeaderBytes)

/-- Where the first record ends. -/
def recordEnd (plain : List UInt8) : ℕ := recordHeaderBytes + claimed plain

/-- The payload of the first record. -/
def frontPayload (plain : List UInt8) : List UInt8 :=
  (plain.drop recordHeaderBytes).take (claimed plain)

/-- All of the first record is there. -/
def Fronted (plain : List UInt8) : Prop :=
  recordHeaderBytes ≤ plain.length ∧ recordEnd plain ≤ plain.length

instance (plain : List UInt8) : Decidable (Fronted plain) := inferInstanceAs (Decidable (_ ∧ _))

variable {plain : List UInt8}

theorem Fronted.rest_lt (h : Fronted plain) : (plain.drop (recordEnd plain)).length < plain.length := by
  have h₁ := h.1
  have h₂ : recordHeaderBytes ≤ recordEnd plain := Nat.le_add_right _ _
  have h₃ : recordHeaderBytes = 4 := rfl
  rw [List.length_drop]
  omega

/-- A text is its first record and what is behind it. -/
theorem Fronted.frame_append (h : Fronted plain) :
    frameRecord (frontPayload plain) ++ plain.drop (recordEnd plain) = plain := by
  have hend := h.2
  rw [recordEnd] at hend
  have hlength : (frontPayload plain).length = claimed plain := by
    rw [frontPayload, List.length_take, List.length_drop]
    omega
  have hheader : (plain.take recordHeaderBytes).length = recordHeaderBytes :=
    List.length_take_of_le h.1
  have hbytes : leBytes recordHeaderBytes (claimed plain) = plain.take recordHeaderBytes := by
    conv_lhs => rw [← hheader]
    exact leBytes_leNat _
  rw [frameRecord, hlength, hbytes, List.append_assoc, frontPayload, recordEnd, ← List.drop_drop,
    List.take_append_drop, List.take_append_drop]

theorem splitRecords_nil : splitRecords [] = .ok [] := by rw [splitRecords, if_pos rfl]

theorem splitRecords_of_short (hne : plain ≠ []) (h : plain.length < recordHeaderBytes) :
    splitRecords plain =
      let left := plain.length
      .error s!"a record header needs {recordHeaderBytes} bytes and {left} are left" := by
  rw [splitRecords, if_neg hne, if_pos h]

theorem splitRecords_of_cut (hne : plain ≠ []) (h : recordHeaderBytes ≤ plain.length)
    (hcut : plain.length < recordEnd plain) :
    splitRecords plain =
      let len := claimed plain
      let left := (plain.drop recordHeaderBytes).length
      .error s!"a record claims {len} bytes and {left} are left" := by
  have hleft : (plain.drop recordHeaderBytes).length < leNat (plain.take recordHeaderBytes) := by
    rw [recordEnd, claimed] at hcut
    rw [List.length_drop]
    omega
  rw [splitRecords, if_neg hne, if_neg (by omega)]
  dsimp only
  rw [if_pos hleft]
  rfl

theorem splitRecords_of_whole (h : Fronted plain) :
    splitRecords plain =
      match splitRecords (plain.drop (recordEnd plain)) with
      | .ok records => .ok (frontPayload plain :: records)
      | .error e => .error e := by
  have hne : plain ≠ [] := by
    rintro rfl
    exact absurd h.1 (by decide)
  have hleft : ¬ (plain.drop recordHeaderBytes).length < leNat (plain.take recordHeaderBytes) := by
    have hend := h.2
    rw [recordEnd, claimed] at hend
    rw [List.length_drop]
    omega
  rw [splitRecords, if_neg hne, if_neg (Nat.not_lt.2 h.1)]
  dsimp only
  rw [if_neg hleft, List.drop_drop]
  rfl

theorem wholeRecordsLen_of_whole (h : Fronted plain) :
    wholeRecordsLen plain = recordEnd plain + wholeRecordsLen (plain.drop (recordEnd plain)) := by
  rw [wholeRecordsLen, if_neg (Nat.not_lt.2 h.1)]
  exact if_neg (Nat.not_lt.2 h.2)

theorem wholeRecordsLen_of_not (h : ¬ Fronted plain) : wholeRecordsLen plain = 0 := by
  rw [wholeRecordsLen]
  split
  case isTrue => rfl
  case isFalse hlong => exact if_pos (not_le.1 fun hend => h ⟨not_lt.1 hlong, hend⟩)

/-- The lengths that the records of a text claim, up to the first that is cut. -/
def claims (plain : List UInt8) : List ℕ :=
  if Fronted plain then claimed plain :: claims (plain.drop (recordEnd plain))
  else if plain.length < recordHeaderBytes then []
  else [claimed plain]
termination_by plain.length
decreasing_by exact Fronted.rest_lt ‹_›

/-- From the records behind it to a text. -/
theorem record_induction {motive : List UInt8 → Prop}
    (whole : ∀ plain, Fronted plain → motive (plain.drop (recordEnd plain)) → motive plain)
    (rest : ∀ plain, ¬ Fronted plain → motive plain) (plain : List UInt8) : motive plain :=
  if h : Fronted plain then
    whole plain h (record_induction whole rest (plain.drop (recordEnd plain)))
  else rest plain h
termination_by plain.length
decreasing_by exact h.rest_lt

/-! ### Whole records -/

theorem wholeRecordsLen_le (plain : List UInt8) : wholeRecordsLen plain ≤ plain.length := by
  induction plain using record_induction with
  | whole plain h ih =>
    have hend := h.2
    rw [List.length_drop] at ih
    rw [wholeRecordsLen_of_whole h]
    omega
  | rest plain h =>
    rw [wholeRecordsLen_of_not h]
    exact Nat.zero_le _

/-- **A text is accepted exactly when it is whole records.** -/
theorem splitRecords_isOk_iff (plain : List UInt8) :
    (∃ records, splitRecords plain = .ok records) ↔ wholeRecordsLen plain = plain.length := by
  induction plain using record_induction with
  | whole plain h ih =>
    have hend := h.2
    have hle := wholeRecordsLen_le (plain.drop (recordEnd plain))
    rw [List.length_drop] at ih hle
    rw [splitRecords_of_whole h, wholeRecordsLen_of_whole h]
    cases hrest : splitRecords (plain.drop (recordEnd plain)) with
    | ok records =>
      have := ih.1 ⟨records, hrest⟩
      exact iff_of_true ⟨_, rfl⟩ (by omega)
    | error e =>
      refine iff_of_false (by rintro ⟨records, hrecords⟩; cases hrecords) fun hlength => ?_
      obtain ⟨records, hrecords⟩ := ih.2 (by omega)
      rw [hrest] at hrecords
      cases hrecords
  | rest plain h =>
    rw [wholeRecordsLen_of_not h]
    by_cases hne : plain = []
    · subst hne
      exact iff_of_true ⟨[], splitRecords_nil⟩ rfl
    · have hpos := List.length_pos_of_ne_nil hne
      refine iff_of_false ?_ (by omega)
      rintro ⟨records, hrecords⟩
      by_cases hshort : plain.length < recordHeaderBytes
      · rw [splitRecords_of_short hne hshort] at hrecords
        cases hrecords
      · rw [splitRecords_of_cut hne (not_lt.1 hshort)
          (not_le.1 fun hend => h ⟨not_lt.1 hshort, hend⟩)] at hrecords
        cases hrecords

theorem claimed_of_prefix {front : List UInt8} (h : front <+: plain)
    (hlong : recordHeaderBytes ≤ front.length) : claimed front = claimed plain := by
  obtain ⟨rest, rfl⟩ := h
  rw [claimed, claimed, List.take_append_of_le_length hlong]

/-- A longer text has no fewer whole records. -/
theorem wholeRecordsLen_mono {front : List UInt8} (h : front <+: plain) :
    wholeRecordsLen front ≤ wholeRecordsLen plain := by
  induction front using record_induction generalizing plain with
  | whole front hfront ih =>
    have hsame : recordEnd front = recordEnd plain := by
      rw [recordEnd, recordEnd, claimed_of_prefix h hfront.1]
    have hplain : Fronted plain :=
      ⟨hfront.1.trans h.length_le, hsame ▸ hfront.2.trans h.length_le⟩
    have hrest : front.drop (recordEnd front) <+: plain.drop (recordEnd front) := by
      obtain ⟨rest, rfl⟩ := h
      exact ⟨rest, (List.drop_append_of_le_length hfront.2).symm⟩
    rw [wholeRecordsLen_of_whole hfront, wholeRecordsLen_of_whole hplain, ← hsame]
    exact Nat.add_le_add_left (ih hrest) _
  | rest front hfront =>
    rw [wholeRecordsLen_of_not hfront]
    exact Nat.zero_le _

/-- Cutting whole records leaves whole records. -/
theorem wholeRecordsLen_take (plain : List UInt8) :
    wholeRecordsLen (plain.take (wholeRecordsLen plain)) = wholeRecordsLen plain := by
  induction plain using record_induction with
  | whole plain h ih =>
    set front := plain.take (wholeRecordsLen plain) with hfront
    have hlength : front.length = wholeRecordsLen plain := by
      rw [hfront, List.length_take, Nat.min_eq_left (wholeRecordsLen_le plain)]
    have hwhole := wholeRecordsLen_of_whole h
    have hheader : recordHeaderBytes ≤ recordEnd plain := Nat.le_add_right _ _
    have hsame : recordEnd front = recordEnd plain := by
      rw [recordEnd, recordEnd, claimed_of_prefix (List.take_prefix _ plain) (by
        rw [← hfront, hlength]
        omega)]
    have hfronted : Fronted front := ⟨by omega, by omega⟩
    have hrest : front.drop (recordEnd plain) =
        (plain.drop (recordEnd plain)).take (wholeRecordsLen (plain.drop (recordEnd plain))) := by
      rw [hfront, List.drop_take, hwhole, Nat.add_sub_cancel_left]
    rw [wholeRecordsLen_of_whole hfronted, hsame, hrest, ih, hwhole]
  | rest plain h =>
    rw [wholeRecordsLen_of_not h, List.take_zero]
    exact wholeRecordsLen_of_not (by decide)

/-- A front of a text that is whole records, and none longer is. -/
structure LongestWhole (plain kept : List UInt8) : Prop where
  isPrefix : kept <+: plain
  splits : ∃ records, splitRecords kept = .ok records
  longest : ∀ front, front <+: plain → (∃ records, splitRecords front = .ok records) →
    front <+: kept

/-- **Where `whole_records_len` cuts.** -/
theorem longestWhole_take (plain : List UInt8) :
    LongestWhole plain (plain.take (wholeRecordsLen plain)) where
  isPrefix := List.take_prefix _ plain
  splits := by
    rw [splitRecords_isOk_iff, wholeRecordsLen_take, List.length_take,
      Nat.min_eq_left (wholeRecordsLen_le plain)]
  longest front hfront hsplits := by
    have hle := wholeRecordsLen_mono hfront
    rw [(splitRecords_isOk_iff front).1 hsplits] at hle
    obtain ⟨rest, rfl⟩ := hfront
    rw [List.take_append, List.take_of_length_le hle]
    exact List.prefix_append _ _

end Queue

end Obsy
