import Mathlib.Data.List.Basic
import Mathlib.Tactic.Ring
import Mathlib.Tactic.NormNum

/-!
# Byte streams made of frames

Fixed-width little-endian numbers, streaming checksums, and streams that are the
concatenation of frames.

* `leBytes`/`leNat`: a number of a given width as bytes and back (`leNat_leBytes`).
* `Checksum`: a checksum computed piece by piece; feeding the pieces of a message in order
  gives the checksum of the message (`Checksum.hash_pieces`).
* `stream`: the frames of a list of values, one after the other.  A cut of a stream keeps some
  whole frames and a proper part of the next one (`stream_take`), and the values between a
  frame boundary and the cut are `between` (`between_eq`).
-/

namespace Obsy

namespace Bytes

/-! ### Little-endian numbers -/

/-- The `w` low bytes of `n`, least significant first. -/
def leBytes : ℕ → ℕ → List UInt8
  | 0, _ => []
  | w + 1, n => UInt8.ofNat n :: leBytes w (n / 256)

/-- The number that a list of bytes spells, least significant byte first. -/
def leNat : List UInt8 → ℕ
  | [] => 0
  | b :: bs => b.toNat + 256 * leNat bs

@[simp] theorem length_leBytes (w n : ℕ) : (leBytes w n).length = w := by
  induction w generalizing n with
  | zero => rfl
  | succ w ih => simp [leBytes, ih]

/-- **Little-endian round trip.**  A number that fits the width is read back unchanged. -/
theorem leNat_leBytes {w n : ℕ} (h : n < 256 ^ w) : leNat (leBytes w n) = n := by
  induction w generalizing n with
  | zero => simp only [pow_zero] at h; simp only [leBytes, leNat]; omega
  | succ w ih =>
    have hq : n / 256 < 256 ^ w := by
      rw [pow_succ, Nat.mul_comm] at h
      exact Nat.div_lt_of_lt_mul h
    simp only [leBytes, leNat, ih hq]
    simp only [UInt8.toNat_ofNat']
    omega

theorem leNat_lt (bs : List UInt8) : leNat bs < 256 ^ bs.length := by
  induction bs with
  | nil => simp [leNat]
  | cons b bs ih =>
    have hb : b.toNat < 256 := b.toNat_lt
    simp only [leNat, List.length_cons, pow_succ]
    omega

/-- The bytes that spell a number are the number's bytes. -/
theorem leBytes_leNat (bs : List UInt8) : leBytes bs.length (leNat bs) = bs := by
  induction bs with
  | nil => rfl
  | cons b bs ih =>
    have hb : b.toNat < 256 := b.toNat_lt
    have hlow : UInt8.ofNat (b.toNat + 256 * leNat bs) = b := by
      apply UInt8.toNat.inj
      simp only [UInt8.toNat_ofNat']
      omega
    have hhigh : (b.toNat + 256 * leNat bs) / 256 = leNat bs := by omega
    simp only [List.length_cons, leNat, leBytes, hlow, hhigh, ih]

/-! ### Streaming checksums -/

/-- A checksum fed piece by piece: a state, the state after one more piece, and the 32-bit
value read off at the end.  Feeding two pieces is feeding their concatenation. -/
structure Checksum where
  /-- The state of the hasher. -/
  State : Type
  /-- The state before the first piece. -/
  init : State
  /-- The state after one more piece. -/
  update : State → List UInt8 → State
  /-- The checksum of what was fed so far. -/
  finalize : State → UInt32
  /-- How a message is cut into pieces does not matter. -/
  update_append : ∀ s xs ys, update s (xs ++ ys) = update (update s xs) ys

/-- The checksum of a message in one piece. -/
def Checksum.hash (C : Checksum) (bytes : List UInt8) : UInt32 :=
  C.finalize (C.update C.init bytes)

/-- **Hashing the pieces hashes the message.** -/
theorem Checksum.hash_pieces (C : Checksum) (xs : List UInt8) (pieces : List (List UInt8)) :
    C.finalize (pieces.foldl C.update (C.update C.init xs)) = C.hash (xs ++ pieces.flatten) := by
  induction pieces generalizing xs with
  | nil => simp [Checksum.hash]
  | cons p ps ih =>
    rw [List.foldl_cons, ← C.update_append, ih]
    simp

/-- One byte into the reflected CRC-32 register. -/
def crc32Byte (crc : UInt32) (byte : UInt8) : UInt32 :=
  (List.range 8).foldl
    (fun c _ => if c &&& 1 = 1 then (c >>> 1) ^^^ 0xEDB88320 else c >>> 1)
    (crc ^^^ byte.toUInt32)

/-- The CRC-32 of IEEE 802.3 as a streaming checksum. -/
def crc32 : Checksum where
  State := UInt32
  init := 0xFFFFFFFF
  update := fun s bytes => bytes.foldl crc32Byte s
  finalize := fun s => s ^^^ 0xFFFFFFFF
  update_append := fun _ _ _ => List.foldl_append

/-- The check value of CRC-32: the checksum of the digits `123456789`. -/
example : crc32.hash [49, 50, 51, 52, 53, 54, 55, 56, 57] = 0xCBF43926 := by
  decide +kernel

/-! ### Streams of frames -/

section Stream

variable {α β : Type*} (frame : α → List β)

/-- The frames of `xs`, one after the other. -/
def stream (xs : List α) : List β := xs.flatMap frame

/-- The longest prefix of `xs` whose frames fit in the first `n` elements of the stream. -/
def wholePrefix : ℕ → List α → List α
  | _, [] => []
  | n, x :: xs =>
    if (frame x).length ≤ n then x :: wholePrefix (n - (frame x).length) xs else []

/-- The values of `xs` whose frames lie in the window from `lo` to `hi` of a stream that
starts at `off`. -/
def between (lo hi : ℕ) : ℕ → List α → List α
  | _, [] => []
  | off, x :: xs =>
    if lo ≤ off ∧ off + (frame x).length ≤ hi then
      x :: between lo hi (off + (frame x).length) xs
    else between lo hi (off + (frame x).length) xs

variable {frame}

@[simp] theorem stream_nil : stream frame [] = [] := rfl

@[simp] theorem stream_cons (x : α) (xs : List α) :
    stream frame (x :: xs) = frame x ++ stream frame xs := rfl

@[simp] theorem stream_append (xs ys : List α) :
    stream frame (xs ++ ys) = stream frame xs ++ stream frame ys :=
  List.flatMap_append

/-- **What a cut leaves.**  The first `n` elements of a stream are the frames that fit, and
then nothing or a proper part of the next frame. -/
theorem stream_take (frame : α → List β) (n : ℕ) (xs : List α) :
    ∃ torn, (stream frame xs).take n = stream frame (wholePrefix frame n xs) ++ torn ∧
      (torn = [] ∨ ∃ x, x ∈ xs ∧ torn <+: frame x ∧ torn.length < (frame x).length) := by
  induction xs generalizing n with
  | nil => exact ⟨[], by simp [wholePrefix], .inl rfl⟩
  | cons x xs ih =>
    by_cases hx : (frame x).length ≤ n
    · obtain ⟨torn, heq, htorn⟩ := ih (n - (frame x).length)
      refine ⟨torn, ?_, ?_⟩
      · simp only [wholePrefix, hx, if_true, stream_cons, List.take_append, heq,
          List.take_of_length_le hx, List.append_assoc]
      · rcases htorn with rfl | ⟨y, hy, hpre, hlen⟩
        · exact .inl rfl
        · exact .inr ⟨y, List.mem_cons_of_mem _ hy, hpre, hlen⟩
    · refine ⟨(frame x).take n, ?_, .inr ⟨x, List.mem_cons_self, List.take_prefix _ _, ?_⟩⟩
      · have hz : n - (frame x).length = 0 := by omega
        simp [wholePrefix, hx, List.take_append, hz]
      · rw [List.length_take]; omega

theorem wholePrefix_prefix (n : ℕ) (xs : List α) : wholePrefix frame n xs <+: xs := by
  induction xs generalizing n with
  | nil => exact List.prefix_refl _
  | cons x xs ih =>
    simp only [wholePrefix]
    split_ifs
    · exact (List.prefix_cons_inj x).2 (ih _)
    · exact List.nil_prefix

theorem between_of_hi_lt (hpos : ∀ x, frame x ≠ []) {lo hi off : ℕ} (h : hi ≤ off)
    (xs : List α) : between frame lo hi off xs = [] := by
  induction xs generalizing off with
  | nil => rfl
  | cons x xs ih =>
    have hx := List.length_pos_of_ne_nil (hpos x)
    simp only [between]
    rw [if_neg (by omega), ih (by omega)]

/-- From a boundary on, the window holds the frames that fit. -/
theorem between_eq_wholePrefix (hpos : ∀ x, frame x ≠ []) {lo hi off : ℕ} (hlo : lo ≤ off)
    (hhi : off ≤ hi) (xs : List α) :
    between frame lo hi off xs = wholePrefix frame (hi - off) xs := by
  induction xs generalizing off with
  | nil => rfl
  | cons x xs ih =>
    have hx := List.length_pos_of_ne_nil (hpos x)
    simp only [between, wholePrefix]
    by_cases hfit : off + (frame x).length ≤ hi
    · rw [if_pos ⟨hlo, hfit⟩, if_pos (by omega), ih (by omega) hfit]
      congr 2
      omega
    · rw [if_neg (by omega), if_neg (by omega)]
      by_cases hle : hi ≤ off + (frame x).length
      · exact between_of_hi_lt hpos hle xs
      · omega

/-- Frames before the window contribute nothing. -/
theorem between_stream_append (hpos : ∀ x, frame x ≠ []) {lo hi : ℕ} (pre xs : List α) (off : ℕ)
    (hlo : off + (stream frame pre).length ≤ lo) :
    between frame lo hi off (pre ++ xs) =
      between frame lo hi (off + (stream frame pre).length) xs := by
  induction pre generalizing off with
  | nil => simp
  | cons x pre ih =>
    have hx := List.length_pos_of_ne_nil (hpos x)
    simp only [stream_cons, List.length_append] at hlo
    simp only [List.cons_append, between]
    rw [if_neg (by omega), ih _ (by omega)]
    congr 1
    simp only [stream_cons, List.length_append]
    omega

/-- **The window of a stream.**  Between the boundary after `pre` and a cut at `hi` lie the
frames of the rest that fit. -/
theorem between_eq (hpos : ∀ x, frame x ≠ []) {hi : ℕ} (pre xs : List α)
    (hhi : (stream frame pre).length ≤ hi) :
    between frame (stream frame pre).length hi 0 (pre ++ xs) =
      wholePrefix frame (hi - (stream frame pre).length) xs := by
  rw [between_stream_append hpos _ _ _ (by omega), Nat.zero_add,
    between_eq_wholePrefix hpos le_rfl hhi]

end Stream

end Bytes

end Obsy
