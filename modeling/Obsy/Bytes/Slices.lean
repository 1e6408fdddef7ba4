import Mathlib.Data.Nat.Bitwise
import Obsy.Bytes.Framing

/-!
# Slices of bytes

A reader of bytes ends with a value, with an error that it returns, or in a panic.

* `getRange`, `slice`, `byteAt`: the ways to look at bytes, by a range or an index.
* `Total`: a reader that never panics, with what holds of its values; `Returns`: one that always
  has a value.  Both are closed under sequencing (`Total.bind`, `Returns.bind`).
* `At`: bytes at a position of others; they are what a range there gives (`At.getRange_eq`).
* `packBits`: bits in bytes, the first of eight in the lowest place.  A bit is asked for
  (`land_packBits`) and set (`packBits_set`) in the byte that holds it.
-/

namespace Obsy

namespace Bytes

/-- Why a reader has no value. -/
inductive Fault where
  | error (message : String)
  | panic
deriving DecidableEq

/-! ### Readers without panics -/

variable {α β : Type}

/-- The reader returns, and what it reads is as stated. -/
def Total (P : α → Prop) : Except Fault α → Prop
  | .ok a => P a
  | .error (.error _) => True
  | .error .panic => False

namespace Total

variable {P : α → Prop} {Q : β → Prop} {reader : Except Fault α}

theorem mono {P' : α → Prop} (h : Total P reader) (himp : ∀ a, P a → P' a) : Total P' reader := by
  rcases reader with (_ | _) | a
  · trivial
  · exact h
  · exact himp a h

theorem bind {f : α → Except Fault β} (h : Total P reader) (hf : ∀ a, P a → Total Q (f a)) :
    Total Q (reader >>= f) := by
  rcases reader with (_ | _) | a
  · trivial
  · exact h.elim
  · exact hf a h

theorem map {f : α → β} (h : Total P reader) (hf : ∀ a, P a → Q (f a)) :
    Total Q (f <$> reader) := by
  rcases reader with (_ | _) | a
  · trivial
  · exact h.elim
  · exact hf a h

theorem ite {c : Prop} [Decidable c] {first second : Except Fault α} (h : c → Total P first)
    (h' : ¬ c → Total P second) : Total P (if c then first else second) := by
  by_cases hc : c
  · rw [if_pos hc]
    exact h hc
  · rw [if_neg hc]
    exact h' hc

theorem ne_panic (h : Total P reader) : reader ≠ .error .panic := by
  rintro rfl
  exact h

theorem of_ok {a : α} (h : Total P reader) (hok : reader = .ok a) : P a := by
  subst hok
  exact h

end Total

/-- The reader returns a value. -/
def Returns (reader : Except Fault α) : Prop := ∃ a, reader = .ok a

namespace Returns

variable {reader : Except Fault α}

theorem ok (a : α) : Returns (.ok a) := ⟨a, rfl⟩

theorem bind {f : α → Except Fault β} (h : Returns reader) (hf : ∀ a, Returns (f a)) :
    Returns (reader >>= f) := by
  obtain ⟨a, rfl⟩ := h
  exact hf a

theorem map {f : α → β} (h : Returns reader) : Returns (f <$> reader) := by
  obtain ⟨a, rfl⟩ := h
  exact .ok (f a)

theorem ite {c : Prop} [Decidable c] {first second : Except Fault α} (h : c → Returns first)
    (h' : ¬ c → Returns second) : Returns (if c then first else second) := by
  by_cases hc : c
  · rw [if_pos hc]
    exact h hc
  · rw [if_neg hc]
    exact h' hc

end Returns

/-! ### Ranges -/

/-- `a + b` of two `usize`. -/
def addUsize (a b : ℕ) : Except Fault ℕ := if a + b < 2 ^ 64 then .ok (a + b) else .error .panic

/-- `a.checked_add(b)` of two `usize`, with the message where there is no sum. -/
def checkedAdd (message : String) (a b : ℕ) : Except Fault ℕ :=
  if a + b < 2 ^ 64 then .ok (a + b) else .error (.error message)

/-- `u32::try_from`. -/
def tryU32 (message : String) (n : ℕ) : Except Fault ℕ :=
  if n < 2 ^ 32 then .ok n else .error (.error message)

/-- `bytes.get(start..stop)`. -/
def getRange (bytes : List UInt8) (start stop : ℕ) : Option (List UInt8) :=
  if start ≤ stop ∧ stop ≤ bytes.length then some ((bytes.drop start).take (stop - start)) else none

/-- `bytes.get(start..stop)`, with the message where there is no such range. -/
def tryRange (message : String) (bytes : List UInt8) (start stop : ℕ) : Except Fault (List UInt8) :=
  match getRange bytes start stop with
  | some range => .ok range
  | none => .error (.error message)

/-- `bytes[start..stop]`. -/
def slice (bytes : List UInt8) (start stop : ℕ) : Except Fault (List UInt8) :=
  match getRange bytes start stop with
  | some range => .ok range
  | none => .error .panic

/-- `bytes[i]`. -/
def byteAt (bytes : List UInt8) (i : ℕ) : Except Fault UInt8 :=
  match bytes[i]? with
  | some byte => .ok byte
  | none => .error .panic

variable {bytes : List UInt8} {start stop : ℕ}

theorem addUsize_of_lt {a b : ℕ} (h : a + b < 2 ^ 64) : addUsize a b = .ok (a + b) := if_pos h

theorem total_addUsize {a b : ℕ} (h : a + b < 2 ^ 64) : Total (· = a + b) (addUsize a b) := by
  rw [addUsize_of_lt h]
  rfl

theorem checkedAdd_of_lt {a b : ℕ} (message : String) (h : a + b < 2 ^ 64) :
    checkedAdd message a b = .ok (a + b) := if_pos h

theorem total_checkedAdd (message : String) (a b : ℕ) :
    Total (· = a + b) (checkedAdd message a b) := by
  rw [checkedAdd]
  split
  · rfl
  · trivial

theorem tryU32_of_lt {n : ℕ} (message : String) (h : n < 2 ^ 32) : tryU32 message n = .ok n := if_pos h

theorem total_tryU32 (message : String) (n : ℕ) :
    Total (fun m => m = n ∧ n < 2 ^ 32) (tryU32 message n) := by
  rw [tryU32]
  split
  · exact ⟨rfl, by assumption⟩
  · trivial

theorem getRange_of_le (h : start ≤ stop ∧ stop ≤ bytes.length) :
    getRange bytes start stop = some ((bytes.drop start).take (stop - start)) := if_pos h

theorem getRange_eq_some {range : List UInt8} (h : getRange bytes start stop = some range) :
    start ≤ stop ∧ stop ≤ bytes.length ∧ range = (bytes.drop start).take (stop - start) := by
  rw [getRange] at h
  split at h
  case isTrue hle => exact ⟨hle.1, hle.2, (Option.some.inj h).symm⟩
  case isFalse => cases h

theorem length_range (h : start ≤ stop ∧ stop ≤ bytes.length) :
    ((bytes.drop start).take (stop - start)).length = stop - start := by
  rw [List.length_take, List.length_drop]
  omega

theorem total_tryRange (message : String) (bytes : List UInt8) (start stop : ℕ) :
    Total (fun range => start ≤ stop ∧ stop ≤ bytes.length ∧
      range = (bytes.drop start).take (stop - start)) (tryRange message bytes start stop) := by
  rw [tryRange]
  cases h : getRange bytes start stop with
  | none => trivial
  | some range => exact getRange_eq_some h

theorem slice_of_le (h : start ≤ stop ∧ stop ≤ bytes.length) :
    slice bytes start stop = .ok ((bytes.drop start).take (stop - start)) := by
  rw [slice, getRange_of_le h]

theorem total_slice (h : start ≤ stop ∧ stop ≤ bytes.length) :
    Total (· = (bytes.drop start).take (stop - start)) (slice bytes start stop) := by
  rw [slice_of_le h]
  rfl

/-- The number that a range spells. -/
theorem total_leNat_slice (h : start ≤ stop ∧ stop ≤ bytes.length) :
    Total (· = leNat ((bytes.drop start).take (stop - start))) (leNat <$> slice bytes start stop) :=
  .map (total_slice h) fun _ hrange => congrArg leNat hrange

theorem byteAt_of_getElem? {i : ℕ} {byte : UInt8} (h : bytes[i]? = some byte) :
    byteAt bytes i = .ok byte := by
  rw [byteAt, h]

/-! ### Bytes at a position -/

/-- Some bytes are at a position of others. -/
def At (bytes : List UInt8) (pos : ℕ) (piece : List UInt8) : Prop :=
  ∃ before after, bytes = before ++ (piece ++ after) ∧ before.length = pos

namespace At

variable {pos : ℕ} {piece rest : List UInt8}

theorem le (h : At bytes pos piece) : pos + piece.length ≤ bytes.length := by
  obtain ⟨before, after, rfl, rfl⟩ := h
  simp

theorem left (h : At bytes pos (piece ++ rest)) : At bytes pos piece := by
  obtain ⟨before, after, rfl, hpos⟩ := h
  exact ⟨before, rest ++ after, by rw [List.append_assoc], hpos⟩

theorem right (h : At bytes pos (piece ++ rest)) : At bytes (pos + piece.length) rest := by
  obtain ⟨before, after, rfl, rfl⟩ := h
  exact ⟨before ++ piece, after, by simp, by simp⟩

theorem take_drop (h : At bytes pos piece) : (bytes.drop pos).take piece.length = piece := by
  obtain ⟨before, after, rfl, rfl⟩ := h
  rw [List.drop_left, List.take_left]

theorem getRange_eq (h : At bytes pos piece) :
    getRange bytes pos (pos + piece.length) = some piece := by
  rw [getRange_of_le ⟨by omega, h.le⟩, Nat.add_sub_cancel_left, h.take_drop]

theorem tryRange_eq (h : At bytes pos piece) (message : String) :
    tryRange message bytes pos (pos + piece.length) = .ok piece := by
  rw [tryRange, h.getRange_eq]

theorem slice_eq (h : At bytes pos piece) : slice bytes pos (pos + piece.length) = .ok piece := by
  rw [slice, h.getRange_eq]

/-- Bytes at a position of a part of the bytes. -/
theorem within {inner : List UInt8} {start : ℕ} (h : At inner pos piece) (hin : At bytes start inner) :
    At bytes (start + pos) piece := by
  obtain ⟨before, after, rfl, rfl⟩ := h
  have := hin.right
  exact this.left

end At

theorem at_zero (piece rest : List UInt8) : At (piece ++ rest) 0 piece := ⟨[], rest, rfl, rfl⟩

theorem at_self (piece : List UInt8) : At piece 0 piece := ⟨[], [], by simp, rfl⟩

/-! ### Bits in bytes -/

/-- Eight bits as a byte, the first in the lowest place. -/
def packByte (bits : Fin 8 → Bool) : UInt8 := UInt8.ofNat (Nat.ofBits bits)

/-- The bits of whole bytes. -/
def packBits (bits : List Bool) : List UInt8 :=
  (List.range (bits.length / 8)).map fun j => packByte fun r => bits.getD (8 * j + r) false

theorem toNat_packByte (bits : Fin 8 → Bool) : (packByte bits).toNat = Nat.ofBits bits := by
  rw [packByte, UInt8.toNat_ofNat']
  exact Nat.mod_eq_of_lt (Nat.ofBits_lt_two_pow bits)

/-- Whether `1 << r` is in a byte. -/
theorem land_shift_eq_zero (byte : UInt8) {r : ℕ} (h : r < 8) :
    byte &&& (1 <<< UInt8.ofNat r) = 0 ↔ byte.toNat.testBit r = false := by
  have hall : ∀ k : Fin 256, ∀ r : Fin 8,
      UInt8.ofNat k.1 &&& (1 <<< UInt8.ofNat r.1) = 0 ↔ k.1.testBit r.1 = false := by decide +kernel
  have hbyte := hall ⟨byte.toNat, byte.toNat_lt⟩ ⟨r, h⟩
  rwa [UInt8.ofNat_toNat] at hbyte

@[simp] theorem length_packBits (bits : List Bool) : (packBits bits).length = bits.length / 8 := by
  rw [packBits, List.length_map, List.length_range]

theorem getElem?_packBits {bits : List Bool} {j : ℕ} (h : j < bits.length / 8) :
    (packBits bits)[j]? = some (packByte fun r => bits.getD (8 * j + r) false) := by
  rw [packBits, List.getElem?_map, List.getElem?_range h]
  rfl

theorem testBit_packByte (bits : Fin 8 → Bool) {r : ℕ} (h : r < 8) :
    (packByte bits).toNat.testBit r = bits ⟨r, h⟩ := by
  rw [toNat_packByte, Nat.testBit_ofBits_lt _ _ h]

/-- A bit is in the byte that holds it. -/
theorem land_packBits {bits : List Bool} {i : ℕ} (hi : i / 8 < bits.length / 8) :
    ∃ byte, (packBits bits)[i / 8]? = some byte ∧
      (byte &&& (1 <<< UInt8.ofNat (i % 8)) = 0 ↔ bits.getD i false = false) := by
  refine ⟨_, getElem?_packBits hi, ?_⟩
  have hlt : i % 8 < 8 := Nat.mod_lt _ (by decide)
  rw [land_shift_eq_zero _ hlt, testBit_packByte _ hlt]
  simp only [Nat.div_add_mod]

end Bytes

end Obsy
