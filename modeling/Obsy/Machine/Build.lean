import Mathlib.Data.BitVec

/-!
# Builds

What a plain operator does when its result does not fit, and what the allocator grants: a build with
overflow checks stops there, one without them wraps.

* `Build`, `Stop`: a build, and why a computation gives no result.
* `Build.add`, `Build.sub8`, `Build.shiftLeft`, `Build.reserve`: the operations that may stop.
-/

namespace Obsy

namespace Machine

/-- How the code was built, and the memory it runs in. -/
structure Build where
  /-- Whether an operation stops the program when it overflows. -/
  checks : Bool
  /-- Whether room for so many elements can be reserved. -/
  room : ℕ → Bool

/-- No checks, and memory for everything. -/
def Build.release : Build := ⟨false, fun _ => true⟩

/-- Why there is no result. -/
inductive Stop (ε : Type)
  /-- The code returns an error. -/
  | refused (error : ε)
  /-- An operation overflowed. -/
  | overflow
  /-- A reservation was not granted. -/
  | noRoom
deriving DecidableEq

variable {ε : Type}

/-- The end of a computation by an overflow or for want of memory. -/
def Stop.isFault : Stop ε → Bool
  | refused _ => false
  | _ => true

namespace Build

variable (build : Build)

/-- `+` of two `i64`. -/
def add (a b : BitVec 64) : Except (Stop ε) (BitVec 64) :=
  if build.checks && a.saddOverflow b then .error .overflow else .ok (a + b)

/-- `-` of two `u8`. -/
def sub8 (a b : UInt8) : Except (Stop ε) UInt8 :=
  if build.checks && decide (a < b) then .error .overflow else .ok (a - b)

/-- `<<` of a `u64`, which looks at six bits of the distance. -/
def shiftLeft (value : BitVec 64) (distance : UInt8) : Except (Stop ε) (BitVec 64) :=
  if build.checks && decide (64 ≤ distance) then .error .overflow
  else .ok (value <<< (distance.toNat % 64))

/-- `Vec::with_capacity`. -/
def reserve (count : ℕ) : Except (Stop ε) Unit :=
  if build.room count then .ok () else .error .noRoom

variable {build}

theorem add_of_fits {a b : BitVec 64} (h : -2 ^ 63 ≤ a.toInt + b.toInt ∧ a.toInt + b.toInt < 2 ^ 63) :
    (build.add a b : Except (Stop ε) (BitVec 64)) = .ok (a + b) ∧
      (a + b).toInt = a.toInt + b.toInt := by
  have hnot : ¬ a.saddOverflow b = true := by
    simp only [BitVec.saddOverflow, Bool.or_eq_true, decide_eq_true_eq]
    omega
  refine ⟨?_, BitVec.toInt_add_of_not_saddOverflow hnot⟩
  rw [add, Bool.eq_false_iff.2 hnot, Bool.and_false]
  rfl

theorem add_of_not_fits (hchecks : build.checks = true) {a b : BitVec 64}
    (h : ¬ (-2 ^ 63 ≤ a.toInt + b.toInt ∧ a.toInt + b.toInt < 2 ^ 63)) :
    (build.add a b : Except (Stop ε) (BitVec 64)) = .error .overflow := by
  have hover : a.saddOverflow b = true := by
    simp only [BitVec.saddOverflow, Bool.or_eq_true, decide_eq_true_eq]
    omega
  rw [add, hchecks, hover]
  rfl

theorem sub8_of_le {a b : UInt8} (h : b.toNat ≤ a.toNat) :
    (build.sub8 a b : Except (Stop ε) UInt8) = .ok (a - b) := by
  have hnot : ¬ a < b := UInt8.not_lt.2 h
  rw [sub8, decide_eq_false hnot, Bool.and_false]
  rfl

theorem sub8_of_lt (hchecks : build.checks = true) {a b : UInt8} (h : a.toNat < b.toNat) :
    (build.sub8 a b : Except (Stop ε) UInt8) = .error .overflow := by
  have hlt : a < b := h
  rw [sub8, hchecks, decide_eq_true hlt]
  rfl

theorem shiftLeft_of_lt (value : BitVec 64) {distance : UInt8} (h : distance.toNat < 64) :
    (build.shiftLeft value distance : Except (Stop ε) (BitVec 64)) =
      .ok (value <<< distance.toNat) := by
  have hnot : ¬ 64 ≤ distance := UInt8.not_le.2 h
  rw [shiftLeft, decide_eq_false hnot, Bool.and_false, Nat.mod_eq_of_lt h]
  rfl

@[simp] theorem release_add (a b : BitVec 64) :
    (release.add a b : Except (Stop ε) (BitVec 64)) = .ok (a + b) := rfl

@[simp] theorem release_sub8 (a b : UInt8) :
    (release.sub8 a b : Except (Stop ε) UInt8) = .ok (a - b) := rfl

@[simp] theorem release_shiftLeft (value : BitVec 64) (distance : UInt8) :
    (release.shiftLeft value distance : Except (Stop ε) (BitVec 64)) =
      .ok (value <<< (distance.toNat % 64)) := rfl

@[simp] theorem release_reserve (count : ℕ) :
    (release.reserve count : Except (Stop ε) Unit) = .ok () := rfl

end Build

end Machine

end Obsy
