import Mathlib.Data.List.Basic
import Mathlib.Data.Nat.Bitwise
import Mathlib.Tactic.NormNum
import Mathlib.Tactic.Ring

/-!
# Varints

Numbers of 64 bits as bytes of seven bits each, the lowest first; every byte but the last has its
high bit set.

* `putUvarint`/`getUvarint`: to the bytes and back (`getUvarint_put`).
* `Shortens`: what a reader takes of the bytes; a number takes one at least (`getUvarint_shortens`).
-/

namespace Obsy

namespace Bytes

/-- A number as its bytes. -/
def putUvarint (value : BitVec 64) : List UInt8 :=
  if 0x80 ≤ value then (UInt8.ofNat value.toNat ||| 0x80) :: putUvarint (value >>> 7)
  else [UInt8.ofNat value.toNat]
termination_by value.toNat
decreasing_by
  have hge : 128 ≤ value.toNat := by
    have : (0x80 : BitVec 64) ≤ value := by assumption
    exact this
  rw [BitVec.toNat_ushiftRight, Nat.shiftRight_eq_div_pow]
  omega

section

variable {ε : Type} (truncated overlong : ε)

/-- The number at the front of some bytes, after `shift` bits of it that are known. -/
def getUvarintFrom (value : BitVec 64) (shift : ℕ) :
    List UInt8 → Except ε (BitVec 64 × List UInt8)
  | [] => .error truncated
  | byte :: bytes =>
    if 64 ≤ shift then .error overlong
    else
      let value := value ||| (BitVec.ofNat 64 (byte &&& 0x7f).toNat <<< shift)
      if byte &&& 0x80 = 0 then .ok (value, bytes) else getUvarintFrom value (shift + 7) bytes

/-- The number at the front of some bytes. -/
def getUvarint (bytes : List UInt8) : Except ε (BitVec 64 × List UInt8) :=
  getUvarintFrom truncated overlong 0 0 bytes

/-! ### The round trip -/

/-- A byte that another follows. -/
theorem continued (byte : UInt8) :
    (byte ||| 0x80) &&& 0x80 ≠ 0 ∧ ((byte ||| 0x80) &&& 0x7f).toNat = byte.toNat % 128 := by
  have hall : ∀ k : Fin 256, (UInt8.ofNat k.1 ||| 0x80) &&& 0x80 ≠ 0 ∧
      ((UInt8.ofNat k.1 ||| 0x80) &&& 0x7f).toNat = k.1 % 128 := by decide +kernel
  have hbyte := hall ⟨byte.toNat, byte.toNat_lt⟩
  rwa [UInt8.ofNat_toNat] at hbyte

/-- The last byte of a number. -/
theorem last_byte {n : ℕ} (h : n < 128) :
    UInt8.ofNat n &&& 0x80 = 0 ∧ (UInt8.ofNat n &&& 0x7f).toNat = n := by
  have hall : ∀ k : Fin 128, UInt8.ofNat k.1 &&& 0x80 = 0 ∧
      (UInt8.ofNat k.1 &&& 0x7f).toNat = k.1 := by decide +kernel
  exact hall ⟨n, h⟩

/-- Seven bits and the bits above them. -/
theorem low_or_high (value : BitVec 64) (shift : ℕ) :
    (BitVec.ofNat 64 (value.toNat % 128) <<< shift) ||| ((value >>> 7) <<< (shift + 7)) =
      value <<< shift := by
  refine BitVec.eq_of_getLsbD_eq fun i hi => ?_
  have hlow : ∀ j < 64, (BitVec.ofNat 64 (value.toNat % 128)).getLsbD j =
      (decide (j < 7) && value.getLsbD j) := by
    intro j hj
    have hmod : value.toNat % 128 = value.toNat % 2 ^ 7 := rfl
    rw [BitVec.getLsbD_ofNat, hmod, Nat.testBit_mod_two_pow, BitVec.testBit_toNat]
    simp [hj]
  rw [BitVec.getLsbD_or, BitVec.getLsbD_shiftLeft, BitVec.getLsbD_shiftLeft,
    BitVec.getLsbD_shiftLeft, BitVec.getLsbD_ushiftRight, hlow _ (by omega)]
  by_cases hs : i < shift
  · have hs' : i < shift + 7 := by omega
    simp [hs, hs']
  · by_cases hseven : i - shift < 7
    · have hs' : i < shift + 7 := by omega
      simp [hi, hs, hs', hseven]
    · have hs' : ¬ i < shift + 7 := by omega
      have hsum : 7 + (i - (shift + 7)) = i - shift := by omega
      simp [hi, hs, hs', hseven, hsum]

/-- A number is read back behind the bits that are known. -/
theorem getUvarintFrom_put {value : BitVec 64} {known : BitVec 64} {shift : ℕ} (hshift : shift < 64)
    (h : value.toNat < 2 ^ (64 - shift)) (rest : List UInt8) :
    getUvarintFrom truncated overlong known shift (putUvarint value ++ rest) =
      .ok (known ||| value <<< shift, rest) := by
  induction value using putUvarint.induct generalizing known shift with
  | case1 value hge ih =>
    have hlarge : 128 ≤ value.toNat := hge
    -- a number that goes on has room for seven bits more
    have hroom : shift + 7 < 64 := by
      by_contra hnot
      have hle : 2 ^ (64 - shift) ≤ 2 ^ 7 := Nat.pow_le_pow_right (by decide) (by omega)
      omega
    have hhigh : (value >>> 7).toNat < 2 ^ (64 - (shift + 7)) := by
      rw [BitVec.toNat_ushiftRight, Nat.shiftRight_eq_div_pow,
        Nat.div_lt_iff_lt_mul (by decide), ← Nat.pow_add]
      exact h.trans_eq (congrArg (2 ^ ·) (by omega))
    obtain ⟨hmore, hbits⟩ := continued (UInt8.ofNat value.toNat)
    rw [putUvarint, if_pos hge, List.cons_append, getUvarintFrom, if_neg (by omega)]
    simp only [hmore, if_false]
    rw [ih hroom hhigh, hbits, BitVec.or_assoc]
    have hmod : (UInt8.ofNat value.toNat).toNat % 128 = value.toNat % 128 := by
      rw [UInt8.toNat_ofNat']
      omega
    rw [hmod, low_or_high]
  | case2 value hlt =>
    have hsmall : value.toNat < 128 := Nat.lt_of_not_le hlt
    obtain ⟨hend, hbits⟩ := last_byte hsmall
    rw [putUvarint, if_neg hlt, List.singleton_append, getUvarintFrom, if_neg (by omega)]
    simp only [hend, if_true, hbits]
    rw [BitVec.ofNat_toNat, BitVec.setWidth_eq]

/-- **A number is read back**, and the bytes behind it are left. -/
theorem getUvarint_put (value : BitVec 64) (rest : List UInt8) :
    getUvarint truncated overlong (putUvarint value ++ rest) = .ok (value, rest) := by
  have h : getUvarintFrom truncated overlong 0 0 (putUvarint value ++ rest) = _ :=
    getUvarintFrom_put truncated overlong (by decide) value.isLt rest
  simpa [getUvarint] using h

/-! ### What is read -/

variable {truncated overlong}

theorem getUvarintFrom_suffix {known value : BitVec 64} {shift : ℕ} {bytes rest : List UInt8}
    (h : getUvarintFrom truncated overlong known shift bytes = .ok (value, rest)) :
    ∃ front, front ≠ [] ∧ bytes = front ++ rest := by
  induction bytes generalizing known shift with
  | nil => cases h
  | cons byte bytes ih =>
    rw [getUvarintFrom] at h
    split at h
    · cases h
    · split at h
      · obtain ⟨-, rfl⟩ := Prod.mk.inj (Except.ok.inj h)
        exact ⟨[byte], List.cons_ne_nil _ _, rfl⟩
      · obtain ⟨front, -, rfl⟩ := ih h
        exact ⟨byte :: front, List.cons_ne_nil _ _, rfl⟩

/-! ### Readers of bytes -/

/-- If reading succeeds so many bytes at least are behind it. -/
def Shortens {ε α : Type} (count : ℕ) (bytes : List UInt8)
    (read : Except ε (α × List UInt8)) : Prop :=
  ∀ a rest, read = .ok (a, rest) → rest.length + count ≤ bytes.length

namespace Shortens

variable {ε α β : Type} {count more : ℕ} {bytes : List UInt8}

theorem ok (a : α) : Shortens 0 bytes (.ok (a, bytes) : Except ε (α × List UInt8)) := by
  intro a' rest h
  obtain ⟨-, rfl⟩ := Prod.mk.inj (Except.ok.inj h)
  exact le_rfl

theorem error (e : ε) : Shortens count bytes (.error e : Except ε (α × List UInt8)) := by
  intro a rest h
  cases h

theorem mono {read : Except ε (α × List UInt8)} (h : Shortens count bytes read)
    (hle : more ≤ count) : Shortens more bytes read := by
  intro a rest hread
  have := h a rest hread
  omega

theorem bind {read : Except ε (α × List UInt8)}
    {f : α × List UInt8 → Except ε (β × List UInt8)} (h : Shortens count bytes read)
    (hf : ∀ a rest, read = .ok (a, rest) → Shortens more rest (f (a, rest))) :
    Shortens (count + more) bytes (read >>= f) := by
  intro b rest' hread
  cases read with
  | error e => cases hread
  | ok value =>
    obtain ⟨a, rest⟩ := value
    have hfirst := h a rest rfl
    have hsecond := hf a rest rfl b rest' hread
    omega

/-- What comes before a reader takes nothing. -/
theorem after {γ : Type} {before : Except ε γ} {f : γ → Except ε (α × List UInt8)}
    (hf : ∀ c, Shortens count bytes (f c)) : Shortens count bytes (before >>= f) := by
  cases before with
  | error e => exact error e
  | ok c => exact hf c

end Shortens

/-- A number takes a byte at least. -/
theorem getUvarint_shortens (truncated overlong : ε) (bytes : List UInt8) :
    Shortens 1 bytes (getUvarint truncated overlong bytes) := by
  intro value rest h
  obtain ⟨front, hne, rfl⟩ := getUvarintFrom_suffix h
  have hpos := List.length_pos_of_ne_nil hne
  rw [List.length_append]
  omega

end

end Bytes

end Obsy
