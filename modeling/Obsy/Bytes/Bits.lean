import Mathlib.Data.List.Basic
import Mathlib.Data.Nat.Bitwise
import Mathlib.Tactic.Ring

/-!
# Bit streams in bytes

Bits fill each byte from its high end.

* `unpack`: the bits of some bytes.
* `field`: the low bits of a number, the most significant first.
* `BitWriter`: a writer that sets bits in its last byte (`BitWriter.Wrote`).
* `BitReader`: a reader at a position (`BitReader.readBits_field`), which takes what it reads
  (`BitReader.Takes`).
* `Codes`: a writer and a reader that agree; they compose (`Codes.bind`).
-/

namespace Obsy

namespace Bytes

def unpackByte (b : UInt8) : List Bool := (List.range 8).map fun i => b.toNat.testBit (7 - i)

/-- The bits of some bytes. -/
def unpack (bytes : List UInt8) : List Bool := bytes.flatMap unpackByte

@[simp] theorem length_unpackByte (b : UInt8) : (unpackByte b).length = 8 := by simp [unpackByte]

@[simp] theorem length_unpack (bytes : List UInt8) : (unpack bytes).length = 8 * bytes.length := by
  induction bytes with
  | nil => rfl
  | cons b bytes ih =>
    rw [unpack, List.flatMap_cons, List.length_append, length_unpackByte, List.length_cons]
    rw [unpack] at ih
    omega

theorem unpack_append (xs ys : List UInt8) : unpack (xs ++ ys) = unpack xs ++ unpack ys :=
  List.flatMap_append

/-- The bit at a position is in the byte that holds the position. -/
theorem unpack_getElem? (bytes : List UInt8) (position : ℕ) :
    (unpack bytes)[position]? =
      (bytes[position / 8]?).map fun b => b.toNat.testBit (7 - position % 8) := by
  induction bytes generalizing position with
  | nil => rfl
  | cons b bytes ih =>
    rw [unpack, List.flatMap_cons]
    by_cases h : position < 8
    · rw [List.getElem?_append_left (by simpa using h), unpackByte, List.getElem?_map,
        List.getElem?_range h, Nat.div_eq_of_lt h, Nat.mod_eq_of_lt h]
      rfl
    · obtain ⟨rest, rfl⟩ := Nat.exists_eq_add_of_le (not_lt.1 h)
      rw [List.getElem?_append_right (by simp), length_unpackByte, Nat.add_sub_cancel_left,
        Nat.add_div_left _ (by decide), Nat.add_mod_left, List.getElem?_cons_succ]
      exact ih rest

/-! ### Fields -/

/-- The low `count` bits of a number, the most significant first. -/
def field : ℕ → ℕ → List Bool
  | 0, _ => []
  | count + 1, value => value.testBit count :: field count value

@[simp] theorem length_field (count value : ℕ) : (field count value).length = count := by
  induction count with
  | zero => rfl
  | succ count ih => rw [field, List.length_cons, ih]

/-! ### Writing -/

/-- Bytes, and how many bits of the last one are free. -/
structure BitWriter where
  bytes : List UInt8
  free : ℕ
deriving DecidableEq

namespace BitWriter

def new : BitWriter := ⟨[], 0⟩

def writeBit (w : BitWriter) (bit : Bool) : BitWriter :=
  let bytes := if w.free = 0 then w.bytes ++ [0] else w.bytes
  let free := if w.free = 0 then 8 else w.free
  ⟨if bit then bytes.modify (bytes.length - 1) fun last => last ||| 1 <<< UInt8.ofNat (free - 1)
    else bytes, free - 1⟩

/-- The low `count` bits of a value, the most significant first. -/
def writeBits (w : BitWriter) (value : ℕ) : ℕ → BitWriter
  | 0 => w
  | count + 1 => (w.writeBit (value.testBit count)).writeBits value count

/-- The bits that were written; the free ones are zero. -/
structure Wrote (w : BitWriter) (bits : List Bool) : Prop where
  free_lt : w.free < 8
  bits_eq : unpack w.bytes = bits ++ List.replicate w.free false

theorem wrote_new : new.Wrote [] := ⟨by decide, rfl⟩

/-- Setting one bit of a byte. -/
theorem unpackByte_or (b : UInt8) {k : ℕ} (hk : k < 8) :
    unpackByte (b ||| 1 <<< UInt8.ofNat k) = (unpackByte b).set (7 - k) true := by
  refine List.ext_getElem (by simp) fun i hi hi' => ?_
  have hi8 : i < 8 := by simpa using hi
  have hshift : (1 <<< UInt8.ofNat k : UInt8).toNat = 2 ^ k := by
    have hall : ∀ k < 8, (1 <<< UInt8.ofNat k : UInt8).toNat = 2 ^ k := by decide
    exact hall k hk
  rw [List.getElem_set]
  simp only [unpackByte, List.getElem_map, List.getElem_range, UInt8.toNat_or, Nat.testBit_or,
    hshift, Nat.testBit_two_pow]
  split
  case isTrue heq =>
    subst heq
    have : k = 7 - (7 - k) := by omega
    simp [← this]
  case isFalse hne =>
    have : k ≠ 7 - i := by omega
    simp [this]

theorem writeBit_room {bytes : List UInt8} {last : UInt8} {free : ℕ} {bits : List Bool}
    (hpos : 0 < free) (hle : free ≤ 8)
    (hbits : unpack (bytes ++ [last]) = bits ++ List.replicate free false) (bit : Bool) :
    unpack (if bit then (bytes ++ [last]).modify ((bytes ++ [last]).length - 1)
        fun last => last ||| 1 <<< UInt8.ofNat (free - 1) else bytes ++ [last])
      = bits ++ [bit] ++ List.replicate (free - 1) false := by
  obtain ⟨room, rfl⟩ := Nat.exists_eq_add_of_lt hpos
  rw [Nat.zero_add] at hbits ⊢
  rw [Nat.add_sub_cancel]
  have hsplit : List.replicate (room + 1) false = [false] ++ List.replicate room false := rfl
  cases bit with
  | false =>
    rw [if_neg Bool.false_ne_true, hbits, hsplit, List.append_assoc]
  | true =>
    have hmodify : (bytes ++ [last]).modify ((bytes ++ [last]).length - 1)
        (fun last => last ||| 1 <<< UInt8.ofNat room)
          = bytes ++ [last ||| 1 <<< UInt8.ofNat room] := by
      rw [List.length_append, List.length_singleton, Nat.add_sub_cancel, List.modify_eq_take_cons_drop
        (by simp), List.take_left' rfl, List.drop_eq_nil_of_le (by simp)]
      simp
    rw [if_pos rfl, hmodify, unpack_append]
    rw [unpack_append] at hbits
    -- the bits before the free ones end in the last byte
    have hlast : unpack [last] = unpackByte last := List.flatMap_singleton ..
    have hset : unpack [last ||| 1 <<< UInt8.ofNat room] = (unpackByte last).set (7 - room) true := by
      rw [← unpackByte_or last (by omega)]
      exact List.flatMap_singleton ..
    have hlen := congrArg List.length hbits
    rw [hlast] at hbits hlen
    simp only [List.length_append, length_unpack, length_unpackByte, List.length_replicate] at hlen
    have hposition : (unpack bytes ++ unpackByte last).set (bits.length) true
        = unpack bytes ++ (unpackByte last).set (7 - room) true := by
      rw [List.set_append_right _ _ (by rw [length_unpack]; omega), length_unpack]
      congr 2
      omega
    rw [hset, ← hposition, hbits, List.set_append_right _ _ (le_refl _), Nat.sub_self,
      List.append_assoc]
    rfl

theorem Wrote.writeBit {w : BitWriter} {bits : List Bool} (h : w.Wrote bits) (bit : Bool) :
    (w.writeBit bit).Wrote (bits ++ [bit]) := by
  obtain ⟨bytes, free⟩ := w
  obtain ⟨hlt, hbits⟩ := h
  dsimp only at hlt hbits
  rw [BitWriter.writeBit]
  by_cases hfull : free = 0
  · subst hfull
    rw [List.replicate_zero, List.append_nil] at hbits
    have hbits' : unpack (bytes ++ [0]) = bits ++ List.replicate 8 false := by
      rw [unpack_append, hbits]
      rfl
    have hroom := writeBit_room (by decide) (le_refl 8) hbits' bit
    simp only [if_true]
    exact ⟨(by decide : 8 - 1 < 8), hroom⟩
  · have hne : bytes ≠ [] := by
      rintro rfl
      have := congrArg List.length hbits
      simp only [unpack, List.flatMap_nil, List.length_nil, List.length_append,
        List.length_replicate] at this
      omega
    obtain ⟨front, last, rfl⟩ : ∃ front last, bytes = front ++ [last] :=
      ⟨_, _, (List.dropLast_append_getLast hne).symm⟩
    have hroom := writeBit_room (Nat.pos_of_ne_zero hfull) (by omega) hbits bit
    simp only [if_neg hfull]
    exact ⟨by dsimp only; omega, hroom⟩

theorem Wrote.writeBits {w : BitWriter} {bits : List Bool} (h : w.Wrote bits) (value count : ℕ) :
    (w.writeBits value count).Wrote (bits ++ field count value) := by
  induction count generalizing w bits with
  | zero => rwa [field, List.append_nil]
  | succ count ih =>
    have hrest := ih (h.writeBit (value.testBit count))
    rwa [List.append_assoc, List.singleton_append] at hrest

/-- Writing takes no byte away. -/
theorem length_le_writeBit (w : BitWriter) (bit : Bool) :
    w.bytes.length ≤ (w.writeBit bit).bytes.length := by
  rw [writeBit]
  split_ifs <;> simp

theorem length_le_writeBits (w : BitWriter) (value count : ℕ) :
    w.bytes.length ≤ (w.writeBits value count).bytes.length := by
  induction count generalizing w with
  | zero => exact le_rfl
  | succ count ih => exact (length_le_writeBit w _).trans (ih _)

end BitWriter

/-! ### Reading -/

/-- Bytes, and the position of the next bit. -/
structure BitReader where
  bytes : List UInt8
  position : ℕ

namespace BitReader

variable {ε : Type*} (ended : ε)

/-- The next bit, or an error at the end. -/
def readBit (r : BitReader) : Except ε (Bool × BitReader) :=
  match r.bytes[r.position / 8]? with
  | none => .error ended
  | some byte => .ok (byte.toNat.testBit (7 - r.position % 8), { r with position := r.position + 1 })

/-- The next bits as a number, after those read so far. -/
def readBitsFrom (value : ℕ) : ℕ → BitReader → Except ε (ℕ × BitReader)
  | 0, r => .ok (value, r)
  | count + 1, r => do
    let (bit, r) ← r.readBit ended
    readBitsFrom (2 * value + bit.toNat) count r

/-- The next bits as a number. -/
def readBits (r : BitReader) (count : ℕ) : Except ε (ℕ × BitReader) :=
  readBitsFrom ended 0 count r

/-- Goes on by the next bit. -/
def ifBit {α : Type*} (yes no : BitReader → Except ε (α × BitReader)) (r : BitReader) :
    Except ε (α × BitReader) :=
  match r.readBit ended with
  | .error e => .error e
  | .ok (bit, r) => if bit then yes r else no r

theorem ifBit_eq {α : Type} (yes no : BitReader → Except ε (α × BitReader)) (r : BitReader) :
    ifBit ended yes no r =
      r.readBit ended >>= fun next => if next.1 then yes next.2 else no next.2 := by
  rw [ifBit]
  cases r.readBit ended <;> rfl

/-- The bits that are left. -/
def rest (r : BitReader) : List Bool := (unpack r.bytes).drop r.position

/-- The reader that many bits on. -/
def skip (r : BitReader) (count : ℕ) : BitReader := { r with position := r.position + count }

theorem skip_skip (r : BitReader) (a b : ℕ) : (r.skip a).skip b = r.skip (a + b) := by
  rw [skip, skip, skip, Nat.add_assoc]

theorem rest_skip {r : BitReader} {bits rest : List Bool} (h : r.rest = bits ++ rest) :
    (r.skip bits.length).rest = rest := by
  have : (r.skip bits.length).rest = r.rest.drop bits.length := by
    rw [BitReader.rest, BitReader.rest, List.drop_drop]
    rfl
  rw [this, h, List.drop_left]

theorem readBit_eq {r : BitReader} {bit : Bool} {rest : List Bool} (h : r.rest = bit :: rest) :
    r.readBit ended = .ok (bit, r.skip 1) := by
  have hget : (unpack r.bytes)[r.position]? = some bit := by
    rw [← List.head?_drop]
    rw [BitReader.rest] at h
    rw [h, List.head?_cons]
  rw [unpack_getElem?] at hget
  obtain ⟨byte, hbyte, hbit⟩ := Option.map_eq_some_iff.1 hget
  rw [readBit, hbyte, ← hbit]
  rfl

theorem readBitsFrom_field {r : BitReader} {count value : ℕ} {rest : List Bool}
    (h : r.rest = field count value ++ rest) (before : ℕ) :
    readBitsFrom ended before count r
      = .ok (before * 2 ^ count + value % 2 ^ count, r.skip count) := by
  induction count generalizing r before with
  | zero => simp [readBitsFrom, skip, Nat.mod_one]
  | succ count ih =>
    rw [field, List.cons_append] at h
    have hrest : (r.skip 1).rest = field count value ++ rest := by
      have hone : r.rest = [value.testBit count] ++ (field count value ++ rest) := h
      exact rest_skip hone
    have hstep := ih hrest (2 * before + (value.testBit count).toNat)
    have hnumber : (2 * before + (value.testBit count).toNat) * 2 ^ count + value % 2 ^ count
        = before * 2 ^ (count + 1) + value % 2 ^ (count + 1) := by
      rw [Nat.mod_pow_succ, Nat.toNat_testBit, Nat.pow_succ]
      ring
    rw [readBitsFrom, readBit_eq ended h]
    change readBitsFrom ended _ count (r.skip 1) = _
    rw [hstep, hnumber, skip_skip, Nat.add_comm 1 count]

/-- **A field is read back.** -/
theorem readBits_field {r : BitReader} {count value : ℕ} {rest : List Bool}
    (h : r.rest = field count value ++ rest) (hfits : value < 2 ^ count) :
    r.readBits ended count = .ok (value, r.skip count) ∧ (r.skip count).rest = rest := by
  have hread := readBitsFrom_field ended h 0
  rw [Nat.zero_mul, Nat.zero_add, Nat.mod_eq_of_lt hfits] at hread
  refine ⟨hread, ?_⟩
  have hskip := rest_skip h
  rwa [length_field] at hskip

theorem readBitsFrom_lt {value bits count : ℕ} {r r' : BitReader}
    (h : r.readBitsFrom ended value count = .ok (bits, r')) : bits < (value + 1) * 2 ^ count := by
  induction count generalizing value r with
  | zero =>
    obtain ⟨rfl, -⟩ := Prod.mk.inj (Except.ok.inj h)
    omega
  | succ count ih =>
    rw [readBitsFrom] at h
    cases hbit : r.readBit ended with
    | error e =>
      rw [hbit] at h
      cases h
    | ok next =>
      rw [hbit] at h
      obtain ⟨bit, r⟩ := next
      have hstep : 2 * value + bit.toNat + 1 ≤ (value + 1) * 2 := by
        cases bit <;> simp <;> omega
      calc bits < (2 * value + bit.toNat + 1) * 2 ^ count := ih h
        _ ≤ (value + 1) * 2 * 2 ^ count := Nat.mul_le_mul_right _ hstep
        _ = (value + 1) * 2 ^ (count + 1) := by ring

theorem readBits_lt {bits count : ℕ} {r r' : BitReader}
    (h : r.readBits ended count = .ok (bits, r')) : bits < 2 ^ count := by
  simpa using readBitsFrom_lt ended h

/-! ### What a reader takes -/

/-- If reading succeeds it has taken so many bits at least, and none behind the end. -/
def Takes {α : Type*} (count : ℕ) (r : BitReader) (read : Except ε (α × BitReader)) : Prop :=
  ∀ a r', read = .ok (a, r') → r'.bytes = r.bytes ∧ r.position + count ≤ r'.position ∧
    (r.position ≤ 8 * r.bytes.length → r'.position ≤ 8 * r.bytes.length)

namespace Takes

variable {α β : Type} {count more : ℕ} {r : BitReader}

theorem ok (a : α) : Takes 0 r (.ok (a, r) : Except ε (α × BitReader)) := by
  intro a' r' h
  obtain ⟨-, rfl⟩ := Prod.mk.inj (Except.ok.inj h)
  exact ⟨rfl, le_rfl, id⟩

theorem error (e : ε) : Takes count r (.error e : Except ε (α × BitReader)) := by
  intro a r' h
  cases h

theorem mono {read : Except ε (α × BitReader)} (h : Takes count r read) (hle : more ≤ count) :
    Takes more r read := by
  intro a r' hread
  obtain ⟨hbytes, htook, hin⟩ := h a r' hread
  exact ⟨hbytes, by omega, hin⟩

theorem bind {read : Except ε (α × BitReader)} {f : α × BitReader → Except ε (β × BitReader)}
    (h : Takes count r read) (hf : ∀ a r', Takes more r' (f (a, r'))) :
    Takes (count + more) r (read >>= f) := by
  intro b r'' hread
  cases read with
  | error e => cases hread
  | ok value =>
    obtain ⟨a, r'⟩ := value
    obtain ⟨hbytes, htook, hin⟩ := h a r' rfl
    obtain ⟨hbytes', htook', hin'⟩ := hf a r' b r'' hread
    rw [hbytes] at hbytes' hin'
    exact ⟨hbytes', by omega, fun hle => hin' (hin hle)⟩

/-- What comes before a reader takes nothing. -/
theorem after {γ : Type} {before : Except ε γ} {f : γ → Except ε (α × BitReader)}
    (hf : ∀ c, Takes count r (f c)) : Takes count r (before >>= f) := by
  cases before with
  | error e => exact error e
  | ok c => exact hf c

theorem readBit : Takes 1 r (r.readBit ended) := by
  intro bit r' h
  rw [BitReader.readBit] at h
  cases hbyte : r.bytes[r.position / 8]? with
  | none =>
    rw [hbyte] at h
    cases h
  | some byte =>
    rw [hbyte] at h
    obtain ⟨-, rfl⟩ := Prod.mk.inj (Except.ok.inj h)
    have hlt : r.position / 8 < r.bytes.length := (List.getElem?_eq_some_iff.1 hbyte).1
    exact ⟨rfl, le_rfl, fun _ => by dsimp only; omega⟩

theorem readBits (count : ℕ) : Takes count r (r.readBits ended count) := by
  rw [BitReader.readBits]
  generalize (0 : ℕ) = value
  induction count generalizing r value with
  | zero => exact ok _
  | succ count ih =>
    have hbind := (readBit (r := r) ended).bind
      (f := fun next => readBitsFrom ended (2 * value + next.1.toNat) count next.2)
      fun bit r' => ih (2 * value + bit.toNat)
    rwa [Nat.add_comm] at hbind

theorem ifBit {yes no : BitReader → Except ε (α × BitReader)} (hyes : ∀ r, Takes count r (yes r))
    (hno : ∀ r, Takes count r (no r)) : Takes (1 + count) r (BitReader.ifBit ended yes no r) := by
  rw [ifBit_eq]
  refine (readBit ended).bind fun bit r' => ?_
  cases bit
  · exact hno r'
  · exact hyes r'

end Takes

end BitReader

/-! ### Writers and readers that agree -/

/-- What a writer writes, wherever it is in a stream, a reader reads as a value. -/
def Codes {ε α : Type} (write : BitWriter → BitWriter)
    (read : BitReader → Except ε (α × BitReader)) (value : α) : Prop :=
  ∃ bits, (∀ w before, w.Wrote before → (write w).Wrote (before ++ bits)) ∧
    ∀ r rest, r.rest = bits ++ rest → read r = .ok (value, r.skip bits.length)

namespace Codes

variable {ε α β : Type}

theorem bits (ended : ε) {value count : ℕ} (h : value < 2 ^ count) :
    Codes (·.writeBits value count) (·.readBits ended count) value := by
  refine ⟨field count value, fun _ _ hw => hw.writeBits value count, fun r rest hr => ?_⟩
  rw [length_field]
  exact (BitReader.readBits_field ended hr h).1

theorem pure (value : α) :
    Codes id (fun r => (.ok (value, r) : Except ε (α × BitReader))) value :=
  ⟨[], fun _ _ h => by rwa [List.append_nil], fun _ _ _ => rfl⟩

/-- One after the other. -/
theorem bind {write write' : BitWriter → BitWriter} {read : BitReader → Except ε (α × BitReader)}
    {read' : α → BitReader → Except ε (β × BitReader)} {value : α} {value' : β}
    (h : Codes write read value) (h' : Codes write' (read' value) value') :
    Codes (fun w => write' (write w)) (fun r => read r >>= fun p => read' p.1 p.2) value' := by
  obtain ⟨bits, hwrite, hread⟩ := h
  obtain ⟨bits', hwrite', hread'⟩ := h'
  refine ⟨bits ++ bits', fun w before hw => ?_, fun r rest hr => ?_⟩
  · rw [← List.append_assoc]
    exact hwrite' _ _ (hwrite w before hw)
  · rw [List.append_assoc] at hr
    have hrest := hread' (r.skip bits.length) rest (BitReader.rest_skip hr)
    change (read r >>= _) = _
    rw [hread r _ hr, List.length_append, ← BitReader.skip_skip]
    exact hrest

/-- What is read may be turned into something else. -/
theorem map {write : BitWriter → BitWriter} {read : BitReader → Except ε (α × BitReader)}
    {value : α} (h : Codes write read value) (f : α → β) :
    Codes write (fun r => read r >>= fun p => .ok (f p.1, p.2)) (f value) :=
  @bind ε α β write id read (fun a r => .ok (f a, r)) value (f value) h (pure (f value))

/-- A bit that is set, and what follows it. -/
theorem ifTrue (ended : ε) {write : BitWriter → BitWriter}
    {yes : BitReader → Except ε (α × BitReader)} {value : α} (h : Codes write yes value)
    (no : BitReader → Except ε (α × BitReader)) :
    Codes (fun w => write (w.writeBit true)) (BitReader.ifBit ended yes no) value := by
  obtain ⟨bits, hwrite, hread⟩ := h
  refine ⟨true :: bits, fun w before hw => ?_, fun r rest hr => ?_⟩
  · have hall := hwrite _ _ (hw.writeBit true)
    rwa [List.append_assoc, List.singleton_append] at hall
  · have hone : r.rest = [true] ++ (bits ++ rest) := hr
    rw [BitReader.ifBit, BitReader.readBit_eq ended hr, List.length_cons, Nat.add_comm,
      ← BitReader.skip_skip]
    exact hread _ _ (BitReader.rest_skip hone)

/-- A bit that is not set, and what follows it. -/
theorem ifFalse (ended : ε) {write : BitWriter → BitWriter}
    {no : BitReader → Except ε (α × BitReader)} {value : α} (h : Codes write no value)
    (yes : BitReader → Except ε (α × BitReader)) :
    Codes (fun w => write (w.writeBit false)) (BitReader.ifBit ended yes no) value := by
  obtain ⟨bits, hwrite, hread⟩ := h
  refine ⟨false :: bits, fun w before hw => ?_, fun r rest hr => ?_⟩
  · have hall := hwrite _ _ (hw.writeBit false)
    rwa [List.append_assoc, List.singleton_append] at hall
  · have hone : r.rest = [false] ++ (bits ++ rest) := hr
    rw [BitReader.ifBit, BitReader.readBit_eq ended hr, List.length_cons, Nat.add_comm,
      ← BitReader.skip_skip]
    exact hread _ _ (BitReader.rest_skip hone)

end Codes

end Bytes

end Obsy
