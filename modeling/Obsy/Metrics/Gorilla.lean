import Mathlib.Tactic.NormNum
import Obsy.Bytes.Bits
import Obsy.Bytes.Framing

/-!
# The sample codec

Samples of a series are encoded in the order they are appended: the timestamp as the change of
its difference to the one before, the value as what changed in its bits.

* `Encoder`, `Decoder`: the codec.
* `codes_sample`: a decoder that stands where the encoder stood reads the sample.
* `decodeAll_close`: fewer than `2 ^ 32` samples are decoded as they were appended.
-/

namespace Obsy

namespace Metrics

open Bytes

/-! ### Zigzag -/

/-- An `i64`, or the bits of an `f64`. -/
abbrev Word := BitVec 64

/-- A timestamp and the bits of a value. -/
abbrev Sample := Word × Word

def zigzag (value : Word) : Word := (value <<< 1) ^^^ value.sshiftRight 63

def unzigzag (value : Word) : Word := (value >>> 1) ^^^ -(value &&& 1)

/-- All ones or none. -/
def signWord (negative : Bool) : Word := if negative then BitVec.allOnes 64 else 0

theorem getLsbD_signWord (negative : Bool) {i : ℕ} (hi : i < 64) :
    (signWord negative).getLsbD i = negative := by
  cases negative
  · simp only [signWord, Bool.false_eq_true, if_false, BitVec.ofNat_eq_ofNat, BitVec.getLsbD_zero]
  · simp only [signWord, if_true, BitVec.getLsbD_allOnes, hi, decide_true]

theorem sshiftRight_sign (value : Word) : value.sshiftRight 63 = signWord value.msb := by
  refine BitVec.eq_of_getLsbD_eq fun i hi => ?_
  have hmsb : value.msb = value.getLsbD 63 := BitVec.msb_eq_getLsbD_last value
  have hsign : (if 63 + i < 64 then value.getLsbD (63 + i) else value.msb) = value.msb := by
    split
    · have : i = 0 := by omega
      rw [this, hmsb]
    · rfl
  rw [BitVec.getLsbD_sshiftRight, hsign, getLsbD_signWord _ hi]
  simp [hi]

theorem getLsbD_zigzag (value : Word) {i : ℕ} (hi : i < 64) :
    (zigzag value).getLsbD i = ((decide (0 < i) && value.getLsbD (i - 1)) ^^ value.msb) := by
  rw [zigzag, sshiftRight_sign, BitVec.getLsbD_xor, BitVec.getLsbD_shiftLeft,
    getLsbD_signWord _ hi]
  cases i <;> simp [hi]

theorem neg_zigzag_low (value : Word) : -(zigzag value &&& 1) = signWord value.msb := by
  have hlow : zigzag value &&& 1 = if value.msb then 1 else 0 := by
    refine BitVec.eq_of_getLsbD_eq fun i hi => ?_
    rw [BitVec.getLsbD_and, getLsbD_zigzag value hi]
    cases value.msb <;> cases i <;> simp
  rw [hlow]
  cases value.msb <;> rfl

theorem unzigzag_zigzag (value : Word) : unzigzag (zigzag value) = value := by
  refine BitVec.eq_of_getLsbD_eq fun i hi => ?_
  rw [unzigzag, neg_zigzag_low, BitVec.getLsbD_xor, BitVec.getLsbD_ushiftRight,
    getLsbD_signWord _ hi]
  by_cases hlast : 1 + i < 64
  · rw [getLsbD_zigzag value hlast]
    simp
  · have : i = 63 := by omega
    subst this
    rw [BitVec.getLsbD_of_ge _ _ (by omega), BitVec.msb_eq_getLsbD_last]
    simp

/-! ### The encoder -/

/-- A bucket of second differences: prefix, prefix bits, payload bits and offset. -/
structure DodBucket where
  prefixCode : ℕ
  prefixBits : ℕ
  payloadBits : ℕ
  offset : ℤ

def dodBuckets : List DodBucket :=
  [⟨0b10, 2, 14, 8191⟩, ⟨0b110, 3, 17, 65535⟩, ⟨0b1110, 4, 20, 524287⟩]

/-- Whether a bucket holds a second difference. -/
def DodBucket.holds (bucket : DodBucket) (dod : Word) : Bool :=
  decide (-bucket.offset ≤ dod.toInt ∧ dod.toInt ≤ bucket.offset + 1)

/-- Writes a second difference. -/
def writeDod (dod : Word) (w : BitWriter) : BitWriter :=
  if dod = 0 then w.writeBit false
  else
    match dodBuckets.find? fun bucket => bucket.holds dod with
    | some bucket => (w.writeBits bucket.prefixCode bucket.prefixBits).writeBits
        (dod + BitVec.ofInt 64 bucket.offset).toNat bucket.payloadBits
    | none => (w.writeBits 0b1111 4).writeBits (zigzag dod).toNat 64

/-- The zero bits on either side of what changed in a value. -/
structure Window where
  leading : UInt8
  trailing : UInt8
deriving DecidableEq

namespace Window

/-- The bits between. -/
def significant (window : Window) : UInt8 := 64 - window.leading - window.trailing

/-- The window of a change, with at most 31 leading zeros. -/
def of (xor : Word) : Window := ⟨UInt8.ofNat (min xor.clz.toNat 31), UInt8.ofNat xor.ctz.toNat⟩

/-- Whether a change fits a window. -/
def covers (window : Window) (xor : Word) : Bool :=
  window.leading ≤ (of xor).leading && window.trailing ≤ (of xor).trailing

end Window

structure Encoder where
  writer : BitWriter
  /-- A `u32`. -/
  count : ℕ
  prevTs : Word
  prevDelta : Word
  prevBits : Word
  /-- The window in use, once a value has set one. -/
  window : Window
  windowSet : Bool

namespace Encoder

def new : Encoder := ⟨.new, 0, 0, 0, 0, ⟨0, 0⟩, false⟩

def isEmpty (e : Encoder) : Bool := e.count == 0

/-- What the encoded bytes take, with the count before them. -/
def byteLen (e : Encoder) : ℕ := 4 + e.writer.bytes.length

/-- Writes what changed in the value. -/
def writeValue (e : Encoder) (bits : Word) (w : BitWriter) : BitWriter :=
  let xor := bits ^^^ e.prevBits
  if xor = 0 then w.writeBit false
  else if e.windowSet && e.window.covers xor then
    ((w.writeBit true).writeBit false).writeBits (xor >>> (e.window.trailing.toNat % 64)).toNat
      e.window.significant.toNat
  else
    let window := Window.of xor
    ((((w.writeBit true).writeBit true).writeBits window.leading.toNat 5).writeBits
        (window.significant &&& 63).toNat 6).writeBits
      (xor >>> (window.trailing.toNat % 64)).toNat window.significant.toNat

/-- The window after a value. -/
def nextWindow (e : Encoder) (bits : Word) : Window × Bool :=
  let xor := bits ^^^ e.prevBits
  if xor = 0 ∨ (e.windowSet && e.window.covers xor) = true then (e.window, e.windowSet)
  else (Window.of xor, true)

/-- `append`: the first timestamp whole, the second as a difference, later ones by how the
difference changed. -/
def append (e : Encoder) (sample : Sample) : Encoder :=
  let (ts, bits) := sample
  let delta := ts - e.prevTs
  let written : Encoder :=
    match e.count with
    | 0 => { e with writer := (e.writer.writeBits ts.toNat 64).writeBits bits.toNat 64 }
    | 1 =>
      { e with
        writer := e.writeValue bits (e.writer.writeBits (zigzag delta).toNat 64)
        prevDelta := delta
        window := (e.nextWindow bits).1
        windowSet := (e.nextWindow bits).2 }
    | _ =>
      { e with
        writer := e.writeValue bits (writeDod (delta - e.prevDelta) e.writer)
        prevDelta := delta
        window := (e.nextWindow bits).1
        windowSet := (e.nextWindow bits).2 }
  { written with prevTs := ts, prevBits := bits, count := (e.count + 1) % 2 ^ 32 }

/-- The chunk: the count and the bits. -/
def close (e : Encoder) : List UInt8 := leBytes 4 e.count ++ e.writer.bytes

def ofSamples (samples : List Sample) : Encoder := samples.foldl append new

end Encoder

/-! ### The decoder -/

def endsMidRecord : String := "gorilla chunk ends mid-record"

/-- What a decoder knows of the samples before. -/
structure DecoderState where
  prevTs : Word
  prevDelta : Word
  prevBits : Word
  window : Window

structure Decoder extends DecoderState where
  reader : BitReader
  remaining : ℕ
  total : ℕ

namespace DecoderState

/-- Reads a second difference in a bucket. -/
def readPayload (payloadBits : ℕ) (offset : Word) (r : BitReader) :
    Except String (Word × BitReader) := do
  let (value, r) ← r.readBits endsMidRecord payloadBits
  .ok (BitVec.ofNat 64 value - offset, r)

/-- Reads a number in zigzag form. -/
def readZigzag (r : BitReader) : Except String (Word × BitReader) := do
  let (value, r) ← r.readBits endsMidRecord 64
  .ok (unzigzag (BitVec.ofNat 64 value), r)

/-- Reads a second difference. -/
def readDod : BitReader → Except String (Word × BitReader) :=
  BitReader.ifBit endsMidRecord
    (BitReader.ifBit endsMidRecord
      (BitReader.ifBit endsMidRecord
        (BitReader.ifBit endsMidRecord readZigzag (readPayload 20 524287))
        (readPayload 17 65535))
      (readPayload 14 8191))
    fun r => .ok (0, r)

/-- Reads a timestamp, with the difference to the one before. -/
def readTs (d : DecoderState) (index : ℕ) (r : BitReader) : Except String ((Word × Word) × BitReader) :=
  match index with
  | 0 => do
    let (value, r) ← r.readBits endsMidRecord 64
    .ok ((BitVec.ofNat 64 value, d.prevDelta), r)
  | 1 => do
    let (delta, r) ← readZigzag r
    .ok ((d.prevTs + delta, delta), r)
  | _ => do
    let (dod, r) ← readDod r
    let delta := d.prevDelta + dod
    .ok ((d.prevTs + delta, delta), r)

/-- The meaningful bits of a value, in a window. -/
def readMeaningful (d : DecoderState) (window : Window) (r : BitReader) :
    Except String ((Word × Window) × BitReader) := do
  let (meaningful, r) ← r.readBits endsMidRecord window.significant.toNat
  .ok ((d.prevBits ^^^ (BitVec.ofNat 64 meaningful <<< (window.trailing.toNat % 64)), window), r)

/-- The window of a value, and its meaningful bits. -/
def readOwnWindow (d : DecoderState) (r : BitReader) :
    Except String ((Word × Window) × BitReader) := do
  let (leading, r) ← r.readBits endsMidRecord 5
  let (field, r) ← r.readBits endsMidRecord 6
  let significant := if field = 0 then 64 else UInt8.ofNat field
  d.readMeaningful ⟨UInt8.ofNat leading, 64 - UInt8.ofNat leading - significant⟩ r

/-- Reads a value, with the window it came in. -/
def readValue (d : DecoderState) (index : ℕ) (r : BitReader) :
    Except String ((Word × Window) × BitReader) :=
  match index with
  | 0 => do
    let (value, r) ← r.readBits endsMidRecord 64
    .ok ((BitVec.ofNat 64 value, d.window), r)
  | _ =>
    BitReader.ifBit endsMidRecord
      (BitReader.ifBit endsMidRecord d.readOwnWindow (d.readMeaningful d.window))
      (fun r => .ok ((d.prevBits, d.window), r)) r

def readSample (d : DecoderState) (index : ℕ) (r : BitReader) :
    Except String ((Sample × DecoderState) × BitReader) := do
  let (time, r) ← d.readTs index r
  let (value, r) ← d.readValue index r
  .ok (((time.1, value.1), ⟨time.1, time.2, value.1, value.2⟩), r)

end DecoderState

namespace Decoder

def new (chunk : List UInt8) : Except String Decoder :=
  if chunk.length < 4 then .error "gorilla chunk is shorter than its count header"
  else
    let count := leNat (chunk.take 4)
    .ok ⟨⟨0, 0, 0, ⟨0, 0⟩⟩, ⟨chunk, 32⟩, count, count⟩

/-- `next_sample`. -/
def nextSample (d : Decoder) (index : ℕ) : Except String (Sample × Decoder) := do
  let ((sample, state), r) ← d.readSample index d.reader
  .ok (sample, { d with toDecoderState := state, reader := r })

/-- The samples that are left, or the first error. -/
def collect (d : Decoder) : ℕ → Except String (List Sample)
  | 0 => .ok []
  | remaining + 1 => do
    let (sample, d) ← d.nextSample (d.total - (remaining + 1))
    let samples ← collect d remaining
    .ok (sample :: samples)

end Decoder

/-- `decode_all`. -/
def decodeAll (chunk : List UInt8) : Except String (List Sample) := do
  let d ← Decoder.new chunk
  d.collect d.remaining

/-! ### Second differences -/

theorem ofNat_toNat_word (value : Word) : BitVec.ofNat 64 value.toNat = value :=
  BitVec.eq_of_toNat_eq (by simp)

/-- A bucket holds a second difference as a number of its payload. -/
theorem DodBucket.payload_lt {bucket : DodBucket} {dod : Word} (h : bucket.holds dod = true)
    {bits : ℕ} (hbits : 2 * bucket.offset + 1 < 2 ^ bits) (hsmall : bucket.offset < 2 ^ 62) :
    (dod + BitVec.ofInt 64 bucket.offset).toNat < 2 ^ bits := by
  obtain ⟨hlo, hhi⟩ := of_decide_eq_true h
  have hpos : 0 ≤ bucket.offset := by omega
  have hnat : ((dod + BitVec.ofInt 64 bucket.offset).toNat : ℤ) = dod.toInt + bucket.offset := by
    rw [BitVec.toNat_add, BitVec.toNat_ofInt]
    have htoInt := BitVec.toInt_eq_toNat_bmod dod
    have hlt := dod.isLt
    rw [Int.bmod_def] at htoInt
    push_cast
    omega
  have hle : (dod + BitVec.ofInt 64 bucket.offset).toNat ≤ 2 * bucket.offset + 1 := by omega
  exact_mod_cast lt_of_le_of_lt hle hbits

theorem codes_payload {bucket : DodBucket} {dod : Word} (h : bucket.holds dod = true)
    (hbits : 2 * bucket.offset + 1 < 2 ^ bucket.payloadBits) (hsmall : bucket.offset < 2 ^ 62) :
    Codes (·.writeBits (dod + BitVec.ofInt 64 bucket.offset).toNat bucket.payloadBits)
      (DecoderState.readPayload bucket.payloadBits (BitVec.ofInt 64 bucket.offset)) dod := by
  have hvalue : BitVec.ofNat 64 (dod + BitVec.ofInt 64 bucket.offset).toNat
      - BitVec.ofInt 64 bucket.offset = dod := by
    rw [ofNat_toNat_word, BitVec.add_sub_cancel]
  have hcodes := (Codes.bits endsMidRecord (bucket.payload_lt h hbits hsmall)).map
    fun value => BitVec.ofNat 64 value - BitVec.ofInt 64 bucket.offset
  rw [hvalue] at hcodes
  exact hcodes

theorem codes_zigzag (value : Word) :
    Codes (·.writeBits (zigzag value).toNat 64) DecoderState.readZigzag value := by
  have hvalue : unzigzag (BitVec.ofNat 64 (zigzag value).toNat) = value := by
    rw [ofNat_toNat_word, unzigzag_zigzag]
  have hcodes := (Codes.bits endsMidRecord (zigzag value).isLt).map
    fun bits => unzigzag (BitVec.ofNat 64 bits)
  rw [hvalue] at hcodes
  exact hcodes

/-- A second difference is read back. -/
theorem codes_dod (dod : Word) : Codes (writeDod dod) DecoderState.readDod dod := by
  by_cases hzero : dod = 0
  · have hwrite : writeDod dod = fun w => id (w.writeBit false) := by
      funext w
      rw [writeDod, if_pos hzero]
      rfl
    rw [hwrite, hzero]
    exact (Codes.pure 0).ifFalse endsMidRecord _
  · cases hfind : dodBuckets.find? fun bucket => bucket.holds dod with
    | none =>
      have hwrite : writeDod dod = fun w => ((((w.writeBit true).writeBit true).writeBit
          true).writeBit true).writeBits (zigzag dod).toNat 64 := by
        funext w
        rw [writeDod, if_neg hzero, hfind]
        rfl
      rw [hwrite]
      exact ((((codes_zigzag dod).ifTrue endsMidRecord _).ifTrue endsMidRecord _).ifTrue
        endsMidRecord _).ifTrue endsMidRecord _
    | some bucket =>
      have hholds := List.find?_some hfind
      have hmem : bucket ∈ dodBuckets := List.mem_of_find?_eq_some hfind
      have hwrite : writeDod dod = fun w => (w.writeBits bucket.prefixCode bucket.prefixBits).writeBits
          (dod + BitVec.ofInt 64 bucket.offset).toNat bucket.payloadBits := by
        funext w
        rw [writeDod, if_neg hzero, hfind]
      rw [hwrite]
      have hpayload := codes_payload hholds
      simp only [dodBuckets, List.mem_cons, List.not_mem_nil, or_false] at hmem
      rcases hmem with rfl | rfl | rfl
      · exact ((hpayload (by norm_num) (by norm_num)).ifFalse endsMidRecord _).ifTrue
          endsMidRecord _
      · exact (((hpayload (by norm_num) (by norm_num)).ifFalse endsMidRecord _).ifTrue
          endsMidRecord _).ifTrue endsMidRecord _
      · exact ((((hpayload (by norm_num) (by norm_num)).ifFalse endsMidRecord _).ifTrue
          endsMidRecord _).ifTrue endsMidRecord _).ifTrue endsMidRecord _

/-! ### Windows -/

/-- A window leaves a bit, and its leading zeros fit their field. -/
structure Window.Fits (window : Window) : Prop where
  leading_le : window.leading.toNat ≤ 31
  room : window.leading.toNat + window.trailing.toNat < 64

theorem clz_add_ctz {xor : Word} (h : xor ≠ 0) : xor.clz.toNat + xor.ctz.toNat < 64 := by
  have hlo : 2 ^ xor.ctz.toNat ≤ xor.toNat := BitVec.two_pow_ctz_le_toNat_of_ne_zero h
  have hhi : xor.toNat < 2 ^ (64 - xor.clz.toNat) := BitVec.toNat_lt_two_pow_sub_clz
  have hlt := (Nat.pow_lt_pow_iff_right (by decide)).1 (hlo.trans_lt hhi)
  omega

theorem Window.toNat_leading_of {xor : Word} :
    (Window.of xor).leading.toNat = min xor.clz.toNat 31 := by
  rw [Window.of, UInt8.toNat_ofNat']
  omega

theorem Window.toNat_trailing_of {xor : Word} (h : xor ≠ 0) :
    (Window.of xor).trailing.toNat = xor.ctz.toNat := by
  have := clz_add_ctz h
  rw [Window.of, UInt8.toNat_ofNat']
  omega

theorem Window.fits_of {xor : Word} (h : xor ≠ 0) : (Window.of xor).Fits := by
  have := clz_add_ctz h
  constructor
  · rw [toNat_leading_of]
    omega
  · rw [toNat_leading_of, toNat_trailing_of h]
    omega

theorem Window.covers_of (xor : Word) : (Window.of xor).covers xor = true := by
  simp [covers]

theorem Window.Fits.toNat_significant {window : Window} (h : window.Fits) :
    window.significant.toNat = 64 - window.leading.toNat - window.trailing.toNat := by
  have hroom := h.room
  have hlead : window.leading ≤ 64 := UInt8.le_iff_toNat_le.2 (by simp; omega)
  have hsub : (64 - window.leading).toNat = 64 - window.leading.toNat :=
    UInt8.toNat_sub_of_le _ _ hlead
  have htrail : window.trailing ≤ 64 - window.leading :=
    UInt8.le_iff_toNat_le.2 (by rw [hsub]; omega)
  rw [significant, UInt8.toNat_sub_of_le _ _ htrail, hsub]

/-- The meaningful bits of a change that fits a window fill its significant bits, and give the
change back. -/
theorem Window.meaningful {window : Window} (hfits : window.Fits) {xor : Word} (hne : xor ≠ 0)
    (hcovers : window.covers xor = true) :
    (xor >>> (window.trailing.toNat % 64)).toNat < 2 ^ window.significant.toNat ∧
      (xor >>> (window.trailing.toNat % 64)) <<< (window.trailing.toNat % 64) = xor := by
  obtain ⟨hlead, htrail⟩ := Bool.and_eq_true_iff.1 hcovers
  have hleading := UInt8.le_iff_toNat_le.1 (of_decide_eq_true hlead)
  have htrailing := UInt8.le_iff_toNat_le.1 (of_decide_eq_true htrail)
  rw [toNat_leading_of] at hleading
  rw [toNat_trailing_of hne] at htrailing
  have hroom := hfits.room
  have hmod : window.trailing.toNat % 64 = window.trailing.toNat := Nat.mod_eq_of_lt (by omega)
  rw [hmod, hfits.toNat_significant]
  constructor
  · have hhi : xor.toNat < 2 ^ (64 - xor.clz.toNat) := BitVec.toNat_lt_two_pow_sub_clz
    rw [BitVec.toNat_ushiftRight, Nat.shiftRight_eq_div_pow, Nat.div_lt_iff_lt_mul (by positivity),
      ← Nat.pow_add]
    refine hhi.trans_le (Nat.pow_le_pow_right (by decide) ?_)
    omega
  · refine BitVec.eq_of_getLsbD_eq fun i hi => ?_
    rw [BitVec.getLsbD_shiftLeft, BitVec.getLsbD_ushiftRight]
    by_cases hlow : i < window.trailing.toNat
    · have hzero : xor.getLsbD i = false := BitVec.getLsbD_false_of_lt_ctz (by omega)
      simp [hlow, hzero]
    · have hsum : window.trailing.toNat + (i - window.trailing.toNat) = i := by omega
      simp [hi, hlow, hsum]

/-! ### Values -/

/-- A decoder stands where an encoder stands. -/
structure Synced (e : Encoder) (d : DecoderState) : Prop where
  prevTs : d.prevTs = e.prevTs
  prevDelta : d.prevDelta = e.prevDelta
  prevBits : d.prevBits = e.prevBits
  window : e.windowSet = true → d.window = e.window
  fits : e.windowSet = true → e.window.Fits

theorem codes_meaningful {d : DecoderState} {window : Window} (hfits : window.Fits) {bits : Word}
    (hne : bits ^^^ d.prevBits ≠ 0) (hcovers : window.covers (bits ^^^ d.prevBits) = true) :
    Codes (·.writeBits ((bits ^^^ d.prevBits) >>> (window.trailing.toNat % 64)).toNat
        window.significant.toNat)
      (d.readMeaningful window) (bits, window) := by
  obtain ⟨hlt, hback⟩ := window.meaningful hfits hne hcovers
  have hvalue : d.prevBits ^^^ (BitVec.ofNat 64
      ((bits ^^^ d.prevBits) >>> (window.trailing.toNat % 64)).toNat
        <<< (window.trailing.toNat % 64)) = bits := by
    rw [ofNat_toNat_word, hback, BitVec.xor_comm bits, ← BitVec.xor_assoc, BitVec.xor_self,
      BitVec.zero_xor]
  have hcodes := (Codes.bits endsMidRecord hlt).map fun meaningful =>
    (d.prevBits ^^^ (BitVec.ofNat 64 meaningful <<< (window.trailing.toNat % 64)), window)
  rw [hvalue] at hcodes
  exact hcodes

/-- The window of a value is read back, and its meaningful bits. -/
theorem codes_ownWindow {d : DecoderState} {bits : Word} (hne : bits ^^^ d.prevBits ≠ 0) :
    Codes (fun w => ((w.writeBits (Window.of (bits ^^^ d.prevBits)).leading.toNat 5).writeBits
        ((Window.of (bits ^^^ d.prevBits)).significant &&& 63).toNat 6).writeBits
          ((bits ^^^ d.prevBits) >>> ((Window.of (bits ^^^ d.prevBits)).trailing.toNat % 64)).toNat
          (Window.of (bits ^^^ d.prevBits)).significant.toNat)
      d.readOwnWindow (bits, Window.of (bits ^^^ d.prevBits)) := by
  set window := Window.of (bits ^^^ d.prevBits) with hwindow
  have hfits : window.Fits := Window.fits_of hne
  have hsignificant := hfits.toNat_significant
  have hroom := hfits.room
  have hlead : window.leading.toNat < 2 ^ 5 := Nat.lt_succ_of_le hfits.leading_le
  have hmask : (window.significant &&& 63).toNat = window.significant.toNat % 64 := by
    rw [UInt8.toNat_and]
    exact Nat.and_two_pow_sub_one_eq_mod _ 6
  have hfield : (window.significant &&& 63).toNat < 2 ^ 6 := by
    rw [hmask]
    exact Nat.mod_lt _ (by decide)
  -- the six bits say how many are significant, none for all
  have hback : (if (window.significant &&& 63).toNat = 0 then (64 : UInt8)
      else UInt8.ofNat (window.significant &&& 63).toNat) = window.significant := by
    refine UInt8.toNat_inj.1 ?_
    rw [hmask]
    split
    case isTrue hzero =>
      change 64 = window.significant.toNat
      omega
    case isFalse hpos =>
      rw [UInt8.toNat_ofNat']
      omega
  have htrailing : 64 - UInt8.ofNat window.leading.toNat - window.significant = window.trailing := by
    rw [UInt8.ofNat_toNat, Window.significant]
    grind
  have hread : d.readMeaningful ⟨UInt8.ofNat window.leading.toNat,
      64 - UInt8.ofNat window.leading.toNat -
        (if (window.significant &&& 63).toNat = 0 then (64 : UInt8)
          else UInt8.ofNat (window.significant &&& 63).toNat)⟩ = d.readMeaningful window := by
    rw [hback, htrailing, UInt8.ofNat_toNat]
  have hmeaningful := codes_meaningful hfits hne (Window.covers_of (bits ^^^ d.prevBits))
  rw [← hread] at hmeaningful
  -- the reader of the rest, for a number of leading zeros and for a field
  set readRest : ℕ → ℕ → BitReader → Except String ((Word × Window) × BitReader) :=
    fun leading field => d.readMeaningful ⟨UInt8.ofNat leading, 64 - UInt8.ofNat leading -
      (if field = 0 then (64 : UInt8) else UInt8.ofNat field)⟩ with hreadRest
  have hinner := @Codes.bind _ _ _ _ _ _ (readRest window.leading.toNat) _ _
    (Codes.bits endsMidRecord hfield) hmeaningful
  exact @Codes.bind _ _ _ _ _ _
    (fun leading r => r.readBits endsMidRecord 6 >>= fun p => readRest leading p.1 p.2) _ _
    (Codes.bits endsMidRecord hlead) hinner

theorem codes_value {e : Encoder} {d : DecoderState} (h : Synced e d) (bits : Word) (index : ℕ) :
    ∃ window, Codes (e.writeValue bits) (d.readValue (index + 1)) (bits, window) ∧
      ((e.nextWindow bits).2 = true → window = (e.nextWindow bits).1 ∧ (e.nextWindow bits).1.Fits) := by
  set xor := bits ^^^ e.prevBits with hxor
  have hprev := h.prevBits
  by_cases hzero : xor = 0
  · refine ⟨d.window, ?_, fun hset => ?_⟩
    · have hwrite : e.writeValue bits = fun w => id (w.writeBit false) := by
        funext w
        rw [Encoder.writeValue, ← hxor, if_pos hzero]
        rfl
      have hsame : bits = d.prevBits := by
        rw [hprev]
        exact BitVec.xor_eq_zero_iff.1 hzero
      rw [hwrite, hsame]
      exact (Codes.pure (d.prevBits, d.window)).ifFalse endsMidRecord _
    · rw [Encoder.nextWindow, ← hxor, if_pos (.inl hzero)] at hset ⊢
      exact ⟨h.window hset, h.fits hset⟩
  · have hne : bits ^^^ d.prevBits ≠ 0 := by rwa [hprev]
    by_cases hcovers : (e.windowSet && e.window.covers xor) = true
    · obtain ⟨hset, hcover⟩ := Bool.and_eq_true_iff.1 hcovers
      refine ⟨d.window, ?_, fun hset' => ?_⟩
      · have hwrite : e.writeValue bits = fun w => ((w.writeBit true).writeBit false).writeBits
            ((bits ^^^ d.prevBits) >>> (d.window.trailing.toNat % 64)).toNat
            d.window.significant.toNat := by
          funext w
          rw [Encoder.writeValue, ← hxor, if_neg hzero, if_pos hcovers, h.window hset, hprev]
        rw [hwrite]
        have hfits : d.window.Fits := h.window hset ▸ h.fits hset
        have hcover' : d.window.covers (bits ^^^ d.prevBits) = true := by
          rw [h.window hset, hprev]
          exact hcover
        exact ((codes_meaningful hfits hne hcover').ifFalse endsMidRecord _).ifTrue
          endsMidRecord _
      · rw [Encoder.nextWindow, ← hxor, if_pos (.inr hcovers)]
        exact ⟨h.window hset, h.fits hset⟩
    · refine ⟨Window.of (bits ^^^ d.prevBits), ?_, fun _ => ?_⟩
      · have hwrite : e.writeValue bits = fun w => (fun w =>
            ((w.writeBits (Window.of (bits ^^^ d.prevBits)).leading.toNat 5).writeBits
              ((Window.of (bits ^^^ d.prevBits)).significant &&& 63).toNat 6).writeBits
                ((bits ^^^ d.prevBits) >>>
                  ((Window.of (bits ^^^ d.prevBits)).trailing.toNat % 64)).toNat
                (Window.of (bits ^^^ d.prevBits)).significant.toNat)
            ((w.writeBit true).writeBit true) := by
          funext w
          rw [Encoder.writeValue, ← hxor, if_neg hzero, if_neg hcovers, hprev]
        rw [hwrite]
        exact ((codes_ownWindow hne).ifTrue endsMidRecord _).ifTrue endsMidRecord _
      · rw [Encoder.nextWindow, ← hxor, if_neg (by rintro (h | h) <;> contradiction), hxor, hprev]
        exact ⟨rfl, Window.fits_of hzero⟩

/-! ### Samples -/

/-- A timestamp and a value, one after the other. -/
theorem codes_pair {d : DecoderState} {index : ℕ} {writeTs writeBits : BitWriter → BitWriter}
    {ts delta bits : Word} {window : Window}
    (hts : Codes writeTs (d.readTs index) (ts, delta))
    (hbits : Codes writeBits (d.readValue index) (bits, window)) :
    Codes (fun w => writeBits (writeTs w)) (d.readSample index)
      ((ts, bits), ⟨ts, delta, bits, window⟩) :=
  @Codes.bind _ _ _ _ _ _ (fun time r => d.readValue index r >>= fun p =>
    .ok (((time.1, p.1.1), (⟨time.1, time.2, p.1.1, p.1.2⟩ : DecoderState)), p.2)) _ _ hts
    (hbits.map fun value => ((ts, value.1), (⟨ts, delta, value.1, value.2⟩ : DecoderState)))

/-- A whole word is read back. -/
theorem codes_word {α : Type} (value : Word) (f : Word → α) :
    Codes (·.writeBits value.toNat 64)
      (fun r => r.readBits endsMidRecord 64 >>= fun p => .ok (f (BitVec.ofNat 64 p.1), p.2))
      (f value) := by
  have hcodes := (Codes.bits endsMidRecord value.isLt).map fun bits => f (BitVec.ofNat 64 bits)
  rw [ofNat_toNat_word] at hcodes
  exact hcodes

/-- The difference a sample has to the one before. -/
theorem add_sub_word (prev ts : Word) : prev + (ts - prev) = ts := by
  rw [BitVec.add_comm, BitVec.sub_add_cancel]

/-- A sample is read back, and the decoder stands where the encoder stands again. -/
theorem codes_sample {e : Encoder} {d : DecoderState} (h : Synced e d) (sample : Sample) :
    ∃ write d', Codes write (d.readSample e.count) (sample, d') ∧
      (e.append sample).writer = write e.writer ∧ Synced (e.append sample) d' := by
  obtain ⟨ts, bits⟩ := sample
  obtain ⟨window, hvalue, hwindow⟩ := codes_value h bits (e.count - 1)
  rcases hcount : e.count with _ | _ | count
  · -- the first sample is written whole
    refine ⟨_, _, codes_pair (codes_word ts fun ts => (ts, d.prevDelta))
      (codes_word bits fun bits => (bits, d.window)), ?_, ?_⟩
    · rw [Encoder.append]
      simp only [hcount]
    · rw [Encoder.append]
      simp only [hcount]
      exact ⟨rfl, h.prevDelta, rfl, h.window, h.fits⟩
  · rw [hcount] at hvalue
    have hts : Codes (·.writeBits (zigzag (ts - e.prevTs)).toNat 64) (d.readTs 1)
        (ts, ts - e.prevTs) := by
      have hdelta := (codes_zigzag (ts - e.prevTs)).map fun delta => (d.prevTs + delta, delta)
      have hvalue' : (d.prevTs + (ts - e.prevTs), ts - e.prevTs) = (ts, ts - e.prevTs) := by
        rw [h.prevTs, add_sub_word]
      rw [hvalue'] at hdelta
      exact hdelta
    refine ⟨_, _, codes_pair hts hvalue, ?_, ?_⟩
    · rw [Encoder.append]
      simp only [hcount]
    · rw [Encoder.append]
      simp only [hcount]
      exact ⟨rfl, rfl, rfl, fun hset => (hwindow hset).1, fun hset => (hwindow hset).2⟩
  · rw [hcount] at hvalue
    have hts : Codes (writeDod (ts - e.prevTs - e.prevDelta)) (d.readTs (count + 2))
        (ts, ts - e.prevTs) := by
      have hdelta := (codes_dod (ts - e.prevTs - e.prevDelta)).map fun dod =>
        (d.prevTs + (d.prevDelta + dod), d.prevDelta + dod)
      have hvalue' : (d.prevTs + (d.prevDelta + (ts - e.prevTs - e.prevDelta)),
          d.prevDelta + (ts - e.prevTs - e.prevDelta)) = (ts, ts - e.prevTs) := by
        rw [h.prevTs, h.prevDelta, add_sub_word, add_sub_word]
      rw [hvalue'] at hdelta
      exact hdelta
    refine ⟨_, _, codes_pair hts hvalue, ?_, ?_⟩
    · rw [Encoder.append]
      simp only [hcount]
    · rw [Encoder.append]
      simp only [hcount]
      exact ⟨rfl, rfl, rfl, fun hset => (hwindow hset).1, fun hset => (hwindow hset).2⟩

@[simp] theorem Encoder.count_append (e : Encoder) (sample : Sample) :
    (e.append sample).count = (e.count + 1) % 2 ^ 32 := rfl

/-- Samples are read back one after the other. -/
theorem collect_samples {samples : List Sample} {e : Encoder} {d : DecoderState}
    (h : Synced e d) (hfew : e.count + samples.length < 2 ^ 32) :
    ∃ bits, (∀ before, e.writer.Wrote before →
        (samples.foldl Encoder.append e).writer.Wrote (before ++ bits)) ∧
      (samples.foldl Encoder.append e).count = e.count + samples.length ∧
      ∀ r rest remaining, r.rest = bits ++ rest →
        (⟨d, r, remaining, e.count + samples.length⟩ : Decoder).collect samples.length
          = .ok samples := by
  induction samples generalizing e d with
  | nil =>
    exact ⟨[], fun _ hw => by rwa [List.append_nil], rfl, fun _ _ _ _ => rfl⟩
  | cons sample samples ih =>
    rw [List.length_cons] at hfew ⊢
    obtain ⟨write, d', ⟨bits, hwrite, hread⟩, hwriter, hsynced⟩ := codes_sample h sample
    have hcount : (e.append sample).count = e.count + 1 := Nat.mod_eq_of_lt (by omega)
    obtain ⟨bits', hwrite', hcount', hread'⟩ := ih hsynced (by omega)
    refine ⟨bits ++ bits', fun before hw => ?_, ?_, fun r rest remaining hr => ?_⟩
    · rw [← List.append_assoc]
      refine hwrite' _ ?_
      rw [hwriter]
      exact hwrite _ _ hw
    · rw [List.foldl_cons, hcount', hcount]
      omega
    · rw [List.append_assoc] at hr
      have hindex : e.count + (samples.length + 1) - (samples.length + 1) = e.count := by omega
      have hrest := hread' (r.skip bits.length) rest remaining (BitReader.rest_skip hr)
      have htotal : (e.append sample).count + samples.length = e.count + (samples.length + 1) := by
        omega
      rw [htotal] at hrest
      rw [Decoder.collect]
      simp only [Decoder.nextSample, hindex, hread r _ hr]
      change (Decoder.collect _ samples.length >>= _) = _
      rw [hrest]
      rfl

theorem synced_new : Synced .new ⟨0, 0, 0, ⟨0, 0⟩⟩ :=
  ⟨rfl, rfl, rfl, fun _ => rfl, fun h => absurd h Bool.false_ne_true⟩

/-- **The codec loses nothing.**  Fewer than `2 ^ 32` samples are decoded as they were appended. -/
theorem decodeAll_close {samples : List Sample} (hfew : samples.length < 2 ^ 32) :
    decodeAll (Encoder.ofSamples samples).close = .ok samples := by
  have hzero : Encoder.new.count = 0 := rfl
  obtain ⟨bits, hwrite, hcount, hread⟩ := collect_samples synced_new
    (by rw [hzero]; omega : Encoder.new.count + samples.length < 2 ^ 32)
  rw [hzero, Nat.zero_add] at hcount hread
  set e := Encoder.ofSamples samples with he
  have hwrote : e.writer.Wrote ([] ++ bits) := hwrite [] BitWriter.wrote_new
  have hcount' : e.count = samples.length := hcount
  have hlen : 4 ≤ e.close.length := by
    rw [Encoder.close, List.length_append, length_leBytes]
    omega
  have htake : leNat (e.close.take 4) = samples.length := by
    rw [Encoder.close, List.take_left' (length_leBytes ..), hcount', leNat_leBytes (by omega)]
  have hrest : (⟨e.close, 32⟩ : BitReader).rest = bits ++ List.replicate e.writer.free false := by
    rw [BitReader.rest, Encoder.close, unpack_append, List.drop_left' (by simp)]
    exact hwrote.bits_eq
  rw [decodeAll, Decoder.new, if_neg (by omega), htake]
  exact hread _ _ _ hrest

/-! ### Sizes -/

theorem length_le_writeDod (dod : Word) (w : BitWriter) :
    w.bytes.length ≤ (writeDod dod w).bytes.length := by
  rw [writeDod]
  split_ifs
  · exact w.length_le_writeBit false
  · split
    · exact (w.length_le_writeBits _ _).trans (BitWriter.length_le_writeBits _ _ _)
    · exact (w.length_le_writeBits _ _).trans (BitWriter.length_le_writeBits _ _ _)

theorem Encoder.length_le_writeValue (e : Encoder) (value : Word) (w : BitWriter) :
    w.bytes.length ≤ (e.writeValue value w).bytes.length := by
  have hfirst := w.length_le_writeBit true
  simp only [Encoder.writeValue]
  split_ifs
  · exact w.length_le_writeBit false
  · exact (hfirst.trans (BitWriter.length_le_writeBit _ _)).trans
      (BitWriter.length_le_writeBits _ _ _)
  · exact ((hfirst.trans (BitWriter.length_le_writeBit _ _)).trans
      (BitWriter.length_le_writeBits _ _ _)).trans
      ((BitWriter.length_le_writeBits _ _ _).trans (BitWriter.length_le_writeBits _ _ _))

/-- A sample takes no byte away. -/
theorem Encoder.byteLen_le_append (e : Encoder) (sample : Sample) :
    e.byteLen ≤ (e.append sample).byteLen := by
  refine Nat.add_le_add_left ?_ 4
  simp only [Encoder.append]
  split
  · exact (e.writer.length_le_writeBits _ _).trans (BitWriter.length_le_writeBits _ _ _)
  · exact (e.writer.length_le_writeBits _ _).trans (e.length_le_writeValue _ _)
  · exact (length_le_writeDod _ _).trans (e.length_le_writeValue _ _)

/-- The first sample takes its two words. -/
theorem Encoder.byteLen_append_new (sample : Sample) : 20 ≤ (new.append sample).byteLen := by
  have hwrote := (BitWriter.wrote_new.writeBits sample.1.toNat 64).writeBits sample.2.toNat 64
  have hlength := congrArg List.length hwrote.bits_eq
  simp only [length_unpack, List.length_append, length_field, List.length_replicate,
    List.length_nil] at hlength
  show 20 ≤ 4 + ((BitWriter.new.writeBits _ 64).writeBits _ 64).bytes.length
  omega

end Metrics

end Obsy
