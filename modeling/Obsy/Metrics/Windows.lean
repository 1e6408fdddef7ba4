import Obsy.Machine.Demands
import Obsy.Metrics.Decoders

/-!
# Windows that a chunk declares

A value may come with a window of its own: five bits say how many zeros lead and six how many bits
follow that mean something.  The decoder subtracts both from 64.

* `readSampleIn`: a sample is read by code that may check its arithmetic.
* `declaredWindows`: the windows of a chunk, which follow from the widths of its fields alone.
* `chunkSafe_iff`: a chunk is decoded to the end, or refused, exactly when its windows fit 64 bits.
-/

namespace Obsy

namespace Metrics

open Bytes
open Machine (Build Stop Harmless Survey Meets)

/-! ### Reading in a build -/

/-- The end of a chunk amid a sample. -/
def cutShort : Stop String := .refused endsMidRecord

namespace DecoderState

variable (build : Build)

/-- The meaningful bits of a value, in a window. -/
def readMeaningfulIn (d : DecoderState) (window : Window) (r : BitReader) :
    Except (Stop String) ((Word × Window) × BitReader) := do
  let rest ← build.sub8 64 window.leading
  let significant ← build.sub8 rest window.trailing
  let (meaningful, r) ← r.readBits cutShort significant.toNat
  let changed ← build.shiftLeft (BitVec.ofNat 64 meaningful) window.trailing
  .ok ((d.prevBits ^^^ changed, window), r)

/-- The window of a value, and its meaningful bits. -/
def readOwnWindowIn (d : DecoderState) (r : BitReader) :
    Except (Stop String) ((Word × Window) × BitReader) := do
  let (leading, r) ← r.readBits cutShort 5
  let (field, r) ← r.readBits cutShort 6
  let significant := if field = 0 then 64 else UInt8.ofNat field
  let rest ← build.sub8 64 (UInt8.ofNat leading)
  let trailing ← build.sub8 rest significant
  d.readMeaningfulIn build ⟨UInt8.ofNat leading, trailing⟩ r

/-- Reads a value, with the window it came in. -/
def readValueIn (d : DecoderState) (index : ℕ) (r : BitReader) :
    Except (Stop String) ((Word × Window) × BitReader) :=
  match index with
  | 0 => do
    let (value, r) ← r.readBits cutShort 64
    .ok ((BitVec.ofNat 64 value, d.window), r)
  | _ =>
    BitReader.ifBit cutShort
      (BitReader.ifBit cutShort (d.readOwnWindowIn build) (d.readMeaningfulIn build d.window))
      (fun r => .ok ((d.prevBits, d.window), r)) r

def readSampleIn : DecoderState.Reading (Stop String) := fun d index r => do
  let (time, r) ← (d.readTs index r).mapError Stop.refused
  let (value, r) ← d.readValueIn build index r
  .ok (((time.1, value.1), ⟨time.1, time.2, value.1, value.2⟩), r)

end DecoderState

/-- `decode_all`, in a build. -/
def decodeAllIn (build : Build) (chunk : List UInt8) : Except (Stop String) (List Sample) := do
  let d ← (Decoder.new chunk).mapError Stop.refused
  d.collectWith (DecoderState.readSampleIn build) d.remaining

/-! ### Without checks -/

section

variable {α β : Type}

theorem mapError_bind {ε ε' : Type} (f : ε → ε') (x : Except ε α) (g : α → Except ε β) :
    (x >>= g).mapError f = x.mapError f >>= fun a => (g a).mapError f := by
  cases x <;> rfl

theorem readBit_mapError (r : BitReader) :
    (r.readBit endsMidRecord).mapError Stop.refused = r.readBit cutShort := by
  rw [BitReader.readBit, BitReader.readBit]
  cases r.bytes[r.position / 8]? <;> rfl

theorem readBits_mapError (r : BitReader) (count : ℕ) :
    (r.readBits endsMidRecord count).mapError Stop.refused = r.readBits cutShort count := by
  rw [BitReader.readBits, BitReader.readBits]
  generalize (0 : ℕ) = value
  induction count generalizing r value with
  | zero => rfl
  | succ count ih =>
    rw [BitReader.readBitsFrom, BitReader.readBitsFrom, mapError_bind, readBit_mapError]
    refine congrArg (_ >>= ·) ?_
    funext next
    exact ih next.2 _

end

namespace DecoderState

end DecoderState

/-! ### Declared windows -/

/-- How many zeros lead, and how many bits behind them mean something. -/
structure DeclaredWindow where
  leading : ℕ
  significant : ℕ
deriving DecidableEq

/-- A value has 64 bits. -/
def DeclaredWindow.Fits (window : DeclaredWindow) : Prop := window.leading + window.significant ≤ 64

instance (window : DeclaredWindow) : Decidable window.Fits :=
  inferInstanceAs (Decidable (_ ≤ _))

/-- A window declares itself before the bits that it is for. -/
def surveyOwnWindow (r : BitReader) : Survey DeclaredWindow String (ℕ × BitReader) := do
  let (leading, r) ← .lift (r.readBits cutShort 5)
  let (field, r) ← .lift (r.readBits cutShort 6)
  let significant := if field = 0 then 64 else field
  .demand ⟨leading, significant⟩
  let (_, r) ← .lift (r.readBits cutShort significant)
  pure (significant, r)

/-- A value, after one that came in so many bits; the first one is whole. -/
def surveyValue (width index : ℕ) (r : BitReader) :
    Survey DeclaredWindow String (ℕ × BitReader) := do
  if index = 0 then
    let (_, r) ← .lift (r.readBits cutShort 64)
    return (width, r)
  let (changed, r) ← .lift (r.readBit cutShort)
  if changed then
    let (own, r) ← .lift (r.readBit cutShort)
    if own then surveyOwnWindow r
    else
      let (_, r) ← .lift (r.readBits cutShort width)
      return (width, r)
  else return (width, r)

/-- The reader behind a timestamp. -/
def skipTs (index : ℕ) (r : BitReader) : Except (Stop String) BitReader :=
  if index ≤ 1 then (r.readBits cutShort 64).map Prod.snd
  else ((DecoderState.readDod r).mapError Stop.refused).map Prod.snd

def surveySample (width index : ℕ) (r : BitReader) :
    Survey DeclaredWindow String (ℕ × BitReader) := do
  let r ← .lift (skipTs index r)
  surveyValue width index r

def surveySamples (total : ℕ) : ℕ → ℕ → BitReader → Survey DeclaredWindow String Unit
  | 0, _, _ => pure ()
  | remaining + 1, width, r => do
    let (width, r) ← surveySample width (total - (remaining + 1)) r
    surveySamples total remaining width r

/-- The windows of a chunk, up to its end. -/
def declaredWindows (chunk : List UInt8) : List DeclaredWindow :=
  if chunk.length < 4 then []
  else
    let count := leNat (chunk.take 4)
    (surveySamples count count 64 ⟨chunk, 32⟩).demands

/-! ### Faults -/

theorem harmless_readBit (r : BitReader) : Harmless (r.readBit cutShort) := by
  rw [BitReader.readBit]
  split
  · exact .refused _
  · exact .ok _

theorem harmless_readBits (r : BitReader) (count : ℕ) : Harmless (r.readBits cutShort count) := by
  rw [BitReader.readBits]
  generalize (0 : ℕ) = value
  induction count generalizing r value with
  | zero => exact .ok _
  | succ count ih => exact (harmless_readBit r).bind fun _ => ih _ _

/-- The window that the decoder holds, and the bits it leaves. -/
structure Holds (window : Window) (width : ℕ) : Prop where
  sum_eq : window.leading.toNat + window.trailing.toNat + width = 64
  pos : 1 ≤ width

/-- A window that came with a value. -/
def HoldsAt (left : ℕ × BitReader) (right : (Word × Window) × BitReader) : Prop :=
  left.2 = right.2 ∧ Holds right.1.2 left.1

section

variable {build : Build}

/-- Bits in a window that fits are read without a fault. -/
theorem meets_meaningful {window : Window} {width : ℕ} (h : Holds window width) (d : DecoderState)
    (r : BitReader) :
    Meets DeclaredWindow.Fits HoldsAt
      (do let (_, r) ← .lift (r.readBits cutShort width); return (width, r))
      (d.readMeaningfulIn build window r) := by
  have hsum := h.sum_eq
  have hpos := h.pos
  have hleading : window.leading.toNat ≤ (64 : UInt8).toNat := by
    change _ ≤ 64
    omega
  have hrest : (64 - window.leading).toNat = 64 - window.leading.toNat :=
    UInt8.toNat_sub_of_le _ _ hleading
  have htrailing : window.trailing.toNat ≤ (64 - window.leading).toNat := by omega
  have hwidth : (64 - window.leading - window.trailing).toNat = width := by
    rw [UInt8.toNat_sub_of_le _ _ htrailing, hrest]
    omega
  rw [DecoderState.readMeaningfulIn, Build.sub8_of_le hleading]
  change Meets _ _ _ (build.sub8 _ _ >>= _)
  rw [Build.sub8_of_le htrailing]
  change Meets _ _ _ (r.readBits cutShort _ >>= _)
  rw [hwidth]
  refine .bind_lift (harmless_readBits r width) fun ⟨meaningful, r'⟩ _ => ?_
  dsimp only
  rw [Build.shiftLeft_of_lt _ (by omega)]
  exact .pure ⟨rfl, h⟩

/-- A window of its own is subtracted from 64 before its bits are read. -/
theorem meets_ownWindow (hchecks : build.checks = true) (d : DecoderState) (r : BitReader) :
    Meets DeclaredWindow.Fits HoldsAt (surveyOwnWindow r) (d.readOwnWindowIn build r) := by
  refine .bind_lift (harmless_readBits r 5) fun ⟨leading, r⟩ hleading => ?_
  have hleading_lt : leading < 2 ^ 5 := BitReader.readBits_lt _ hleading
  refine .bind_lift (harmless_readBits r 6) fun ⟨field, r⟩ hfield => ?_
  have hfield_lt : field < 2 ^ 6 := BitReader.readBits_lt _ hfield
  dsimp only
  set significant := if field = 0 then 64 else field with hsignificant
  have hbits : (if field = 0 then 64 else UInt8.ofNat field).toNat = significant := by
    rw [hsignificant]
    split
    · rfl
    · rw [UInt8.toNat_ofNat']
      omega
  have hle : significant ≤ 64 ∧ 1 ≤ significant := by
    rw [hsignificant]
    split <;> omega
  have hnat : (UInt8.ofNat leading).toNat = leading := by
    rw [UInt8.toNat_ofNat']
    omega
  have hlead : (UInt8.ofNat leading).toNat ≤ (64 : UInt8).toNat := by
    rw [hnat]
    change leading ≤ 64
    omega
  have hrest : (64 - UInt8.ofNat leading).toNat = 64 - leading := by
    rw [UInt8.toNat_sub_of_le _ _ hlead, hnat]
    rfl
  rw [Build.sub8_of_le hlead]
  change Meets _ _ _ (build.sub8 _ _ >>= _)
  refine Meets.bind (R := fun _ trailing =>
    Holds ⟨UInt8.ofNat leading, trailing⟩ significant) (.demand ?_ ?_) fun _ trailing hholds =>
      meets_meaningful hholds d r
  · intro hfits
    have hfits : leading + significant ≤ 64 := hfits
    have hsub := UInt8.toNat_sub_of_le (64 - UInt8.ofNat leading)
      (if field = 0 then 64 else UInt8.ofNat field) (show UInt8.toNat _ ≤ UInt8.toNat _ by omega)
    refine ⟨_, Build.sub8_of_le (by omega), ?_, hle.2⟩
    dsimp only
    omega
  · intro hwide
    have hwide : ¬ leading + significant ≤ 64 := hwide
    exact ⟨_, Build.sub8_of_lt hchecks (by omega), rfl⟩

theorem meets_value (hchecks : build.checks = true) {d : DecoderState} {width : ℕ}
    (h : Holds d.window width) (index : ℕ) (r : BitReader) :
    Meets DeclaredWindow.Fits HoldsAt (surveyValue width index r) (d.readValueIn build index r) := by
  cases index with
  | zero => exact .bind_lift (harmless_readBits r 64) fun _ _ => .pure ⟨rfl, h⟩
  | succ index =>
    rw [surveyValue, if_neg (Nat.succ_ne_zero index), DecoderState.readValueIn]
    · rw [BitReader.ifBit_eq]
      refine .bind_lift (harmless_readBit r) fun ⟨changed, r⟩ _ => ?_
      cases changed with
      | false => exact .pure ⟨rfl, h⟩
      | true =>
        change Meets _ _ _ (BitReader.ifBit cutShort _ _ r)
        rw [BitReader.ifBit_eq]
        refine .bind_lift (harmless_readBit r) fun ⟨own, r⟩ _ => ?_
        cases own with
        | false => exact meets_meaningful h d r
        | true => exact meets_ownWindow hchecks d r
    · exact Nat.succ_ne_zero index

theorem map_readTs (d : DecoderState) (index : ℕ) (r : BitReader) :
    ((d.readTs index r).mapError Stop.refused).map Prod.snd = skipTs index r := by
  have hbits := readBits_mapError r 64
  match index with
  | 0 =>
    rw [skipTs, if_pos (by decide), ← hbits, DecoderState.readTs]
    cases r.readBits endsMidRecord 64 <;> rfl
  | 1 =>
    rw [skipTs, if_pos (by decide), ← hbits, DecoderState.readTs, DecoderState.readZigzag]
    cases r.readBits endsMidRecord 64 <;> rfl
  | index + 2 =>
    rw [skipTs, if_neg (by omega), DecoderState.readTs]
    · cases DecoderState.readDod r <;> rfl
    · omega
    · omega

theorem meets_sample (hchecks : build.checks = true) {d : DecoderState} {width : ℕ}
    (h : Holds d.window width) (index : ℕ) (r : BitReader) :
    Meets DeclaredWindow.Fits
      (fun left right => left.2 = right.2 ∧ Holds right.1.2.window left.1)
      (surveySample width index r) (d.readSampleIn build index r) := by
  rw [DecoderState.readSampleIn, surveySample, ← map_readTs d index r]
  cases hts : d.readTs index r with
  | error e => exact .of_agrees (.refused rfl)
  | ok next =>
    obtain ⟨time, r⟩ := next
    change Meets _ _ (surveyValue width index r) (d.readValueIn build index r >>= _)
    exact (meets_value hchecks h index r).bind_ok fun _ value hvalue => ⟨_, rfl, hvalue⟩

/-- Samples are read to the end exactly when their windows fit. -/
theorem meets_samples (hchecks : build.checks = true) {d : Decoder} {width : ℕ}
    (h : Holds d.window width) (remaining : ℕ) :
    Meets DeclaredWindow.Fits (fun _ _ => True) (surveySamples d.total remaining width d.reader)
      (d.collectWith (DecoderState.readSampleIn build) remaining) := by
  induction remaining generalizing d width with
  | zero => exact .pure trivial
  | succ remaining ih =>
    have hsample : Meets DeclaredWindow.Fits
        (fun left right => left.2 = right.2.reader ∧ Holds right.2.window left.1 ∧
          right.2.total = d.total)
        (surveySample width (d.total - (remaining + 1)) d.reader)
        (d.readNext (DecoderState.readSampleIn build) (d.total - (remaining + 1))) :=
      (meets_sample hchecks h _ d.reader).bind_ok fun _ _ hread => ⟨_, rfl, hread.1, hread.2, rfl⟩
    rw [Decoder.collectWith, surveySamples]
    refine hsample.bind ?_
    rintro ⟨width, r⟩ ⟨sample, d'⟩ ⟨hr, hholds, htotal⟩
    dsimp only at hr hholds htotal ⊢
    rw [hr, ← htotal]
    exact (ih hholds).bind_ok fun _ _ _ => ⟨_, rfl, trivial⟩

end

/-! ### What a sample takes -/

open BitReader (Takes)

theorem takes_mapError {α : Type} {count : ℕ} {r : BitReader} {run : Except String (α × BitReader)}
    (h : Takes count r run) : Takes count r (run.mapError Stop.refused) := by
  intro a r' hread
  cases run with
  | error e => cases hread
  | ok value => exact h a r' (congrArg Except.ok (Except.ok.inj hread))

/-- However much is read. -/
theorem takes_bind {α β : Type} {ε : Type} {count : ℕ} {r : BitReader}
    {read : Except ε (α × BitReader)} {f : α × BitReader → Except ε (β × BitReader)}
    (h : Takes count r read) (hf : ∀ a r', Takes 0 r' (f (a, r'))) : Takes 0 r (read >>= f) :=
  (h.bind hf).mono (Nat.zero_le _)

theorem takes_ifBit {α : Type} {ε : Type} (ended : ε) {r : BitReader}
    {yes no : BitReader → Except ε (α × BitReader)} (hyes : ∀ r, Takes 0 r (yes r))
    (hno : ∀ r, Takes 0 r (no r)) : Takes 0 r (BitReader.ifBit ended yes no r) :=
  (Takes.ifBit ended hyes hno).mono (Nat.zero_le _)

theorem takes_readDod (r : BitReader) : Takes 1 r (DecoderState.readDod r) := by
  have hpayload (bits : ℕ) (offset : Word) (r : BitReader) :
      Takes 0 r (DecoderState.readPayload bits offset r) :=
    takes_bind (.readBits _ bits) fun _ _ => .ok _
  have hzigzag (r : BitReader) : Takes 0 r (DecoderState.readZigzag r) :=
    takes_bind (.readBits _ 64) fun _ _ => .ok _
  show Takes (1 + 0) r _
  refine Takes.ifBit _ (fun r => ?_) fun r => .ok _
  refine takes_ifBit _ (fun r => ?_) fun r => hpayload 14 _ r
  refine takes_ifBit _ (fun r => ?_) fun r => hpayload 17 _ r
  exact takes_ifBit _ hzigzag (hpayload 20 _)

theorem takes_readTs (d : DecoderState) (index : ℕ) (r : BitReader) :
    Takes 1 r (d.readTs index r) := by
  match index with
  | 0 =>
    have hread : Takes (64 + 0) r (d.readTs 0 r) := .bind (.readBits _ 64) fun _ _ => .ok _
    exact hread.mono (by decide)
  | 1 =>
    have hzigzag : Takes (64 + 0) r (DecoderState.readZigzag r) :=
      .bind (.readBits _ 64) fun _ _ => .ok _
    have hread : Takes (64 + 0 + 0) r (d.readTs 1 r) := .bind hzigzag fun _ _ => .ok _
    exact hread.mono (by decide)
  | index + 2 =>
    show Takes (1 + 0) r _
    exact .bind (takes_readDod r) fun _ _ => .ok _

theorem takes_readValueIn (build : Build) (d : DecoderState) (index : ℕ) (r : BitReader) :
    Takes 1 r (d.readValueIn build index r) := by
  have hmeaningful (window : Window) (r : BitReader) :
      Takes 0 r (d.readMeaningfulIn build window r) :=
    .after fun _ => .after fun _ => takes_bind (.readBits _ _) fun _ _ => .after fun _ => .ok _
  have hown (r : BitReader) : Takes 0 r (d.readOwnWindowIn build r) :=
    takes_bind (.readBits _ 5) fun _ _ => takes_bind (.readBits _ 6) fun _ _ =>
      .after fun _ => .after fun _ => hmeaningful _ _
  cases index with
  | zero =>
    have hread : Takes (64 + 0) r (d.readValueIn build 0 r) :=
      .bind (.readBits _ 64) fun _ _ => .ok _
    exact hread.mono (by decide)
  | succ index =>
    show Takes (1 + 0) r _
    exact Takes.ifBit _ (fun r => takes_ifBit _ hown (hmeaningful _)) fun r => .ok _

/-- A sample takes two bits at least. -/
theorem takes_readSampleIn (build : Build) (d : DecoderState) (index : ℕ) (r : BitReader) :
    Takes 2 r (d.readSampleIn build index r) := by
  have hread : Takes (1 + (1 + 0)) r (d.readSampleIn build index r) :=
    .bind (takes_mapError (takes_readTs d index r)) fun _ _ =>
      .bind (takes_readValueIn build _ index _) fun _ _ => .ok _
  exact hread

/-! ### Safety -/

/-- No decoder of a chunk ends by a fault, and none has more samples than the chunk has room for. -/
structure ChunkSafe (build : Build) (chunk : List UInt8) : Prop where
  decodeAll : Harmless (decodeAllIn build chunk)
  items : ∀ d, Decoder.new chunk = .ok d →
    ∀ item ∈ d.items (DecoderState.readSampleIn build), Harmless item
  owned : ∀ d, OwnedDecoder.new chunk = .ok d →
    ∀ item ∈ d.items (DecoderState.readSampleIn build), Harmless item
  room : ∀ d, Decoder.new chunk = .ok d →
    2 * (d.items (DecoderState.readSampleIn build)).countP (·.isOk) ≤ 8 * chunk.length

theorem harmless_decodeAllIn_iff {build : Build} (hchecks : build.checks = true)
    (chunk : List UInt8) :
    Harmless (decodeAllIn build chunk) ↔ ∀ window ∈ declaredWindows chunk, window.Fits := by
  rw [decodeAllIn, Decoder.new, declaredWindows]
  by_cases hshort : chunk.length < 4
  · rw [if_pos hshort, if_pos hshort]
    exact iff_of_true (.refused _) fun _ hwindow => absurd hwindow List.not_mem_nil
  · rw [if_neg hshort, if_neg hshort]
    have hstart : Holds (⟨0, 0⟩ : Window) 64 := ⟨rfl, by decide⟩
    exact (meets_samples hchecks (d := ⟨⟨0, 0, 0, ⟨0, 0⟩⟩, ⟨chunk, 32⟩, _, _⟩) hstart _).harmless_iff

/-- An item that is a fault is where the collection ends. -/
theorem harmless_items {build : Build} {chunk : List UInt8} (h : Harmless (decodeAllIn build chunk))
    {d : Decoder} (hd : Decoder.new chunk = .ok d) :
    ∀ item ∈ d.items (DecoderState.readSampleIn build), Harmless item := by
  rintro item hitem stop rfl
  refine h stop ?_
  rw [decodeAllIn, hd]
  change d.collectWith _ _ = _
  rw [Decoder.collectWith_eq, Decoder.gather_of_mem hitem]

/-- **A chunk is decoded to its end, or refused, exactly when its windows fit.**  Whatever the bytes
say, no sample is made up. -/
theorem chunkSafe_iff {build : Build} (hchecks : build.checks = true) (chunk : List UInt8) :
    ChunkSafe build chunk ↔ ∀ window ∈ declaredWindows chunk, window.Fits := by
  refine Iff.trans ⟨ChunkSafe.decodeAll, fun h => ?_⟩ (harmless_decodeAllIn_iff hchecks chunk)
  refine ⟨h, fun d hd => harmless_items h hd, fun d hd item hitem => ?_, fun d hd => ?_⟩
  · rw [OwnedDecoder.items_eq] at hitem
    rw [OwnedDecoder.new_eq] at hd
    cases hnew : Decoder.new chunk with
    | error e =>
      rw [hnew] at hd
      cases hd
    | ok inner =>
      rw [hnew] at hd
      obtain rfl := Except.ok.inj hd
      exact harmless_items h hnew item hitem
  · rw [Decoder.new] at hd
    split at hd
    · cases hd
    · obtain rfl := Except.ok.inj hd
      have hcount := Decoder.countP_items (takes_readSampleIn build)
        (d := ⟨⟨0, 0, 0, ⟨0, 0⟩⟩, ⟨chunk, 32⟩, leNat (chunk.take 4), leNat (chunk.take 4)⟩)
        (by dsimp only; omega)
      dsimp only at hcount
      omega

end Metrics

end Obsy
