import Obsy.Metrics.Gorilla

/-!
# The decoders of a chunk

A chunk of samples is read one sample at a time, from borrowed bytes or from bytes that the decoder
owns.

* `Decoder.next`, `Decoder.items`: one sample, and all that repeated calls give, for any way of
  reading a sample.
* `OwnedDecoder`: the same over bytes of its own.
* `Decoder.collectWith_eq`: it stops at the first error of the iteration.
* `chunk_round_trip`: what was appended is what every decoder gives.
-/

namespace Obsy

namespace Metrics

open Bytes

/-! ### Iteration -/

/-- How a sample is read, given its index. -/
abbrev DecoderState.Reading (ε : Type) :=
  DecoderState → ℕ → BitReader → Except ε ((Sample × DecoderState) × BitReader)

variable {ε : Type} (read : DecoderState.Reading ε)

namespace Decoder

/-- `next_sample`, with a way of reading. -/
def readNext (d : Decoder) (index : ℕ) : Except ε (Sample × Decoder) := do
  let ((sample, state), r) ← read d.toDecoderState index d.reader
  .ok (sample, { d with toDecoderState := state, reader := r })

/-- The next sample.  An error is the last item. -/
def next (d : Decoder) : Option (Except ε Sample × Decoder) :=
  match d.remaining with
  | 0 => none
  | remaining + 1 =>
    let index := d.total - (remaining + 1)
    match { d with remaining := remaining }.readNext read index with
    | .ok (sample, d) => some (.ok sample, d)
    | .error e => some (.error e, { d with remaining := 0 })

/-- What so many calls give, up to the end. -/
def itemsWithin : ℕ → Decoder → List (Except ε Sample)
  | 0, _ => []
  | calls + 1, d =>
    match d.next read with
    | none => []
    | some (item, d) => item :: itemsWithin calls d

/-- Everything the iterator gives; no sample is given after the last of the count. -/
def items (d : Decoder) : List (Except ε Sample) := d.itemsWithin read d.remaining

/-- `collect` on the items: the samples, or the first error. -/
def gather : List (Except ε Sample) → Except ε (List Sample)
  | [] => .ok []
  | .error e :: _ => .error e
  | .ok sample :: items => do
    let samples ← gather items
    .ok (sample :: samples)

/-- The samples that are left, or the first error. -/
def collectWith (d : Decoder) : ℕ → Except ε (List Sample)
  | 0 => .ok []
  | remaining + 1 => do
    let (sample, d) ← d.readNext read (d.total - (remaining + 1))
    let samples ← collectWith d remaining
    .ok (sample :: samples)

@[simp] theorem gather_map_ok (samples : List Sample) :
    gather (samples.map .ok : List (Except ε Sample)) = .ok samples := by
  induction samples with
  | nil => rfl
  | cons sample samples ih =>
    rw [List.map_cons, gather, ih]
    rfl

theorem collectWith_readSample (d : Decoder) (count : ℕ) :
    d.collectWith DecoderState.readSample count = d.collect count := by
  induction count generalizing d with
  | zero => rfl
  | succ count ih =>
    rw [collectWith, collect]
    refine congrArg (d.nextSample _ >>= ·) ?_
    funext next
    obtain ⟨sample, d⟩ := next
    dsimp only
    rw [ih]

variable {read}

theorem next_of_remaining_eq_zero {d : Decoder} (h : d.remaining = 0) : d.next read = none := by
  rw [next, h]

theorem itemsWithin_of_remaining_eq_zero {d : Decoder} (h : d.remaining = 0) (calls : ℕ) :
    d.itemsWithin read calls = [] := by
  cases calls with
  | zero => rfl
  | succ calls => rw [itemsWithin, next_of_remaining_eq_zero h]

/-- A sample leaves what remains and the count as they are. -/
theorem readNext_spec {d d' : Decoder} {index : ℕ} {sample : Sample}
    (h : d.readNext read index = .ok (sample, d')) :
    d'.remaining = d.remaining ∧ d'.total = d.total := by
  rw [readNext] at h
  cases hread : read d.toDecoderState index d.reader with
  | error e =>
    rw [hread] at h
    cases h
  | ok value =>
    rw [hread] at h
    obtain ⟨-, rfl⟩ := Prod.mk.inj (Except.ok.inj h)
    exact ⟨rfl, rfl⟩

theorem next_of_error {d : Decoder} {remaining : ℕ} (hd : d.remaining = remaining + 1) {e : ε}
    (h : { d with remaining := remaining }.readNext read (d.total - (remaining + 1)) = .error e) :
    d.next read = some (.error e, { d with remaining := 0 }) := by
  rw [next, hd]
  simp only [h]

theorem next_of_ok {d d' : Decoder} {remaining : ℕ} (hd : d.remaining = remaining + 1)
    {sample : Sample}
    (h : { d with remaining := remaining }.readNext read (d.total - (remaining + 1)) =
      .ok (sample, d')) : d.next read = some (.ok sample, d') := by
  rw [next, hd]
  simp only [h]

/-- The collection does not look at what remains. -/
theorem collectWith_remaining (d : Decoder) (count remaining : ℕ) :
    { d with remaining := remaining }.collectWith read count = d.collectWith read count := by
  induction count generalizing d remaining with
  | zero => rfl
  | succ count ih =>
    rw [collectWith, collectWith]
    simp only [readNext]
    cases read d.toDecoderState (d.total - (count + 1)) d.reader with
    | error e => rfl
    | ok value =>
      obtain ⟨⟨sample, state⟩, r⟩ := value
      change (collectWith read ⟨state, r, remaining, d.total⟩ count >>= _) =
        (collectWith read ⟨state, r, d.remaining, d.total⟩ count >>= _)
      rw [← ih ⟨state, r, remaining, d.total⟩ d.remaining]

/-- **`decode_all` is the iteration up to its first error.** -/
theorem collectWith_eq (d : Decoder) : d.collectWith read d.remaining = gather (d.items read) := by
  rw [items]
  induction hd : d.remaining generalizing d with
  | zero => rfl
  | succ remaining ih =>
    rw [itemsWithin, collectWith]
    have hsame : d.readNext read (d.total - (remaining + 1)) =
        ({ d with remaining := remaining }.readNext read (d.total - (remaining + 1))).map
          fun next : Sample × Decoder => (next.1, { next.2 with remaining := d.remaining }) := by
      simp only [readNext]
      cases read d.toDecoderState (d.total - (remaining + 1)) d.reader with
      | error e => rfl
      | ok value => rfl
    rw [hsame]
    cases hsample : { d with remaining := remaining }.readNext read
        (d.total - (remaining + 1)) with
    | error e =>
      simp only [next_of_error hd hsample]
      rfl
    | ok value =>
      obtain ⟨sample, d'⟩ := value
      have hremaining : d'.remaining = remaining := (readNext_spec hsample).1
      simp only [next_of_ok hd hsample, gather, ← ih d' hremaining]
      change (collectWith read { d' with remaining := d.remaining } remaining >>= _) = _
      rw [collectWith_remaining]

/-- An error among the items is where the collection ends. -/
theorem gather_of_mem {d : Decoder} {e : ε} (h : .error e ∈ d.items read) :
    gather (d.items read) = .error e := by
  rw [items] at h ⊢
  induction hd : d.remaining generalizing d with
  | zero =>
    rw [hd] at h
    exact absurd h List.not_mem_nil
  | succ remaining ih =>
    rw [hd, itemsWithin] at h
    rw [itemsWithin]
    cases hsample : { d with remaining := remaining }.readNext read
        (d.total - (remaining + 1)) with
    | error e' =>
      simp only [next_of_error hd hsample, itemsWithin_of_remaining_eq_zero] at h ⊢
      obtain rfl := Except.error.inj (List.mem_singleton.1 h)
      rfl
    | ok value =>
      obtain ⟨sample, d'⟩ := value
      have hremaining : d'.remaining = remaining := (readNext_spec hsample).1
      simp only [next_of_ok hd hsample, List.mem_cons, reduceCtorEq, false_or] at h ⊢
      have hrest := ih (hremaining ▸ h) hremaining
      rw [gather, hrest]
      rfl

/-- Every sample takes bits of the chunk. -/
theorem countP_items {count : ℕ} (hread : ∀ state index r, BitReader.Takes count r (read state index r))
    {d : Decoder} (hin : d.reader.position ≤ 8 * d.reader.bytes.length) :
    d.reader.position + count * (d.items read).countP (·.isOk) ≤ 8 * d.reader.bytes.length := by
  rw [items]
  induction hd : d.remaining generalizing d with
  | zero => simpa [itemsWithin] using hin
  | succ remaining ih =>
    rw [itemsWithin]
    cases hsample : { d with remaining := remaining }.readNext read
        (d.total - (remaining + 1)) with
    | error e =>
      simp only [next_of_error hd hsample, itemsWithin_of_remaining_eq_zero]
      simpa [Except.isOk, Except.toBool] using hin
    | ok value =>
      obtain ⟨sample, d'⟩ := value
      have hremaining : d'.remaining = remaining := (readNext_spec hsample).1
      simp only [next_of_ok hd hsample]
      rw [readNext] at hsample
      cases hvalue : read d.toDecoderState (d.total - (remaining + 1)) d.reader with
      | error e =>
        rw [hvalue] at hsample
        cases hsample
      | ok value =>
        obtain ⟨⟨sample', state⟩, r⟩ := value
        obtain ⟨hbytes, htook, hend⟩ := hread _ _ _ _ _ hvalue
        rw [hvalue] at hsample
        obtain ⟨rfl, rfl⟩ := Prod.mk.inj (Except.ok.inj hsample)
        have hnext := ih (d := ⟨state, r, remaining, d.total⟩) (hbytes ▸ hend hin) rfl
        dsimp only at hnext
        rw [hbytes] at hnext
        rw [List.countP_cons_of_pos rfl, mul_add_one]
        dsimp only
        omega

end Decoder

/-! ### Owned chunks -/

/-- A decoder that owns its chunk. -/
structure OwnedDecoder where
  inner : Decoder

namespace OwnedDecoder

def new (chunk : List UInt8) : Except String OwnedDecoder :=
  if chunk.length < 4 then .error "gorilla chunk is shorter than its count header"
  else
    let count := leNat (chunk.take 4)
    .ok ⟨⟨⟨0, 0, 0, ⟨0, 0⟩⟩, ⟨chunk, 32⟩, count, count⟩⟩

def declaredCount (d : OwnedDecoder) : ℕ := d.inner.total

def next (d : OwnedDecoder) : Option (Except ε Sample × OwnedDecoder) :=
  (d.inner.next read).map fun item => (item.1, ⟨item.2⟩)

def itemsWithin : ℕ → OwnedDecoder → List (Except ε Sample)
  | 0, _ => []
  | calls + 1, d =>
    match d.next read with
    | none => []
    | some (item, d) => item :: itemsWithin calls d

/-- Everything the iterator gives. -/
def items (d : OwnedDecoder) : List (Except ε Sample) := d.itemsWithin read d.inner.remaining

variable {read}

theorem itemsWithin_eq (calls : ℕ) (d : OwnedDecoder) :
    d.itemsWithin read calls = d.inner.itemsWithin read calls := by
  induction calls generalizing d with
  | zero => rfl
  | succ calls ih =>
    rw [itemsWithin, Decoder.itemsWithin, next]
    cases d.inner.next read with
    | none => rfl
    | some item => exact congrArg (item.1 :: ·) (ih ⟨item.2⟩)

theorem items_eq (d : OwnedDecoder) : d.items read = d.inner.items read := itemsWithin_eq _ d

/-- Both decoders start alike. -/
theorem new_eq (chunk : List UInt8) : new chunk = (Decoder.new chunk).map fun d => ⟨d⟩ := by
  rw [new, Decoder.new]
  split <;> rfl

end OwnedDecoder

/-! ### The round trip -/

theorem Encoder.count_foldl {samples : List Sample} {e : Encoder}
    (hfew : e.count + samples.length < 2 ^ 32) :
    (samples.foldl Encoder.append e).count = e.count + samples.length := by
  induction samples generalizing e with
  | nil => rfl
  | cons sample samples ih =>
    rw [List.length_cons] at hfew ⊢
    have hcount : (e.append sample).count = e.count + 1 := Nat.mod_eq_of_lt (by omega)
    rw [List.foldl_cons, ih (by omega), hcount]
    omega

/-- The count before the bits. -/
theorem leNat_close {samples : List Sample} (hfew : samples.length < 2 ^ 32) :
    leNat ((Encoder.ofSamples samples).close.take 4) = samples.length := by
  have hcount : (Encoder.ofSamples samples).count = samples.length := by
    rw [Encoder.ofSamples, Encoder.count_foldl (by simpa [Encoder.new] using hfew)]
    exact Nat.zero_add _
  rw [Encoder.close, List.take_left' (length_leBytes ..), hcount, leNat_leBytes (by omega)]

theorem length_close (e : Encoder) : e.close.length = e.byteLen := by
  rw [Encoder.close, Encoder.byteLen, List.length_append, length_leBytes]

variable {read}

/-- A decoder that collects samples gives them one by one. -/
theorem Decoder.items_of_collectWith {d : Decoder} {samples : List Sample}
    (h : d.collectWith read d.remaining = .ok samples) : d.items read = samples.map .ok := by
  rw [collectWith_eq] at h
  generalize d.items read = items at h
  induction items generalizing samples with
  | nil =>
    obtain rfl := Except.ok.inj h
    rfl
  | cons item items ih =>
    cases item with
    | error e => cases h
    | ok sample =>
      rw [gather] at h
      cases hrest : gather items with
      | error e =>
        rw [hrest] at h
        cases h
      | ok rest =>
        rw [hrest] at h
        obtain rfl := Except.ok.inj h
        rw [ih hrest]
        rfl

/-- **The codec loses nothing, whoever decodes.**  Fewer than `2 ^ 32` samples, of any timestamps and
bits, are what `decode_all` returns and what an owned decoder yields one by one, and the encoder
knows what its chunk will take. -/
theorem chunk_round_trip {samples : List Sample} (hfew : samples.length < 2 ^ 32) :
    decodeAll (Encoder.ofSamples samples).close = .ok samples ∧
      (∃ d, OwnedDecoder.new (Encoder.ofSamples samples).close = .ok d ∧
        d.declaredCount = samples.length ∧
        d.items DecoderState.readSample = samples.map .ok) ∧
      (Encoder.ofSamples samples).byteLen = (Encoder.ofSamples samples).close.length := by
  have hall := decodeAll_close hfew
  refine ⟨hall, ?_, (length_close _).symm⟩
  rw [decodeAll] at hall
  cases hnew : Decoder.new (Encoder.ofSamples samples).close with
  | error e =>
    rw [hnew] at hall
    cases hall
  | ok d =>
    rw [hnew] at hall
    have hcollect : d.collectWith DecoderState.readSample d.remaining = .ok samples :=
      (d.collectWith_readSample _).trans hall
    have hitems := Decoder.items_of_collectWith hcollect
    refine ⟨⟨d⟩, by rw [OwnedDecoder.new_eq, hnew]; rfl, ?_, (OwnedDecoder.items_eq _).trans hitems⟩
    rw [Decoder.new] at hnew
    split at hnew
    · cases hnew
    · obtain rfl := Except.ok.inj hnew
      exact leNat_close hfew

/-- A value that is no number, one timestamp twice, and time that goes back. -/
theorem chunk_round_trip_sample :
    let samples : List Sample := [(10, 0x7FF8000000000001), (10, 1), (5, 0), (-7, 0)]
    decodeAll (Encoder.ofSamples samples).close = .ok samples ∧
      (∃ d, OwnedDecoder.new (Encoder.ofSamples samples).close = .ok d ∧
        d.declaredCount = samples.length ∧
        d.items DecoderState.readSample = samples.map .ok) ∧
      (Encoder.ofSamples samples).byteLen = (Encoder.ofSamples samples).close.length :=
  chunk_round_trip (by decide)

end Metrics

end Obsy
