import Obsy.Metrics.Arena
import Obsy.Metrics.Decoders

/-!
# Buffers that grow

What a buffer counts for is measured before and after a change, and the difference is charged.

* `accountedBytes_append`: a scalar makes no buffer smaller, if the count of its open stream can
  tell it.
* `accountedBytes_appendHistogram`: a point does only where it takes the place of a stream.
* `accountedBytes_putBack`: what an aborted flush puts back does not.
-/

namespace Obsy

namespace Metrics

namespace Arena

open Part (Nanos)

variable {ν : Type} {bits : ν → Word}

/-! ### Buffers that grow -/

theorem encoderOf_append (samples : List (Nanos × ν)) (sample : Nanos × ν) :
    encoderOf bits (samples ++ [sample]) =
      (encoderOf bits samples).append (BitVec.ofInt 64 sample.1.1, bits sample.2) := by
  rw [encoderOf, encoderOf, List.map_append, Encoder.ofSamples, List.foldl_append]
  rfl

theorem count_encoderOf {samples : List (Nanos × ν)} (h : samples.length < 2 ^ 32) :
    (encoderOf bits samples).count = samples.length := by
  rw [encoderOf, Encoder.ofSamples, Encoder.count_foldl (by simpa [Encoder.new] using h)]
  simp [Encoder.new]

theorem openBytes_append (samples : List (Nanos × ν)) (sample : Nanos × ν)
    (h : samples.length + 1 < 2 ^ 32) :
    openBytes bits (samples ++ [sample]) = chunkBytes bits (samples ++ [sample]) := by
  have hcount : (encoderOf bits (samples ++ [sample])).count = samples.length + 1 := by
    rw [count_encoderOf (by simpa using h), List.length_append, List.length_singleton]
  rw [openBytes, if_neg (by simp [Encoder.isEmpty, hcount])]
  rfl

theorem openBytes_le_chunkBytes (samples : List (Nanos × ν)) :
    openBytes bits samples ≤ chunkBytes bits samples := by
  rw [openBytes]
  split_ifs
  · exact Nat.zero_le _
  · exact le_rfl

/-- One more sample in the open stream takes no byte away. -/
theorem openBytes_le_append {samples : List (Nanos × ν)} (sample : Nanos × ν)
    (h : samples.length + 1 < 2 ^ 32) :
    openBytes bits samples ≤ openBytes bits (samples ++ [sample]) := by
  rw [openBytes_append samples sample h]
  refine (openBytes_le_chunkBytes samples).trans ?_
  rw [chunkBytes, chunkBytes, encoderOf_append]
  exact Encoder.byteLen_le_append _ _

theorem inline_le_openBytes (sample : Nanos × ν) :
    inlineSampleBytes ≤ openBytes bits [sample] := by
  have hshort : ([] : List (Nanos × ν)).length + 1 < 2 ^ 32 := by
    rw [List.length_nil]
    norm_num
  have hbytes := @openBytes_append ν bits [] sample hshort
  have hword := Encoder.byteLen_append_new (BitVec.ofInt 64 sample.1.1, bits sample.2)
  rw [chunkBytes, encoderOf_append] at hbytes
  rw [List.nil_append] at hbytes
  rw [hbytes]
  exact Nat.le_trans (by norm_num [inlineSampleBytes]) hword

/-- The open stream has room for a sample that its count can tell, if it goes there. -/
def Roomy (lastTs : Option Nanos) (ts : Nanos) : SeriesBufferStorage ν → Prop
  | .stream buffer => (lastTs.any fun last => ts < last) = false → buffer.opened.length + 1 < 2 ^ 32
  | _ => True

/-- What a buffer of a stream counts for. -/
def streamBytes (bits : ν → Word) (buffer : SeriesBuffer ν) : ℕ :=
  accountedBytes bits (.stream buffer)

theorem streamBytes_put {buffer : SeriesBuffer ν} (lastTs : Option Nanos) (sample : Nanos × ν)
    (h : Roomy lastTs sample.1 (.stream buffer)) :
    streamBytes bits buffer ≤ streamBytes bits (buffer.put lastTs sample) := by
  rw [SeriesBuffer.put]
  split_ifs with hlate
  · simp only [streamBytes, accountedBytes, List.length_append, spillSampleBytes]
    omega
  · have hopen := @openBytes_le_append ν bits _ sample (h (Bool.eq_false_of_not_eq_true hlate))
    simp only [streamBytes, accountedBytes]
    omega

/-- A stream that starts with one sample counts for more than the sample alone. -/
theorem inline_le_streamBytes_put (buffer : SeriesBuffer ν) (hopened : buffer.opened = [])
    (lastTs : Option Nanos) (sample : Nanos × ν) :
    inlineSampleBytes ≤ streamBytes bits (buffer.put lastTs sample) := by
  have hinline := @inline_le_openBytes ν bits sample
  rw [SeriesBuffer.put]
  split_ifs
  · simp only [streamBytes, accountedBytes, List.length_append, List.length_singleton,
      spillSampleBytes, inlineSampleBytes]
    omega
  · simp only [streamBytes, accountedBytes, hopened, List.nil_append]
    omega

theorem accountedBytes_observe (storage : SeriesBufferStorage ν) (ts : Nanos) :
    accountedBytes bits (storage.observe ts) = accountedBytes bits storage := by
  cases storage <;> rfl

theorem accountedBytes_absorb (storage : SeriesBufferStorage ν)
    (bounds : Option (Nanos × Nanos)) :
    accountedBytes bits (storage.absorb bounds) = accountedBytes bits storage := by
  cases bounds with
  | none => rfl
  | some b => rw [SeriesBufferStorage.absorb, accountedBytes_observe, accountedBytes_observe]

theorem accountedBytes_promote (storage : SeriesBufferStorage ν) (lastTs : Option Nanos) :
    accountedBytes bits storage ≤ accountedBytes bits (storage.promote lastTs) := by
  cases storage with
  | inline ts value => exact inline_le_streamBytes_put _ rfl lastTs (ts, value)
  | _ => exact le_rfl

theorem Roomy.promote {storage : SeriesBufferStorage ν} {lastTs : Option Nanos} {ts : Nanos}
    (h : Roomy lastTs ts storage) : Roomy lastTs ts (storage.promote lastTs) := by
  cases storage with
  | inline first value =>
    rw [SeriesBufferStorage.promote, SeriesBuffer.put]
    split_ifs
    · exact fun _ => (by decide : 0 + 1 < 2 ^ 32)
    · exact fun _ => (by decide : 1 + 1 < 2 ^ 32)
  | _ => exact h

/-- A scalar makes no buffer smaller. -/
theorem accountedBytes_append {storage : SeriesBufferStorage ν} {lastTs : Option Nanos}
    {ts : Nanos} (h : Roomy lastTs ts storage) (value : ν) :
    accountedBytes bits storage ≤ accountedBytes bits (storage.append lastTs ts value) := by
  have hroomy := h.promote
  refine (accountedBytes_promote storage lastTs).trans ?_
  rw [SeriesBufferStorage.append]
  cases hstorage : storage.promote lastTs with
  | empty => exact Nat.zero_le _
  | inline first other => exact le_rfl
  | stream buffer =>
    rw [hstorage] at hroomy
    exact streamBytes_put lastTs (ts, value) hroomy
  | histogram buffer => exact le_rfl

/-- A point makes a buffer smaller only if it takes the place of a larger one. -/
theorem accountedBytes_appendHistogram {storage : SeriesBufferStorage ν}
    {point : HistogramPoint ν} (ts : Nanos)
    (h : ∀ buffer, storage = .stream buffer → streamBytes bits buffer ≤ pointBytes point) :
    accountedBytes bits storage ≤ accountedBytes bits (storage.appendHistogram ts point) := by
  cases storage with
  | empty => exact Nat.zero_le _
  | inline first value =>
    simp only [SeriesBufferStorage.appendHistogram, accountedBytes, List.map_singleton,
      List.sum_singleton, pointBytes, inlineSampleBytes, histogramPointBytes]
    omega
  | stream buffer =>
    refine (h buffer rfl).trans ?_
    simp only [SeriesBufferStorage.appendHistogram, accountedBytes, List.map_singleton,
      List.sum_singleton, le_refl]
  | histogram buffer =>
    simp only [SeriesBufferStorage.appendHistogram, accountedBytes, List.map_append,
      List.sum_append]
    exact Nat.le_add_right _ _

/-- What goes back makes no buffer smaller. -/
theorem accountedBytes_putBack (series : SnapshotSeries ν) (lastTs : Option Nanos)
    (storage : SeriesBufferStorage ν) :
    accountedBytes bits storage ≤
      accountedBytes bits (TenantSeries.putBack series lastTs storage) := by
  unfold TenantSeries.putBack
  split_ifs
  · cases storage with
    | empty => exact Nat.zero_le _
    | histogram buffer =>
      simp only [accountedBytes, List.map_append, List.sum_append]
      exact Nat.le_add_left _ _
    | _ => exact le_rfl
  · cases storage with
    | empty => exact Nat.zero_le _
    | inline ts value =>
      have hput := @inline_le_streamBytes_put ν bits
        (SeriesBuffer.observe ⟨series.chunks, [], [], none⟩ ts) rfl lastTs (ts, value)
      refine hput.trans ?_
      simp only [SeriesBufferStorage.prependAborted, streamBytes, accountedBytes,
        List.length_append, Nat.add_mul]
      omega
    | stream buffer =>
      simp only [SeriesBufferStorage.prependAborted, accountedBytes, List.map_append,
        List.sum_append, List.length_append, Nat.add_mul]
      omega
    | histogram buffer => exact le_rfl

end Arena

end Metrics

end Obsy
