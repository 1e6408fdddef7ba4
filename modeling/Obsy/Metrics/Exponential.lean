import Mathlib.Analysis.SpecialFunctions.Pow.Real
import Mathlib.Data.BitVec
import Mathlib.Data.Int.Interval
import Obsy.Metrics.Gorilla
import Obsy.Metrics.Part
import Obsy.Runs.Keyed

/-!
# Exponential histograms

A sender's buckets are merged, neighbours first, until few enough are left to be bounds, and their
counts are added up from below.  Bucket `index` at `scale` holds what is above `2 ^ (index / 2 ^ scale)`
and not above the bound of the next index.

* `exponentialHistogramPoint`: the point of a datapoint.
* `downscale_isLeast`: buckets are merged no more than it takes.
* `represents_iff`: when the point says of the datapoint what it should.
-/

namespace Obsy

namespace Metrics

open Runs (upsert Ascending valueAt)

/-! ### Datapoints -/

/-- Counts of neighbouring buckets.  A vector of words has fewer than `2 ^ 60`. -/
structure Buckets where
  offset : BitVec 32
  bucketCounts : List Word
  few : bucketCounts.length < 2 ^ 60

/-- A datapoint, its values as bits. -/
structure ExponentialHistogramDataPoint (ν : Type) where
  count : Word
  sum : Option ν
  scale : BitVec 32
  zeroCount : Word
  positive : Option Buckets
  negative : Option Buckets

/-- A bucket by its index, and its count. -/
abbrev Bucket := ℤ × Word

/-- `saturating_add`. -/
def saturatingAdd (a b : Word) : Word := BitVec.ofNat 64 (min (a.toNat + b.toNat) (2 ^ 64 - 1))

def Buckets.occupied (buckets : Buckets) : List Bucket :=
  (buckets.bucketCounts.zipIdx.filter fun bucket => 0 < bucket.1).map fun bucket =>
    (buckets.offset.toInt + bucket.2, bucket.1)

namespace ExponentialHistogramDataPoint

variable {ν : Type} (point : ExponentialHistogramDataPoint ν)

def positiveBuckets : List Bucket :=
  match point.positive with
  | some buckets => buckets.occupied
  | none => []

/-- The negative counts, added up in 64 bits. -/
def negativeTotal : Word :=
  match point.negative with
  | some buckets => buckets.bucketCounts.foldl (· + ·) 0
  | none => 0

def belowSmallest : Word := saturatingAdd point.zeroCount point.negativeTotal

end ExponentialHistogramDataPoint

/-! ### Merging -/

def maxExpHistogramBuckets : ℤ := 64

/-- The merged bucket that an index comes to. -/
def mergedIndex (downscale : ℕ) (index : ℤ) : ℤ := index >>> downscale

/-- How many indices there are from one to another after a shift. -/
def span (lo hi : ℤ) (downscale : ℕ) : ℤ :=
  mergedIndex downscale hi - mergedIndex downscale lo + 1

theorem mergedIndex_eq (downscale : ℕ) (index : ℤ) :
    mergedIndex downscale index = index / 2 ^ downscale := by
  rw [mergedIndex, Int.shiftRight_eq_div_pow]
  norm_cast

theorem mergedIndex_succ (downscale : ℕ) (index : ℤ) :
    mergedIndex (downscale + 1) index = mergedIndex downscale index / 2 := by
  rw [mergedIndex_eq, mergedIndex_eq, pow_succ, Int.ediv_ediv_of_nonneg (by positivity)]

/-- A shift brings indices together that are far apart. -/
theorem span_succ_lt {lo hi : ℤ} {downscale : ℕ} (h : maxExpHistogramBuckets < span lo hi downscale) :
    span lo hi (downscale + 1) < span lo hi downscale := by
  rw [span, maxExpHistogramBuckets] at h
  rw [span, span, mergedIndex_succ, mergedIndex_succ]
  omega

/-- The first shift, from one on, after which few enough indices are left. -/
def downscaleFrom (lo hi : ℤ) (downscale : ℕ) : ℕ :=
  if maxExpHistogramBuckets < span lo hi downscale then downscaleFrom lo hi (downscale + 1)
  else downscale
termination_by (span lo hi downscale).toNat
decreasing_by
  have hlarge : maxExpHistogramBuckets < span lo hi downscale := by assumption
  have hlt := span_succ_lt hlarge
  rw [maxExpHistogramBuckets] at hlarge
  omega

def minIndex (buckets : List Bucket) : ℤ := (buckets.map Prod.fst).min?.getD 0

def maxIndex (buckets : List Bucket) : ℤ := (buckets.map Prod.fst).max?.getD 0

def downscale (buckets : List Bucket) : ℕ := downscaleFrom (minIndex buckets) (maxIndex buckets) 0

/-- The merged buckets in the order of their indices, counts added up in 64 bits. -/
def merge (downscale : ℕ) (buckets : List Bucket) : List Bucket :=
  buckets.foldl (fun merged bucket =>
    upsert (mergedIndex downscale bucket.1) (fun old => old.getD 0 + bucket.2) merged) []

/-- The counts up to every bucket. -/
def cumulate : Word → List Bucket → List ℕ
  | _, [] => []
  | running, bucket :: buckets =>
    let running := saturatingAdd running bucket.2
    running.toNat :: cumulate running buckets

/-- `exponential_histogram_point`.  A bound is two to the power of an index times a power of two, in
`f64`. -/
def exponentialHistogramPoint {ν : Type} (boundary : ℤ → ℤ → ν)
    (point : ExponentialHistogramDataPoint ν) : HistogramPoint ν :=
  let positive := point.positiveBuckets
  if positive = [] then ⟨[], [], point.sum, point.count.toNat⟩
  else
    let downscale := downscale positive
    let scale := point.scale - BitVec.ofNat 32 downscale
    let merged := merge downscale positive
    ⟨merged.map fun bucket => boundary (bucket.1 + 1) (-scale).toInt,
      cumulate point.belowSmallest merged, point.sum, point.count.toNat⟩

/-! ### The search -/

theorem downscaleFrom_isLeast (lo hi : ℤ) (start : ℕ)
    (hbefore : ∀ d < start, maxExpHistogramBuckets < span lo hi d) :
    IsLeast {d | span lo hi d ≤ maxExpHistogramBuckets} (downscaleFrom lo hi start) := by
  induction start using downscaleFrom.induct lo hi with
  | case1 start hlarge ih =>
    rw [downscaleFrom, if_pos hlarge]
    refine ih fun d hd => ?_
    rcases Nat.lt_succ_iff_lt_or_eq.1 hd with hlt | rfl
    · exact hbefore d hlt
    · exact hlarge
  | case2 start hsmall =>
    rw [downscaleFrom, if_neg hsmall]
    exact ⟨not_lt.1 hsmall, fun d hd => not_lt.1 fun hlt => absurd hd (not_le.2 (hbefore d hlt))⟩

/-- **The search ends** at the least shift after which few enough indices are left. -/
theorem downscale_isLeast (buckets : List Bucket) :
    IsLeast {d | span (minIndex buckets) (maxIndex buckets) d ≤ maxExpHistogramBuckets}
      (downscale buckets) :=
  downscaleFrom_isLeast _ _ 0 fun _ hd => absurd hd (Nat.not_lt_zero _)

/-! ### Merged buckets -/

theorem ascending_merge (downscale : ℕ) (buckets : List Bucket) :
    Ascending (merge downscale buckets) := by
  rw [merge]
  have hnil : Ascending ([] : List Bucket) := List.Pairwise.nil
  generalize ([] : List Bucket) = merged at hnil
  induction buckets generalizing merged with
  | nil => exact hnil
  | cons bucket buckets ih => exact ih _ (hnil.upsert _ _)

theorem mem_keys_merge {downscale : ℕ} {buckets : List Bucket} {key : ℤ} :
    key ∈ (merge downscale buckets).map Prod.fst ↔
      key ∈ buckets.map fun bucket => mergedIndex downscale bucket.1 := by
  rw [merge]
  have hgeneral : ∀ merged : List Bucket,
      key ∈ (buckets.foldl (fun merged bucket => upsert (mergedIndex downscale bucket.1)
        (fun old => old.getD 0 + bucket.2) merged) merged).map Prod.fst ↔
        key ∈ merged.map Prod.fst ∨ key ∈ buckets.map fun bucket => mergedIndex downscale bucket.1 := by
    intro merged
    induction buckets generalizing merged with
    | nil => simp
    | cons bucket buckets ih =>
      rw [List.foldl_cons, ih, Runs.mem_keys_upsert, List.map_cons, List.mem_cons]
      tauto
  rw [hgeneral]
  exact or_iff_right List.not_mem_nil

/-- What a merged bucket should count. -/
def bucketTotal (downscale : ℕ) (buckets : List Bucket) (key : ℤ) : ℕ :=
  valueAt key (buckets.map fun bucket => (mergedIndex downscale bucket.1, bucket.2.toNat))

theorem toNat_sum (counts : List Word) :
    counts.sum.toNat = (counts.map BitVec.toNat).sum % 2 ^ 64 := by
  induction counts with
  | nil => rfl
  | cons count counts ih =>
    rw [List.sum_cons, BitVec.toNat_add, ih, List.map_cons, List.sum_cons, Nat.add_mod_mod]

/-- A merged bucket counts what it should up to a multiple of `2 ^ 64`. -/
theorem toNat_of_mem_merge {downscale : ℕ} {buckets : List Bucket} {bucket : Bucket}
    (h : bucket ∈ merge downscale buckets) :
    bucket.2.toNat = bucketTotal downscale buckets bucket.1 % 2 ^ 64 := by
  rw [← (ascending_merge downscale buckets).valueAt_of_mem h, merge, Runs.valueAt_foldl_upsert]
  change (0 + valueAt _ _ : Word).toNat = _
  rw [zero_add, valueAt, toNat_sum, bucketTotal, valueAt, List.map_map, List.map_map, List.map_map]
  refine congrArg (fun counts : List ℕ => counts.sum % 2 ^ 64) (List.map_congr_left fun other _ => ?_)
  simp only [Function.comp_apply]
  split <;> rfl

/-! ### Running totals -/

theorem toNat_saturatingAdd (a b : Word) :
    (saturatingAdd a b).toNat = min (a.toNat + b.toNat) (2 ^ 64 - 1) := by
  rw [saturatingAdd, BitVec.toNat_ofNat]
  omega

/-- The counts up to a bucket, saturated once. -/
theorem cumulate_eq {buckets : List Bucket} (h : Ascending buckets) (running : Word) :
    cumulate running buckets = buckets.map fun bucket => min (running.toNat +
      ((buckets.filter fun other => other.1 ≤ bucket.1).map fun other => other.2.toNat).sum)
      (2 ^ 64 - 1) := by
  induction buckets generalizing running with
  | nil => rfl
  | cons first rest ih =>
    obtain ⟨hfirst, hrest⟩ := List.pairwise_cons.1 h
    have hnone : rest.filter (fun other => other.1 ≤ first.1) = [] :=
      List.filter_eq_nil_iff.2 fun other hother => by simpa using hfirst other hother
    rw [cumulate, ih hrest, List.map_cons, toNat_saturatingAdd]
    congr 1
    · simp [hnone]
    · refine List.map_congr_left fun bucket hbucket => ?_
      have hle : first.1 ≤ bucket.1 := (hfirst bucket hbucket).le
      rw [List.filter_cons_of_pos (by simpa using hle), List.map_cons, List.sum_cons]
      omega

/-! ### Intervals -/

/-- The values of a bucket, where a step of the index is two to a power of two. -/
noncomputable def valueInterval (exponent index : ℤ) : Set ℝ :=
  Set.Ioc (2 ^ ((index : ℝ) * 2 ^ exponent)) (2 ^ (((index : ℝ) + 1) * 2 ^ exponent))

theorem valueInterval_subset_iff {exponent exponent' index index' : ℤ} :
    valueInterval exponent index ⊆ valueInterval exponent' index' ↔
      (index' : ℝ) * 2 ^ exponent' ≤ index * 2 ^ exponent ∧
        ((index : ℝ) + 1) * 2 ^ exponent ≤ (index' + 1) * 2 ^ exponent' := by
  have hstep : (0 : ℝ) < 2 ^ exponent := by positivity
  have hlt : (2 : ℝ) ^ ((index : ℝ) * 2 ^ exponent) < 2 ^ (((index : ℝ) + 1) * 2 ^ exponent) :=
    Real.rpow_lt_rpow_of_exponent_lt one_lt_two (by nlinarith)
  rw [valueInterval, valueInterval, Set.Ioc_subset_Ioc_iff hlt,
    Real.rpow_le_rpow_left_iff one_lt_two, Real.rpow_le_rpow_left_iff one_lt_two]
  exact and_comm

/-- A bucket is within the one it is merged into, at the scale that goes with the shift. -/
theorem valueInterval_subset_merged (exponent index : ℤ) (downscale : ℕ) :
    valueInterval exponent index ⊆
      valueInterval (exponent + downscale) (mergedIndex downscale index) := by
  have hstep : (0 : ℝ) < 2 ^ exponent := by positivity
  have hpos : (0 : ℤ) < 2 ^ downscale := by positivity
  have hlo : index / 2 ^ downscale * 2 ^ downscale ≤ index := Int.ediv_mul_le _ hpos.ne'
  have hhi : index + 1 ≤ (index / 2 ^ downscale + 1) * 2 ^ downscale :=
    Int.add_one_le_iff.2 (Int.lt_ediv_add_one_mul_self _ hpos)
  have hloR : ((index / 2 ^ downscale : ℤ) : ℝ) * 2 ^ downscale ≤ index := by exact_mod_cast hlo
  have hhiR : (index : ℝ) + 1 ≤ (((index / 2 ^ downscale : ℤ) : ℝ) + 1) * 2 ^ downscale := by
    exact_mod_cast hhi
  rw [valueInterval_subset_iff, mergedIndex_eq, zpow_add₀ two_ne_zero, zpow_natCast]
  constructor
  · calc ((index / 2 ^ downscale : ℤ) : ℝ) * (2 ^ exponent * 2 ^ downscale)
        = ((index / 2 ^ downscale : ℤ) : ℝ) * 2 ^ downscale * 2 ^ exponent := by ring
      _ ≤ index * 2 ^ exponent := mul_le_mul_of_nonneg_right hloR hstep.le
  · calc ((index : ℝ) + 1) * 2 ^ exponent
        ≤ (((index / 2 ^ downscale : ℤ) : ℝ) + 1) * 2 ^ downscale * 2 ^ exponent :=
          mul_le_mul_of_nonneg_right hhiR hstep.le
      _ = (((index / 2 ^ downscale : ℤ) : ℝ) + 1) * (2 ^ exponent * 2 ^ downscale) := by ring

/-- At a finer scale than its own a bucket is in no bucket of its index or of one nearer to zero. -/
theorem not_valueInterval_subset {exponent exponent' : ℤ} (hfiner : exponent' < exponent)
    (index : ℤ) (downscale : ℕ) :
    ¬ valueInterval exponent index ⊆ valueInterval exponent' (mergedIndex downscale index) := by
  have hstep' : (0 : ℝ) < 2 ^ exponent' := by positivity
  have hstep : (2 : ℝ) ^ exponent' < 2 ^ exponent := zpow_lt_zpow_right₀ one_lt_two hfiner
  have hpos : (0 : ℤ) < 2 ^ downscale := by positivity
  rw [valueInterval_subset_iff, mergedIndex_eq]
  rintro ⟨hlo, hhi⟩
  rcases le_or_gt 0 index with hindex | hindex
  · have hle : ((index / 2 ^ downscale : ℤ) : ℝ) ≤ index :=
      Int.cast_le.2 (Int.ediv_le_self _ hindex)
    have hindexR : (0 : ℝ) ≤ index := Int.cast_nonneg hindex
    have hcoarse : (((index / 2 ^ downscale : ℤ) : ℝ) + 1) * 2 ^ exponent' ≤
        ((index : ℝ) + 1) * 2 ^ exponent' := mul_le_mul_of_nonneg_right (by linarith) hstep'.le
    have hfine := mul_lt_mul_of_pos_left hstep (by linarith : (0 : ℝ) < (index : ℝ) + 1)
    linarith
  · have hge : index ≤ index / 2 ^ downscale := by
      rw [Int.le_ediv_iff_mul_le hpos]
      nlinarith
    have hgeR : (index : ℝ) ≤ ((index / 2 ^ downscale : ℤ) : ℝ) := Int.cast_le.2 hge
    have hcoarse := mul_le_mul_of_nonneg_right hgeR hstep'.le
    have hfine := mul_lt_mul_of_neg_left hstep (Int.cast_lt_zero.2 hindex : (index : ℝ) < 0)
    linarith

/-! ### Few buckets -/

theorem minIndex_le {buckets : List Bucket} {bucket : Bucket} (h : bucket ∈ buckets) :
    minIndex buckets ≤ bucket.1 := by
  have hmem : bucket.1 ∈ buckets.map Prod.fst := List.mem_map_of_mem h
  rw [minIndex]
  cases hmin : (buckets.map Prod.fst).min? with
  | none => rw [List.min?_eq_none_iff.1 hmin] at hmem; cases hmem
  | some least => exact (List.min?_eq_some_iff.1 hmin).2 _ hmem

theorem le_maxIndex {buckets : List Bucket} {bucket : Bucket} (h : bucket ∈ buckets) :
    bucket.1 ≤ maxIndex buckets := by
  have hmem : bucket.1 ∈ buckets.map Prod.fst := List.mem_map_of_mem h
  rw [maxIndex]
  cases hmax : (buckets.map Prod.fst).max? with
  | none => rw [List.max?_eq_none_iff.1 hmax] at hmem; cases hmem
  | some most => exact (List.max?_eq_some_iff.1 hmax).2 _ hmem

theorem exists_minIndex {buckets : List Bucket} (h : buckets ≠ []) :
    ∃ bucket ∈ buckets, bucket.1 = minIndex buckets := by
  rw [minIndex]
  cases hmin : (buckets.map Prod.fst).min? with
  | none => exact absurd (List.map_eq_nil_iff.1 (List.min?_eq_none_iff.1 hmin)) h
  | some least => exact List.mem_map.1 (List.min?_eq_some_iff.1 hmin).1

theorem exists_maxIndex {buckets : List Bucket} (h : buckets ≠ []) :
    ∃ bucket ∈ buckets, bucket.1 = maxIndex buckets := by
  rw [maxIndex]
  cases hmax : (buckets.map Prod.fst).max? with
  | none => exact absurd (List.map_eq_nil_iff.1 (List.max?_eq_none_iff.1 hmax)) h
  | some most => exact List.mem_map.1 (List.max?_eq_some_iff.1 hmax).1

theorem mergedIndex_mono (downscale : ℕ) {a b : ℤ} (h : a ≤ b) :
    mergedIndex downscale a ≤ mergedIndex downscale b := by
  rw [mergedIndex_eq, mergedIndex_eq]
  exact Int.ediv_le_ediv (by positivity) h

/-- Indices that increase between two ends are no more than the ends span. -/
theorem length_merge_le (downscale : ℕ) (buckets : List Bucket) :
    ((merge downscale buckets).length : ℤ) ≤
      max (span (minIndex buckets) (maxIndex buckets) downscale) 0 := by
  have hnodup : ((merge downscale buckets).map Prod.fst).Nodup :=
    (Runs.ascending_iff_keys.1 (ascending_merge downscale buckets)).imp ne_of_lt
  have hsubset : ((merge downscale buckets).map Prod.fst).toFinset ⊆
      Finset.Icc (mergedIndex downscale (minIndex buckets))
        (mergedIndex downscale (maxIndex buckets)) := by
    intro key hkey
    obtain ⟨bucket, hbucket, rfl⟩ := List.mem_map.1 (mem_keys_merge.1 (List.mem_toFinset.1 hkey))
    exact Finset.mem_Icc.2 ⟨mergedIndex_mono _ (minIndex_le hbucket),
      mergedIndex_mono _ (le_maxIndex hbucket)⟩
  have hcard := Finset.card_le_card hsubset
  rw [List.toFinset_card_of_nodup hnodup, List.length_map, Int.card_Icc] at hcard
  rw [span]
  omega

/-! ### Scales -/

variable {ν : Type}

namespace ExponentialHistogramDataPoint

variable (point : ExponentialHistogramDataPoint ν)

/-- What a step of an index of the datapoint is two to the power of two to. -/
def exponent : ℤ := -point.scale.toInt

/-- The same for the merged buckets, in 32 bits. -/
def mergedExponent : ℤ :=
  (-(point.scale - BitVec.ofNat 32 (downscale point.positiveBuckets))).toInt

theorem mem_positiveBuckets {bucket : Bucket} (h : bucket ∈ point.positiveBuckets) :
    ∃ buckets, point.positive = some buckets ∧ buckets.offset.toInt ≤ bucket.1 ∧
      bucket.1 < buckets.offset.toInt + 2 ^ 60 := by
  rw [positiveBuckets] at h
  cases hpositive : point.positive with
  | none =>
    rw [hpositive] at h
    cases h
  | some buckets =>
    rw [hpositive] at h
    obtain ⟨⟨count, i⟩, hmem, rfl⟩ := List.mem_map.1 h
    have hlt := List.snd_lt_of_mem_zipIdx (List.mem_filter.1 hmem).1
    have hfew := buckets.few
    refine ⟨buckets, rfl, ?_, ?_⟩ <;> dsimp only at hlt ⊢ <;> omega

/-- The shift of a datapoint is a small number. -/
theorem downscale_le : downscale point.positiveBuckets ≤ 60 := by
  refine (downscale_isLeast point.positiveBuckets).2 ?_
  change span _ _ 60 ≤ 64
  by_cases hnil : point.positiveBuckets = []
  · rw [hnil]
    decide
  · obtain ⟨first, hfirst, hmin⟩ := exists_minIndex hnil
    obtain ⟨last, hlast, hmax⟩ := exists_maxIndex hnil
    obtain ⟨buckets, hbuckets, hlo, -⟩ := point.mem_positiveBuckets hfirst
    obtain ⟨buckets', hbuckets', -, hhi⟩ := point.mem_positiveBuckets hlast
    obtain rfl := Option.some.inj (hbuckets.symm.trans hbuckets')
    rw [span, mergedIndex_eq, mergedIndex_eq, ← hmin, ← hmax]
    omega

theorem toInt_downscale :
    (BitVec.ofNat 32 (downscale point.positiveBuckets)).toInt = downscale point.positiveBuckets := by
  have hle := point.downscale_le
  rw [BitVec.toInt_ofNat', Int.bmod_def]
  omega

/-- The scale of the merged buckets is right where it does not wrap. -/
theorem mergedExponent_eq
    (h : -2 ^ 31 < point.scale.toInt - downscale point.positiveBuckets) :
    point.mergedExponent = point.exponent + downscale point.positiveBuckets := by
  have hlt := point.scale.toInt_lt
  have hle := point.downscale_le
  rw [mergedExponent, exponent, BitVec.toInt_neg, BitVec.toInt_sub, toInt_downscale,
    Int.bmod_def, Int.bmod_def]
  omega

/-- A scale that wraps is finer than that of the datapoint. -/
theorem mergedExponent_lt
    (h : ¬ -2 ^ 31 < point.scale.toInt - downscale point.positiveBuckets) :
    point.mergedExponent < point.exponent := by
  have hge := point.scale.le_toInt
  have hle := point.downscale_le
  rw [mergedExponent, exponent, BitVec.toInt_neg, BitVec.toInt_sub, toInt_downscale,
    Int.bmod_def, Int.bmod_def]
  omega

end ExponentialHistogramDataPoint

/-! ### Counts at or below a bound -/

namespace ExponentialHistogramDataPoint

variable (point : ExponentialHistogramDataPoint ν)

/-- The negative counts together. -/
def negativeSum : ℕ :=
  match point.negative with
  | some buckets => (buckets.bucketCounts.map BitVec.toNat).sum
  | none => 0

/-- The indices of the merged buckets. -/
def mergedKeys : List ℤ := (merge (downscale point.positiveBuckets) point.positiveBuckets).map Prod.fst

def keysUpTo (downscale : ℕ) (key : ℤ) : Finset ℤ :=
  (point.positiveBuckets.map fun bucket => mergedIndex downscale bucket.1).toFinset.filter (· ≤ key)

/-- What is not above a bound: the zeros, what is negative, and the buckets that end there or
before. -/
def atOrBelow (downscale : ℕ) (key : ℤ) : ℕ :=
  point.zeroCount.toNat + point.negativeSum +
    (point.positiveBuckets.map fun bucket =>
      if bucket.1 + 1 ≤ (key + 1) * 2 ^ downscale then bucket.2.toNat else 0).sum

/-- The same, where the negative counts and those of every merged bucket are added up in 64 bits. -/
def wrappedAtOrBelow (downscale : ℕ) (key : ℤ) : ℕ :=
  point.zeroCount.toNat + point.negativeSum % 2 ^ 64 +
    ∑ other ∈ point.keysUpTo downscale key,
      bucketTotal downscale point.positiveBuckets other % 2 ^ 64

/-- Whether one of these sums takes more than 64 bits. -/
def Overflows (downscale : ℕ) (key : ℤ) : Prop :=
  2 ^ 64 ≤ point.negativeSum ∨ ∃ other ∈ point.keysUpTo downscale key,
    2 ^ 64 ≤ bucketTotal downscale point.positiveBuckets other

theorem toNat_foldl_add (running : Word) (counts : List Word) :
    (counts.foldl (· + ·) running).toNat =
      (running.toNat + (counts.map BitVec.toNat).sum) % 2 ^ 64 := by
  induction counts generalizing running with
  | nil => exact (Nat.mod_eq_of_lt running.isLt).symm
  | cons count counts ih =>
    rw [List.foldl_cons, ih, BitVec.toNat_add, List.map_cons, List.sum_cons, Nat.mod_add_mod,
      Nat.add_assoc]

theorem toNat_negativeTotal : point.negativeTotal.toNat = point.negativeSum % 2 ^ 64 := by
  rw [negativeTotal, negativeSum]
  cases point.negative with
  | none => rfl
  | some buckets =>
    refine (toNat_foldl_add 0 buckets.bucketCounts).trans ?_
    exact congrArg (· % 2 ^ 64) (Nat.zero_add _)

/-- Bucket by bucket, or merged. -/
theorem atOrBelow_eq (downscale : ℕ) (key : ℤ) :
    point.atOrBelow downscale key = point.zeroCount.toNat + point.negativeSum +
      ∑ other ∈ point.keysUpTo downscale key, bucketTotal downscale point.positiveBuckets other := by
  have hpos : (0 : ℤ) < 2 ^ downscale := by positivity
  have hends : ∀ bucket ∈ point.positiveBuckets,
      (bucket.1 + 1 ≤ (key + 1) * 2 ^ downscale ↔
        mergedIndex downscale bucket.1 ∈ point.keysUpTo downscale key) := by
    intro bucket hbucket
    have hmem : mergedIndex downscale bucket.1 ∈
        (point.positiveBuckets.map fun bucket => mergedIndex downscale bucket.1).toFinset :=
      List.mem_toFinset.2 (List.mem_map_of_mem hbucket)
    rw [keysUpTo, Finset.mem_filter, and_iff_right hmem, mergedIndex_eq, Int.add_one_le_iff,
      ← Int.ediv_lt_iff_lt_mul hpos, Int.lt_add_one_iff]
  have hgroups := Runs.sum_valueAt (point.keysUpTo downscale key)
    (point.positiveBuckets.map fun bucket => (mergedIndex downscale bucket.1, bucket.2.toNat))
  rw [List.map_map] at hgroups
  rw [atOrBelow, List.map_congr_left fun bucket hbucket => if_congr (hends bucket hbucket) rfl rfl]
  exact congrArg (_ + ·) hgroups.symm

/-- The sums in 64 bits are right, once saturated, unless one of them wrapped and what is left does
not saturate. -/
theorem min_wrapped_iff (downscale : ℕ) (key : ℤ) :
    min (point.wrappedAtOrBelow downscale key) (2 ^ 64 - 1) =
        min (point.atOrBelow downscale key) (2 ^ 64 - 1) ↔
      (point.Overflows downscale key →
        2 ^ 64 - 1 ≤ point.wrappedAtOrBelow downscale key) := by
  rw [atOrBelow_eq]
  by_cases hover : point.Overflows downscale key
  · rw [forall_prop_of_true hover]
    have hlarge : 2 ^ 64 ≤ point.zeroCount.toNat + point.negativeSum +
        ∑ other ∈ point.keysUpTo downscale key,
          bucketTotal downscale point.positiveBuckets other := by
      rcases hover with hnegative | ⟨other, hother, hbucket⟩
      · omega
      · have := Finset.single_le_sum (f := bucketTotal downscale point.positiveBuckets)
          (fun _ _ => Nat.zero_le _) hother
        omega
    omega
  · have hfits : ¬ 2 ^ 64 ≤ point.negativeSum := fun h => hover (.inl h)
    have hsame : ∑ other ∈ point.keysUpTo downscale key,
        bucketTotal downscale point.positiveBuckets other % 2 ^ 64 =
        ∑ other ∈ point.keysUpTo downscale key,
          bucketTotal downscale point.positiveBuckets other :=
      Finset.sum_congr rfl fun other hother =>
        Nat.mod_eq_of_lt (not_le.1 fun h => hover (.inr ⟨other, hother, h⟩))
    rw [wrappedAtOrBelow, hsame, Nat.mod_eq_of_lt (not_le.1 hfits)]
    exact iff_of_true rfl fun h => absurd h hover

/-- The merged buckets up to a key count what is added up in 64 bits. -/
theorem sum_merged_upTo (downscale : ℕ) (key : ℤ) :
    (((merge downscale point.positiveBuckets).filter fun other => other.1 ≤ key).map
      fun other => other.2.toNat).sum =
      ∑ other ∈ point.keysUpTo downscale key,
        bucketTotal downscale point.positiveBuckets other % 2 ^ 64 := by
  have hascending : Ascending ((merge downscale point.positiveBuckets).filter
      fun other => other.1 ≤ key) := (ascending_merge _ _).filter _
  have hnodup := (Runs.ascending_iff_keys.1 hascending).imp ne_of_lt
  have hkeys : point.keysUpTo downscale key = (((merge downscale point.positiveBuckets).filter
      fun other => other.1 ≤ key).map Prod.fst).toFinset := by
    ext other
    have hmem := @mem_keys_merge downscale point.positiveBuckets other
    rw [keysUpTo, Finset.mem_filter, List.mem_toFinset, List.mem_toFinset, ← hmem]
    simp only [List.mem_map, List.mem_filter, decide_eq_true_eq]
    constructor
    · rintro ⟨⟨bucket, hbucket, rfl⟩, hle⟩
      exact ⟨bucket, ⟨hbucket, hle⟩, rfl⟩
    · rintro ⟨bucket, ⟨hbucket, hle⟩, rfl⟩
      exact ⟨⟨bucket, hbucket, rfl⟩, hle⟩
  rw [hkeys, List.sum_toFinset _ hnodup, List.map_map]
  refine congrArg List.sum (List.map_congr_left fun bucket hbucket => ?_)
  exact toNat_of_mem_merge (List.mem_filter.1 hbucket).1

theorem toNat_belowSmallest : point.belowSmallest.toNat =
    min (point.zeroCount.toNat + point.negativeSum % 2 ^ 64) (2 ^ 64 - 1) := by
  rw [belowSmallest, toNat_saturatingAdd, toNat_negativeTotal]

end ExponentialHistogramDataPoint

/-! ### What the point says -/

section

variable (boundary : ℤ → ℤ → ν) (point : ExponentialHistogramDataPoint ν)

/-- The point says of the datapoint what it should. -/
structure Represents : Prop where
  /-- The search ends at the least shift that does. -/
  ends : IsLeast {d | span (minIndex point.positiveBuckets) (maxIndex point.positiveBuckets) d ≤
    maxExpHistogramBuckets} (downscale point.positiveBuckets)
  bounds : (exponentialHistogramPoint boundary point).bounds =
    point.mergedKeys.map fun key => boundary (key + 1) point.mergedExponent
  few : ((exponentialHistogramPoint boundary point).bounds.length : ℤ) ≤ maxExpHistogramBuckets
  increasing : point.mergedKeys.Pairwise (· < ·)
  /-- Every bucket is in the merged one that it is counted in. -/
  contained : ∀ bucket ∈ point.positiveBuckets,
    mergedIndex (downscale point.positiveBuckets) bucket.1 ∈ point.mergedKeys ∧
      valueInterval point.exponent bucket.1 ⊆
        valueInterval point.mergedExponent (mergedIndex (downscale point.positiveBuckets) bucket.1)
  cumulative : (exponentialHistogramPoint boundary point).cumulative =
    point.mergedKeys.map fun key =>
      min (point.atOrBelow (downscale point.positiveBuckets) key) (2 ^ 64 - 1)

/-- With the least shift that does, the scale does not wrap, and where a sum of 64 bits does the
sums saturate without it. -/
def Sane : Prop :=
  ∀ d, IsLeast {d | span (minIndex point.positiveBuckets) (maxIndex point.positiveBuckets) d ≤
      maxExpHistogramBuckets} d →
    (point.positiveBuckets ≠ [] → -2 ^ 31 < point.scale.toInt - d) ∧
      ∀ bucket ∈ point.positiveBuckets, point.Overflows d (mergedIndex d bucket.1) →
        2 ^ 64 - 1 ≤ point.wrappedAtOrBelow d (mergedIndex d bucket.1)

theorem bounds_eq : (exponentialHistogramPoint boundary point).bounds =
    point.mergedKeys.map fun key => boundary (key + 1) point.mergedExponent := by
  rw [exponentialHistogramPoint, ExponentialHistogramDataPoint.mergedKeys, List.map_map]
  dsimp only
  split
  case isTrue hnil =>
    rw [hnil]
    rfl
  case isFalse => rfl

/-- The counts of the point, each saturated once. -/
theorem cumulative_eq : (exponentialHistogramPoint boundary point).cumulative =
    point.mergedKeys.map fun key =>
      min (point.wrappedAtOrBelow (downscale point.positiveBuckets) key) (2 ^ 64 - 1) := by
  have hcumulate : (exponentialHistogramPoint boundary point).cumulative =
      cumulate point.belowSmallest (merge (downscale point.positiveBuckets) point.positiveBuckets) := by
    rw [exponentialHistogramPoint]
    dsimp only
    split
    case isTrue hnil =>
      rw [hnil]
      rfl
    case isFalse => rfl
  have hascending := ascending_merge (downscale point.positiveBuckets) point.positiveBuckets
  rw [hcumulate, cumulate_eq hascending, ExponentialHistogramDataPoint.mergedKeys, List.map_map]
  refine List.map_congr_left fun bucket _ => ?_
  have hsum := point.sum_merged_upTo (downscale point.positiveBuckets) bucket.1
  rw [point.toNat_belowSmallest, hsum, Function.comp_apply,
    ExponentialHistogramDataPoint.wrappedAtOrBelow]
  omega

/-- **The point of a datapoint is right exactly when the datapoint is sane**; its search always ends,
its bounds are few and increase. -/
theorem represents_iff : Represents boundary point ↔ Sane point := by
  have hleast := downscale_isLeast point.positiveBuckets
  constructor
  · intro h d hd
    obtain rfl := hd.unique hleast
    refine ⟨fun hne => ?_, fun bucket hbucket => ?_⟩
    · by_contra hwraps
      obtain ⟨bucket, hbucket⟩ := List.exists_mem_of_ne_nil _ hne
      exact not_valueInterval_subset (point.mergedExponent_lt hwraps) _ _
        (h.contained bucket hbucket).2
    · have hkey := (h.contained bucket hbucket).1
      have hsame := (cumulative_eq boundary point).symm.trans h.cumulative
      exact (point.min_wrapped_iff _ _).1 (List.map_inj_left.1 hsame _ hkey)
  · intro h
    obtain ⟨hscale, hsums⟩ := h _ hleast
    refine ⟨hleast, bounds_eq boundary point, ?_, ?_, fun bucket hbucket => ⟨?_, ?_⟩, ?_⟩
    · rw [bounds_eq, List.length_map, ExponentialHistogramDataPoint.mergedKeys, List.length_map]
      have hlength := length_merge_le (downscale point.positiveBuckets) point.positiveBuckets
      have hspan := hleast.1
      rw [Set.mem_ofPred_eq, maxExpHistogramBuckets] at hspan
      rw [maxExpHistogramBuckets]
      omega
    · exact Runs.ascending_iff_keys.1 (ascending_merge _ _)
    · exact mem_keys_merge.2 (List.mem_map_of_mem hbucket)
    · rw [point.mergedExponent_eq (hscale (List.ne_nil_of_mem hbucket))]
      exact valueInterval_subset_merged _ _ _
    · rw [cumulative_eq]
      refine List.map_congr_left fun key hkey => (point.min_wrapped_iff _ _).2 ?_
      obtain ⟨bucket, hbucket, rfl⟩ := List.mem_map.1 (mem_keys_merge.1 hkey)
      exact hsums bucket hbucket

end

/-- A positive count, and negative ones that together take 65 bits. -/
def negativesWrap : ExponentialHistogramDataPoint Word where
  count := 1
  sum := none
  scale := 0
  zeroCount := 0
  positive := some ⟨0, [1], by decide⟩
  negative := some ⟨0, [0xFFFFFFFFFFFFFFFF, 1], by decide⟩

/-- **Negative counts are lost** when they are added up in 64 bits. -/
theorem exponential_counts_wrap :
    ¬ ∀ (boundary : ℤ → ℤ → Word) (point : ExponentialHistogramDataPoint Word),
      Represents boundary point := by
  intro h
  have hrepresents := h (fun _ _ => 0) negativesWrap
  have hzero : downscale negativesWrap.positiveBuckets = 0 :=
    Nat.le_zero.1 (hrepresents.ends.2 (by decide : span _ _ 0 ≤ 64))
  have hsame := (cumulative_eq _ _).symm.trans hrepresents.cumulative
  have hkey := (hrepresents.contained (0, 1) (by decide)).1
  have hcounts := List.map_inj_left.1 hsame _ hkey
  rw [hzero] at hcounts
  exact absurd hcounts (by decide +kernel)

end Metrics

end Obsy
