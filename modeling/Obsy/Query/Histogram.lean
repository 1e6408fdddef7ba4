import Obsy.Machine.Demands
import Obsy.Metrics.Part
import Obsy.Runs.Fallible
import Mathlib.Data.Set.Card
import Mathlib.Order.Interval.Finset.Nat
import Mathlib.Data.Int.ConditionallyCompleteOrder
import Mathlib.Data.Int.Interval

/-!
# Log histograms

Rows are counted in buckets of one width that are aligned to the epoch.  The first bucket has the
start of the range and the last one its last nanosecond; both may reach out of what 64 bits hold.

* `logsHistogram`: the bounds, the width, the buckets and the rows of an answer, with the operations
  that may overflow.
* `HistogramTotal`: nothing overflows, and the buckets are those that meet the range.
* `histogram_total_iff`: this is so exactly when the buckets themselves fit (`BucketsFit`).
* `histogram_overflows`: a request without a start.
-/

namespace Obsy

namespace Query

open Machine (Stop Harmless)
open Obsy.Part (Nanos)

/-! ### Operations -/

/-- What an `i64` holds. -/
def Fits (x : ℤ) : Prop := -2 ^ 63 ≤ x ∧ x < 2 ^ 63

instance (x : ℤ) : Decidable (Fits x) := inferInstanceAs (Decidable (_ ∧ _))

/-- The result of an operation on `i64`. -/
def fit (x : ℤ) : Except (Stop String) ℤ := if Fits x then .ok x else .error .overflow

/-! ### The range -/

/-- What the configuration bounds. -/
structure HistogramConfig where
  /-- In nanoseconds. -/
  maxQueryRange : Option ℕ
  maxHistogramBuckets : ℕ

/-- The parameters of a request that name times. -/
structure HistogramParams where
  startNs : Option Nanos
  endNs : Option Nanos
  /-- A width that was parsed is positive. -/
  bucketNs : Option {width : ℤ // 0 < width ∧ width < 2 ^ 63}

def durationToI64Ns (duration : ℕ) : ℤ := min duration (2 ^ 63 - 1)

def HistogramParams.rangeEnd (params : HistogramParams) (now : Nanos) : Nanos :=
  params.endNs.getD now

/-- The start of the range; one that is left out is as early as may be. -/
def HistogramParams.rangeStart (params : HistogramParams) (config : HistogramConfig)
    (now : Nanos) : Nanos :=
  params.startNs.getD <|
    match config.maxQueryRange with
    | some maxRange =>
      Metrics.Nanos.saturating ((params.rangeEnd now).1 - durationToI64Ns maxRange)
    | none => Nanos.min

def validateQueryRange (config : HistogramConfig) (startNs endNs : Nanos) : Except String Unit :=
  if endNs < startNs then .error "query start must not be after end"
  else match config.maxQueryRange with
    | none => .ok ()
    | some maxRange =>
      if (maxRange : ℤ) < endNs.1 - startNs.1 then
        .error ("query range exceeds the maximum of " ++ toString (maxRange / 1000000000) ++
          " seconds")
      else .ok ()

def clampToRetention (startNs : Nanos) (retentionFloorNs : Option Nanos) : Nanos :=
  match retentionFloorNs with
  | some floorNs => max startNs floorNs
  | none => startNs

/-! ### Buckets -/

def bucketLadderNs : List ℤ :=
  [1000000000, 10000000000, 60000000000, 600000000000, 3600000000000, 86400000000000]

def autoBucketTarget : ℤ := 100

def dayNs : ℤ := 86400000000000

/-- The width for a span: the first of the ladder that is wide enough, or else whole days. -/
def autoBucketNs (spanNs : ℤ) : Except (Stop String) ℤ :=
  match bucketLadderNs.find? fun bucketNs => spanNs ≤ bucketNs * autoBucketTarget with
  | some bucketNs => .ok bucketNs
  | none =>
    let perBucket := (spanNs + autoBucketTarget - 1) / autoBucketTarget
    let days := (perBucket + dayNs - 1) / dayNs
    fit ((if Fits days then days else (2 ^ 63 - 1) / dayNs) * dayNs)

/-- The width of the buckets of a range. -/
def HistogramParams.width (params : HistogramParams) (startNs endNs : Nanos) :
    Except (Stop String) ℤ :=
  match params.bucketNs with
  | some bucketNs => .ok bucketNs.1
  | none => autoBucketNs (endNs.1 - startNs.1)

def maxBuckets (config : HistogramConfig) : ℕ := min config.maxHistogramBuckets 10000

def tooManyBuckets (config : HistogramConfig) (count : ℤ) : String :=
  "histogram would have " ++ toString count ++
    " buckets over this range, more than the maximum of " ++ toString (maxBuckets config) ++
      ": widen bucket= or narrow the range"

/-- The start of the first bucket, and how many there are. -/
def histogramGrid (config : HistogramConfig) (startNs endNs bucketNs : ℤ) :
    Except (Stop String) (ℤ × ℕ) := do
  let firstBucketStart ← fit (startNs / bucketNs * bucketNs)
  let lastNs ← fit (endNs - 1)
  let lastBucketStart ← fit (lastNs / bucketNs * bucketNs)
  let count := (lastBucketStart - firstBucketStart) / bucketNs + 1
  if (maxBuckets config : ℤ) < count then .error (.refused (tooManyBuckets config count))
  else .ok (firstBucketStart, count.toNat)

/-- The last nanosecond of a bucket, where its rows are counted. -/
def bucketTime (firstBucketStart bucketNs : ℤ) (index : ℕ) : Except (Stop String) ℤ := do
  let offset ← fit (index * bucketNs)
  let bucketStart ← fit (firstBucketStart + offset)
  let rest ← fit (bucketNs - 1)
  fit (bucketStart + rest)

/-- A line of the answer. -/
def bucketRow (firstBucketStart bucketNs : ℤ) (running : ℤ) (index : ℕ) :
    Except (Stop String) (ℤ × ℤ × ℤ) := do
  let offset ← fit (index * bucketNs)
  let bucketStart ← fit (firstBucketStart + offset)
  let bucketEnd ← fit (bucketStart + bucketNs)
  .ok (bucketStart, bucketEnd, running)

/-- `CountingSink`: a row is added where the first instant not before it is, and taken away where
the instants are too late for it. -/
def accept (times : List ℤ) (rangeNs : ℤ) (diff : List ℤ) (timestampNs : ℤ) : List ℤ :=
  let start := (times.takeWhile (· < timestampNs)).length
  let stop := (times.takeWhile (· < (Metrics.Nanos.saturating (timestampNs + rangeNs)).1)).length
  if start < stop then (diff.modify start (· + 1)).modify stop (· - 1) else diff

/-- The counts of the buckets. -/
def runningCounts (times : List ℤ) (rangeNs : ℤ) (timestamps : List ℤ) : List ℤ :=
  let diff := timestamps.foldl (accept times rangeNs) (List.replicate (times.length + 1) 0)
  (List.range times.length).map fun index => (diff.take (index + 1)).sum

/-- The buckets of a range, filled from a scan that gives the times of the rows it accepts. -/
def countInBuckets (config : HistogramConfig) (startNs endNs bucketNs : ℤ)
    (scan : ℤ → ℤ → Except String (List ℤ)) : Except (Stop String) (List (ℤ × ℤ × ℤ)) := do
  let (firstBucketStart, count) ← histogramGrid config startNs endNs bucketNs
  let times ← (List.range count).mapM (bucketTime firstBucketStart bucketNs)
  let lastNs ← fit (endNs - 1)
  let timestamps ← (scan startNs lastNs).mapError .refused
  let counts := runningCounts times bucketNs timestamps
  (List.range count).mapM fun index =>
    bucketRow firstBucketStart bucketNs (counts.getD index 0) index

/-- `logs_histogram`. -/
def logsHistogram (config : HistogramConfig) (now : Nanos) (retentionFloorNs : Option Nanos)
    (params : HistogramParams) (scan : ℤ → ℤ → Except String (List ℤ)) :
    Except (Stop String) (List (ℤ × ℤ × ℤ)) := do
  let endNs := params.rangeEnd now
  let startNs := params.rangeStart config now
  (validateQueryRange config startNs endNs).mapError .refused
  let startNs := clampToRetention startNs retentionFloorNs
  if endNs ≤ startNs then .ok []
  else
    let bucketNs ← params.width startNs endNs
    countInBuckets config startNs.1 endNs.1 bucketNs scan

/-! ### What is promised -/

/-- The numbers of the aligned buckets that meet a range. -/
def bucketsMeeting (startNs endNs bucketNs : ℤ) : Set ℤ :=
  {k | ∃ t, startNs ≤ t ∧ t < endNs ∧ k * bucketNs ≤ t ∧ t < (k + 1) * bucketNs}

/-- **The arithmetic of a histogram is total** over a range, for a width. -/
structure HistogramTotal (config : HistogramConfig) (now : Nanos)
    (retentionFloorNs : Option Nanos) (params : HistogramParams) (startNs endNs : Nanos)
    (bucketNs : ℤ) : Prop where
  /-- Nothing overflows. -/
  harmless : ∀ scan, Harmless (logsHistogram config now retentionFloorNs params scan)
  /-- The buckets are those that meet the range. -/
  counted : ∀ firstBucketStart count,
    histogramGrid config startNs.1 endNs.1 bucketNs = .ok (firstBucketStart, count) →
      0 < count ∧ count = (bucketsMeeting startNs.1 endNs.1 bucketNs).ncard
  /-- They are refused when there are too many. -/
  refused : (∃ message, histogramGrid config startNs.1 endNs.1 bucketNs =
      .error (.refused message)) ↔
    maxBuckets config < (bucketsMeeting startNs.1 endNs.1 bucketNs).ncard
  /-- A width that was chosen for the range leaves few. -/
  auto : params.bucketNs = none → (bucketsMeeting startNs.1 endNs.1 bucketNs).ncard ≤ 101

/-- The buckets that meet a range fit: the first one starts in the range of an `i64`, and unless
they are too many the last one ends there, and starts less than `2 ^ 63` after the first. -/
def BucketsFit (config : HistogramConfig) (startNs endNs : Nanos) (bucketNs : ℤ) : Prop :=
  -2 ^ 63 ≤ startNs.1 / bucketNs * bucketNs ∧
    ((bucketsMeeting startNs.1 endNs.1 bucketNs).ncard ≤ maxBuckets config →
      (endNs.1 - 1) / bucketNs * bucketNs + bucketNs < 2 ^ 63 ∧
        (endNs.1 - 1) / bucketNs * bucketNs - startNs.1 / bucketNs * bucketNs < 2 ^ 63)

/-! ### Counting buckets -/

variable {startNs endNs : ℤ} {bucketNs : ℤ}

/-- The buckets that meet a range are those from that of its start to that of its end. -/
theorem bucketsMeeting_eq (hwidth : 0 < bucketNs) (hlt : startNs < endNs) :
    bucketsMeeting startNs endNs bucketNs =
      Set.Icc (startNs / bucketNs) ((endNs - 1) / bucketNs) := by
  ext k
  simp only [bucketsMeeting, Set.mem_ofPred_eq, Set.mem_Icc]
  constructor
  · rintro ⟨t, hstart, hend, hlow, hhigh⟩
    have hk : t / bucketNs = k :=
      Int.ediv_eq_iff_of_pos hwidth |>.2 ⟨by linarith, by linarith⟩
    rw [← hk]
    exact ⟨Int.ediv_le_ediv hwidth hstart, Int.ediv_le_ediv hwidth (by omega)⟩
  · rintro ⟨hlow, hhigh⟩
    -- the later of the start of the range and the start of the bucket is in both
    refine ⟨max startNs (k * bucketNs), le_max_left _ _, max_lt hlt ?_, le_max_right _ _,
      max_lt ?_ ?_⟩
    · have hmul := (Int.le_ediv_iff_mul_le hwidth).1 hhigh
      omega
    · have hdiv := Int.lt_ediv_add_one_mul_self startNs hwidth
      exact hdiv.trans_le (Int.mul_le_mul_of_nonneg_right (by omega) hwidth.le)
    · linarith

theorem ncard_bucketsMeeting (hwidth : 0 < bucketNs) (hlt : startNs < endNs) :
    ((bucketsMeeting startNs endNs bucketNs).ncard : ℤ) =
      (endNs - 1) / bucketNs - startNs / bucketNs + 1 := by
  have hle : startNs / bucketNs ≤ (endNs - 1) / bucketNs :=
    Int.ediv_le_ediv hwidth (by omega)
  rw [bucketsMeeting_eq hwidth hlt, ← Finset.coe_Icc, Set.ncard_coe_finset, Int.card_Icc]
  omega

/-- The count of the code. -/
theorem count_eq (hwidth : 0 < bucketNs) (hlt : startNs < endNs) :
    ((endNs - 1) / bucketNs * bucketNs - startNs / bucketNs * bucketNs) / bucketNs + 1 =
      ((bucketsMeeting startNs endNs bucketNs).ncard : ℤ) := by
  rw [ncard_bucketsMeeting hwidth hlt, ← Int.sub_mul, Int.mul_ediv_cancel _ hwidth.ne']

/-- A range of a hundred widths meets a hundred and one buckets at most. -/
theorem ncard_le_of_span (hwidth : 0 < bucketNs) (hlt : startNs < endNs)
    (hspan : endNs - startNs ≤ bucketNs * autoBucketTarget) :
    (bucketsMeeting startNs endNs bucketNs).ncard ≤ 101 := by
  have hcard := ncard_bucketsMeeting hwidth hlt
  have hlast := Int.ediv_mul_le (endNs - 1) hwidth.ne'
  have hfirst := Int.lt_ediv_add_one_mul_self startNs hwidth
  have hmul : ((endNs - 1) / bucketNs - startNs / bucketNs - 1) * bucketNs < 100 * bucketNs := by
    rw [autoBucketTarget] at hspan
    linarith
  have hlt' := lt_of_mul_lt_mul_right hmul hwidth.le
  omega

/-! ### The chosen width -/

theorem autoBucketNs_ok {spanNs : ℤ} (hpos : 0 < spanNs) (hspan : spanNs < 2 ^ 64) :
    ∃ width, autoBucketNs spanNs = .ok width ∧ 0 < width ∧ width < 2 ^ 63 ∧
      spanNs ≤ width * autoBucketTarget := by
  unfold autoBucketNs
  cases hfind : bucketLadderNs.find? fun bucketNs => spanNs ≤ bucketNs * autoBucketTarget with
  | some bucketNs =>
    have hmem : ∀ width ∈ bucketLadderNs, 0 < width ∧ width < 2 ^ 63 := by decide
    obtain ⟨hlow, hhigh⟩ := hmem bucketNs (List.mem_of_find?_eq_some hfind)
    have hwide := List.find?_some hfind
    exact ⟨bucketNs, rfl, hlow, hhigh, of_decide_eq_true hwide⟩
  | none =>
    have hdays : Fits (((spanNs + autoBucketTarget - 1) / autoBucketTarget + dayNs - 1) /
        dayNs) := by
      unfold Fits autoBucketTarget dayNs
      omega
    have hproduct : Fits (((spanNs + autoBucketTarget - 1) / autoBucketTarget + dayNs - 1) /
        dayNs * dayNs) := by
      unfold Fits autoBucketTarget dayNs
      omega
    simp only
    rw [if_pos hdays, fit, if_pos hproduct]
    refine ⟨_, rfl, ?_, hproduct.2, ?_⟩
    · unfold autoBucketTarget dayNs
      omega
    · unfold autoBucketTarget dayNs
      omega

theorem width_ok (params : HistogramParams) {startNs endNs : Nanos} (hlt : startNs < endNs) :
    ∃ width, params.width startNs endNs = .ok width ∧ 0 < width ∧ width < 2 ^ 63 ∧
      (params.bucketNs = none → endNs.1 - startNs.1 ≤ width * autoBucketTarget) := by
  unfold HistogramParams.width
  cases params.bucketNs with
  | some bucketNs => exact ⟨bucketNs.1, rfl, bucketNs.2.1, bucketNs.2.2, fun h => by cases h⟩
  | none =>
    have hspan : startNs.1 < endNs.1 := hlt
    have hstart := startNs.2
    have hend := endNs.2
    obtain ⟨width, hwidth, hpos, hfit, hwide⟩ :=
      @autoBucketNs_ok (endNs.1 - startNs.1) (by omega) (by omega)
    exact ⟨width, hwidth, hpos, hfit, fun _ => hwide⟩

/-! ### Operations that fit -/

theorem fit_bind {α : Type} (x : ℤ) (f : ℤ → Except (Stop String) α) :
    fit x >>= f = if Fits x then f x else .error .overflow := by
  unfold fit
  split <;> rfl

/-- The checks of a list, all in one. -/
theorem mapM_ite {α β ε : Type} (P : α → Prop) [DecidablePred P] (f : α → β) (error : ε)
    (items : List α) :
    items.mapM (fun a => if P a then (.ok (f a) : Except ε β) else .error error) =
      if ∀ a ∈ items, P a then .ok (items.map f) else .error error := by
  induction items with
  | nil => simp [pure, Except.pure]
  | cons a items ih =>
    rw [List.mapM_cons, ih]
    by_cases ha : P a
    · rw [if_pos ha]
      by_cases hall : ∀ b ∈ items, P b
      · rw [if_pos hall, if_pos (List.forall_mem_cons.2 ⟨ha, hall⟩)]
        rfl
      · rw [if_neg hall, if_neg fun h => hall (List.forall_mem_cons.1 h).2]
        rfl
    · rw [if_neg ha, if_neg fun h => ha (List.forall_mem_cons.1 h).1]
      rfl

/-- The times of the buckets, when they fit. -/
theorem times_eq (first bucketNs : ℤ) (count : ℕ) :
    (List.range count).mapM (bucketTime first bucketNs) =
      if ∀ index ∈ List.range count, Fits ((index : ℕ) * bucketNs) ∧
          Fits (first + index * bucketNs) ∧ Fits (bucketNs - 1) ∧ Fits (first + index * bucketNs + (bucketNs - 1)) then
        .ok ((List.range count).map fun index : ℕ => first + index * bucketNs + (bucketNs - 1))
      else .error .overflow := by
  rw [← mapM_ite]
  congr 1
  funext index
  simp only [bucketTime, fit_bind]
  rw [fit]
  split_ifs <;> first | rfl | (exfalso; tauto)

theorem rows_eq (first bucketNs : ℤ) (counts : List ℤ) (count : ℕ) :
    (List.range count).mapM (fun index =>
        bucketRow first bucketNs (counts.getD index 0) index) =
      if ∀ index ∈ List.range count, Fits ((index : ℕ) * bucketNs) ∧
          Fits (first + index * bucketNs) ∧ Fits (first + index * bucketNs + bucketNs) then
        .ok ((List.range count).map fun index : ℕ => (first + index * bucketNs,
          first + index * bucketNs + bucketNs, counts.getD index 0))
      else .error .overflow := by
  rw [← mapM_ite]
  congr 1
  funext index
  simp only [bucketRow, fit_bind]
  split_ifs <;> first | rfl | (exfalso; tauto)

/-- The grid, when the first bucket fits. -/
theorem histogramGrid_eq (config : HistogramConfig) {startNs endNs : Nanos} {bucketNs : ℤ}
    (hwidth : 0 < bucketNs) (hlt : startNs < endNs) :
    histogramGrid config startNs.1 endNs.1 bucketNs =
      if -2 ^ 63 ≤ startNs.1 / bucketNs * bucketNs then
        if maxBuckets config < (bucketsMeeting startNs.1 endNs.1 bucketNs).ncard then
          .error (.refused (tooManyBuckets config
            (bucketsMeeting startNs.1 endNs.1 bucketNs).ncard))
        else .ok (startNs.1 / bucketNs * bucketNs,
          (bucketsMeeting startNs.1 endNs.1 bucketNs).ncard)
      else .error .overflow := by
  have hlt : startNs.1 < endNs.1 := hlt
  have hstart := startNs.2
  have hend := endNs.2
  have hfirst := Int.ediv_mul_le startNs.1 hwidth.ne'
  have hlast := Int.ediv_mul_le (endNs.1 - 1) hwidth.ne'
  have hle : startNs.1 / bucketNs * bucketNs ≤ (endNs.1 - 1) / bucketNs * bucketNs :=
    Int.mul_le_mul_of_nonneg_right (Int.ediv_le_ediv hwidth (by omega)) hwidth.le
  have hcount := count_eq hwidth hlt
  simp only [histogramGrid, fit_bind]
  by_cases hfits : -2 ^ 63 ≤ startNs.1 / bucketNs * bucketNs
  · rw [if_pos (show Fits _ from ⟨hfits, by omega⟩), if_pos (show Fits _ by unfold Fits; omega),
      if_pos (show Fits _ from ⟨by omega, by omega⟩), if_pos hfits, hcount]
    simp only [Nat.cast_lt, Int.toNat_natCast]
  · rw [if_neg (show ¬ Fits _ from fun h => hfits h.1), if_neg hfits]

/-! ### The histogram -/

variable {config : HistogramConfig} {now : Nanos} {retentionFloorNs : Option Nanos}
  {params : HistogramParams}

/-- The buckets of a grid that fit. -/
theorem fits_of_bucketsFit {first last width : ℤ} {count : ℕ} (hwidth : 0 < width)
    (hsmall : width < 2 ^ 63) (hfirst : -2 ^ 63 ≤ first) (hlast : last + width < 2 ^ 63)
    (hspan : last - first < 2 ^ 63)
    (hcount : last = first + (count - 1) * width) {index : ℕ} (hindex : index < count) :
    Fits (index * width) ∧ Fits (first + index * width) ∧ Fits (width - 1) ∧
      Fits (first + index * width + (width - 1)) ∧ Fits (first + index * width + width) := by
  have hle : (index : ℤ) * width ≤ (count - 1) * width :=
    Int.mul_le_mul_of_nonneg_right (by omega) hwidth.le
  have hnonneg : 0 ≤ (index : ℤ) * width := Int.mul_nonneg (Int.natCast_nonneg _) hwidth.le
  rw [← sub_eq_iff_eq_add'] at hcount
  rw [← hcount] at hle
  generalize (index : ℤ) * width = offset at *
  unfold Fits
  omega

/-- The count of rows in buckets that are not too many. -/
theorem countInBuckets_eq {startNs endNs : ℤ} {width first : ℤ} {count : ℕ}
    (hgrid : histogramGrid config startNs endNs width = .ok (first, count))
    (hend : Fits (endNs - 1)) (scan : ℤ → ℤ → Except String (List ℤ)) :
    countInBuckets config startNs endNs width scan =
      if ∀ index ∈ List.range count, Fits ((index : ℕ) * width) ∧ Fits (first + index * width) ∧
          Fits (width - 1) ∧ Fits (first + index * width + (width - 1)) then
        ((scan startNs (endNs - 1)).mapError .refused).bind fun timestamps =>
          if ∀ index ∈ List.range count, Fits ((index : ℕ) * width) ∧
              Fits (first + index * width) ∧ Fits (first + index * width + width) then
            .ok ((List.range count).map fun index : ℕ => (first + index * width,
              first + index * width + width,
                (runningCounts ((List.range count).map fun index : ℕ =>
                  first + index * width + (width - 1)) width timestamps).getD index 0))
          else .error .overflow
      else .error .overflow := by
  rw [countInBuckets, hgrid]
  change ((List.range count).mapM (bucketTime first width) >>= _) = _
  rw [times_eq]
  split
  case isTrue =>
    change (fit (endNs - 1) >>= _) = _
    rw [fit_bind, if_pos hend]
    simp only [rows_eq]
    rfl
  case isFalse => rfl

/-- **The arithmetic of a histogram is total exactly when its buckets fit.** -/
theorem histogram_total_iff {startNs endNs : Nanos} {bucketNs : ℤ}
    (hend : params.rangeEnd now = endNs)
    (hstart : clampToRetention (params.rangeStart config now) retentionFloorNs = startNs)
    (hvalid : validateQueryRange config (params.rangeStart config now) endNs = .ok ())
    (hlt : startNs < endNs) (hbucket : params.width startNs endNs = .ok bucketNs) :
    HistogramTotal config now retentionFloorNs params startNs endNs bucketNs ↔
      BucketsFit config startNs endNs bucketNs := by
  obtain ⟨width, hwidth, hpos, hsmall, hauto⟩ := width_ok params hlt
  obtain rfl : width = bucketNs := Except.ok.inj (hwidth.symm.trans hbucket)
  have hgrid := histogramGrid_eq config hpos hlt
  have hltInt : startNs.1 < endNs.1 := hlt
  have hstartFits := startNs.2
  have hendFits := endNs.2
  have hcard := ncard_bucketsMeeting hpos hltInt
  have hpositive : 0 < (bucketsMeeting startNs.1 endNs.1 width).ncard := by
    have hle : startNs.1 / width ≤ (endNs.1 - 1) / width := Int.ediv_le_ediv hpos (by omega)
    omega
  have hlast : (endNs.1 - 1) / width * width = startNs.1 / width * width +
      (((bucketsMeeting startNs.1 endNs.1 width).ncard : ℤ) - 1) * width := by
    rw [hcard]
    ring
  have hfirstLe := Int.ediv_mul_le startNs.1 hpos.ne'
  generalize hcount : (bucketsMeeting startNs.1 endNs.1 width).ncard = count at *
  have hrun : ∀ scan, logsHistogram config now retentionFloorNs params scan =
      countInBuckets config startNs.1 endNs.1 width scan := by
    intro scan
    simp only [logsHistogram, hend, hstart, hvalid, Except.mapError, bind, Except.bind,
      if_neg (not_le.2 hlt), hwidth]
  have hbefore : Fits (endNs.1 - 1) := ⟨by omega, by omega⟩
  constructor
  · rintro ⟨hharmless, -, -, -⟩
    have hfault := hharmless fun _ _ => .ok []
    rw [hrun] at hfault
    by_cases hfirst : -2 ^ 63 ≤ startNs.1 / width * width
    · refine ⟨hfirst, fun hfew => ?_⟩
      rw [if_pos hfirst, if_neg (not_lt.2 (hcount ▸ hfew))] at hgrid
      rw [countInBuckets_eq hgrid hbefore] at hfault
      -- the last bucket has the greatest of all these numbers
      have hindex : count - 1 ∈ List.range count := List.mem_range.2 (by omega)
      have hcast : ((count - 1 : ℕ) : ℤ) = count - 1 := by omega
      split at hfault
      case isFalse => cases hfault .overflow rfl
      case isTrue htimes =>
        change Harmless (if _ then _ else _) at hfault
        split at hfault
        case isFalse => cases hfault .overflow rfl
        case isTrue hrows =>
          obtain ⟨hoffset, _, hbound⟩ := hrows _ hindex
          rw [hcast] at hoffset hbound
          rw [hlast]
          exact ⟨hbound.2, by linarith [hoffset.2]⟩
    · rw [if_neg hfirst] at hgrid
      rw [countInBuckets, hgrid] at hfault
      cases hfault .overflow rfl
  · rintro ⟨hfirst, hfew⟩
    rw [if_pos hfirst] at hgrid
    refine ⟨fun scan => ?_, fun first other hok => ?_, ?_, fun hnone => ?_⟩
    · rw [hrun]
      by_cases hmany : maxBuckets config < count
      · rw [if_pos hmany] at hgrid
        rw [countInBuckets, hgrid]
        exact Harmless.refused _
      · rw [if_neg hmany] at hgrid
        obtain ⟨hbound, hspan⟩ := hfew (by omega)
        have hfits : ∀ index ∈ List.range count, _ := fun index hindex =>
          fits_of_bucketsFit hpos hsmall hfirst hbound hspan hlast (List.mem_range.1 hindex)
        rw [countInBuckets_eq hgrid hbefore,
          if_pos fun index hindex => ⟨(hfits index hindex).1, (hfits index hindex).2.1,
            (hfits index hindex).2.2.1, (hfits index hindex).2.2.2.1⟩]
        cases scan startNs.1 (endNs.1 - 1) with
        | error message => exact Harmless.refused message
        | ok timestamps =>
          change Harmless (if _ then _ else _)
          rw [if_pos fun index hindex => ⟨(hfits index hindex).1, (hfits index hindex).2.1,
            (hfits index hindex).2.2.2.2⟩]
          exact Harmless.ok _
    · rw [hgrid] at hok
      split at hok
      case isTrue => cases hok
      case isFalse =>
        obtain ⟨-, rfl⟩ := Prod.mk.inj (Except.ok.inj hok)
        exact ⟨hpositive, hcount.symm⟩
    · rw [hgrid, hcount]
      constructor
      · rintro ⟨message, hrefused⟩
        by_contra hfewer
        rw [if_neg hfewer] at hrefused
        cases hrefused
      · intro hmany
        rw [if_pos hmany]
        exact ⟨_, rfl⟩
    · exact ncard_le_of_span hpos hltInt (hauto hnone)

/-- A configuration that does not bound the range. -/
def unbounded : HistogramConfig := ⟨none, 1000⟩

/-- A range of ten seconds. -/
def tenSeconds : HistogramParams :=
  ⟨some ⟨5000000000, by decide⟩, some ⟨15000000000, by decide⟩, none⟩

theorem histogram_total_ten_seconds : HistogramTotal unbounded .zero none tenSeconds
    ⟨5000000000, by decide⟩ ⟨15000000000, by decide⟩ 1000000000 :=
  (histogram_total_iff rfl rfl rfl (by decide) rfl).2 ⟨by decide, fun _ => ⟨by decide, by decide⟩⟩

/-- The first instant of 2026. -/
def newYear : Nanos := ⟨1767225600000000000, by decide⟩

/-- **A request without a start**, for a tenant whose rows are kept for good: the first bucket of
whole days would start before the least `i64`. -/
theorem histogram_overflows :
    validateQueryRange unbounded .min newYear = .ok () ∧
      logsHistogram unbounded newYear none ⟨none, none, none⟩ (fun _ _ => .ok []) =
        .error .overflow ∧
      ∃ width, HistogramParams.width ⟨none, none, none⟩ .min newYear = .ok width ∧
        ¬ HistogramTotal unbounded newYear none ⟨none, none, none⟩ .min newYear width := by
  have hrun : logsHistogram unbounded newYear none ⟨none, none, none⟩ (fun _ _ => .ok []) =
      .error .overflow := rfl
  refine ⟨rfl, hrun, _, rfl, fun htotal => ?_⟩
  cases htotal.harmless _ .overflow hrun

end Query

end Obsy
