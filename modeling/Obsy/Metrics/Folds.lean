import Obsy.Metrics.Scan
import Obsy.Runs.Stable
import Mathlib.Algebra.Order.Field.Rat
import Mathlib.Algebra.BigOperators.Group.List.Basic

/-!
# Folds of a metric query

A query answers at the points of a grid: with the newest sample, or with the increase over the window
that ends at the point.  The increase walks from the last sample at or before the window, if the
query has read it; how far it reads back is counted from the start of the grid.  Values are rational.

* `rawAt`, `increaseOver`, `foldSeries`: the folds.
* `decoded`: what the scan gives a series on a grid.
* `GridFree`: a point has the same value on every grid that it is on.
* `gridFree_iff`: it has unless some grids have read the last sample before its window and others
  not, and that sample counts.
-/

namespace Obsy

namespace Metrics

open Part (Nanos)

/-! ### The folds -/

/-- A sample of a series. -/
abbrev TimedValue := Nanos × ℚ

/-- `partition_point`, on a list whose first elements are those that meet the condition. -/
def partitionPoint {α : Type} (p : α → Bool) (items : List α) : ℕ := (items.takeWhile p).length

/-- `raw_at`: the newest sample in the lookback, or no point. -/
def rawAt (samples : List TimedValue) (t lookbackNs : Nanos) : Option ℚ :=
  let at_ := partitionPoint (fun sample => sample.1 ≤ t) samples
  match (samples.take at_).getLast? with
  | none => none
  | some (ts, value) => if Nanos.saturating (t.1 - lookbackNs.1) < ts then some value else none

/-- What two samples that follow each other add; after a reset it is the new value. -/
def delta (previous next : ℚ) : ℚ := if previous ≤ next then next - previous else next

def walkSum : List TimedValue → ℚ
  | previous :: next :: rest => delta previous.2 next.2 + walkSum (next :: rest)
  | _ => 0

/-- The increase of a walk: of less than two samples there is none. -/
def walkIncrease (walk : List TimedValue) : Option ℚ :=
  if walk.length < 2 then none else some (walkSum walk)

/-- The walk of `increase_over`: from the last sample at or before the window, if there is one. -/
def walkOver (samples : List TimedValue) (t rangeNs : Nanos) : List TimedValue :=
  let windowStart := Nanos.saturating (t.1 - rangeNs.1)
  let upTo := samples.take (partitionPoint (fun sample => sample.1 ≤ t) samples)
  let firstInside := partitionPoint (fun sample => sample.1 ≤ windowStart) upTo
  upTo.drop (firstInside - 1)

/-- `increase_over`. -/
def increaseOver (samples : List TimedValue) (t rangeNs : Nanos) : Option ℚ :=
  walkIncrease (walkOver samples t rangeNs)

inductive MetricFunc where
  | rate
  | increase
deriving DecidableEq

/-- What a query folds with.  A function has a range, and nothing else has one. -/
structure MetricParams where
  func : Option MetricFunc
  rangeNs : Option Nanos
  lookbackNs : Nanos
  stepNs : Nanos
  ranged : rangeNs.isSome = func.isSome
  range_pos : ∀ range ∈ rangeNs, Nanos.zero < range
  lookback_pos : Nanos.zero < lookbackNs
  step_pos : Nanos.zero < stepNs

/-- The points of a query. -/
structure EvalGrid where
  startNs : Nanos
  endNs : Nanos
  steps : ℕ

/-- `metric_grid`, when start and end are in order. -/
def metricGrid (startNs endNs stepNs : Nanos) : EvalGrid :=
  ⟨startNs, endNs, ((endNs.1 - startNs.1) / stepNs.1).toNat + 1⟩

/-- The grid of `metrics_instant`. -/
def instantGrid (atNs : Nanos) : EvalGrid := ⟨atNs, atNs, 1⟩

def EvalGrid.timestamps (grid : EvalGrid) (stepNs : Nanos) : List Nanos :=
  (List.range grid.steps).map fun index : ℕ =>
    Nanos.saturating (grid.startNs.1 + index * stepNs.1)

/-- The value of a series at a point. -/
def MetricParams.valueAt (params : MetricParams) (samples : List TimedValue) (t : Nanos) :
    Option ℚ :=
  let rangeNs := params.rangeNs.getD Nanos.zero
  match params.func with
  | none => rawAt samples t params.lookbackNs
  | some .increase => increaseOver samples t rangeNs
  | some .rate =>
    (increaseOver samples t rangeNs).map fun increase => increase / (rangeNs.1 / 1000000000)

/-- `fold_series`, of one series: its points, without those that have no value. -/
def foldSeries (params : MetricParams) (grid : EvalGrid) (stepNs : Nanos)
    (samples : List TimedValue) : List TimedValue :=
  (grid.timestamps stepNs).filterMap fun t => (params.valueAt samples t).map fun value => (t, value)

/-- How far a query reads back before its grid. -/
def MetricParams.decodeMarginNs (params : MetricParams) : Nanos :=
  max (params.rangeNs.getD Nanos.zero) params.lookbackNs

/-- What the scan of a query gives a series that has these samples stored. -/
def MetricParams.decoded (params : MetricParams) (grid : EvalGrid) (stored : List TimedValue) :
    List TimedValue :=
  inWindow (Nanos.saturating (grid.startNs.1 - params.decodeMarginNs.1)) grid.endNs stored

/-- What `metrics_query` reports for a series. -/
def MetricParams.query (params : MetricParams) (startNs endNs : Nanos) (stored : List TimedValue) :
    List TimedValue :=
  let grid := metricGrid startNs endNs params.stepNs
  foldSeries params grid params.stepNs (params.decoded grid stored)

/-- What `metrics_instant` reports for a series. -/
def MetricParams.instant (params : MetricParams) (atNs : Nanos) (stored : List TimedValue) :
    List TimedValue :=
  let grid := instantGrid atNs
  foldSeries params grid Nanos.one (params.decoded grid stored)

/-! ### What is stored -/

theorem take_partitionPoint {α : Type} (p : α → Bool) (items : List α) :
    items.take (partitionPoint p items) = items.takeWhile p := by
  exact (List.prefix_iff_eq_take.1 (List.takeWhile_prefix p)).symm

section Dedup

variable {β : Type} {samples : List (Nanos × β)}

theorem mem_of_mem_dedupTimes {sample : Nanos × β} (h : sample ∈ dedupTimes samples) :
    sample ∈ samples := by
  induction samples with
  | nil => cases h
  | cons first rest ih =>
    rcases List.mem_cons.1 h with rfl | h
    · exact List.mem_cons_self
    · exact List.mem_cons_of_mem _ (ih ((List.dropWhile_sublist _).subset h))

theorem pairwise_dedupTimes (hsorted : samples.Pairwise fun a b => a.1 ≤ b.1) :
    (dedupTimes samples).Pairwise fun a b => a.1 ≤ b.1 := by
  induction samples with
  | nil => exact List.Pairwise.nil
  | cons first rest ih =>
    obtain ⟨hfirst, hrest⟩ := List.pairwise_cons.1 hsorted
    refine List.pairwise_cons.2 ⟨fun x hx => ?_, (ih hrest).sublist (List.dropWhile_sublist _)⟩
    exact hfirst x (mem_of_mem_dedupTimes ((List.dropWhile_sublist _).subset hx))

/-- Of the samples of a sorted list those of the first time are dropped. -/
theorem dedupTimes_cons {first : Nanos × β}
    (hsorted : (first :: samples).Pairwise fun a b => a.1 ≤ b.1) :
    dedupTimes (first :: samples) =
      first :: (dedupTimes samples).filter fun later => !(later.1 == first.1) := by
  obtain ⟨hfirst, hrest⟩ := List.pairwise_cons.1 hsorted
  have hafter : ∀ x ∈ dedupTimes samples, first.1 ≤ x.1 := fun x hx =>
    hfirst x (mem_of_mem_dedupTimes hx)
  rw [dedupTimes]
  -- no later sample is of an earlier time
  refine congrArg (first :: ·) (Runs.dropWhile_eq_filter (pairwise_dedupTimes hrest)
    fun x hx y _ hxy hy => ?_)
  have hy : y.1 = first.1 := eq_of_beq hy
  exact beq_iff_eq.2 (le_antisymm (hxy.trans hy.le) (hafter x hx))

/-- **Dropping samples of a time goes with a selection by time.** -/
theorem dedupTimes_filter (hsorted : samples.Pairwise fun a b => a.1 ≤ b.1) {p : Nanos × β → Bool}
    (hp : ∀ x y : Nanos × β, x.1 = y.1 → p x = p y) :
    dedupTimes (samples.filter p) = (dedupTimes samples).filter p := by
  induction samples with
  | nil => rfl
  | cons first rest ih =>
    have hrest := (List.pairwise_cons.1 hsorted).2
    rw [dedupTimes_cons hsorted, List.filter_cons]
    by_cases h : p first = true
    · rw [if_pos h, List.filter_cons_of_pos h, List.filter_comm, ← ih hrest]
      refine dedupTimes_cons ?_
      rw [← List.filter_cons_of_pos h]
      exact hsorted.filter p
    · rw [if_neg h, List.filter_cons_of_neg h, ih hrest, List.filter_filter]
      refine List.filter_congr fun x _ => ?_
      by_cases hx : x.1 = first.1
      · rw [hp x first hx, Bool.eq_false_of_not_eq_true h, Bool.false_and]
      · rw [beq_eq_false_iff_ne.2 hx, Bool.not_false, Bool.and_true]

/-- Samples in order, one for each time. -/
def timeline (samples : List (Nanos × β)) : List (Nanos × β) :=
  dedupTimes (samples.mergeSort fun a b => a.1 ≤ b.1)

theorem pairwise_timeline (samples : List (Nanos × β)) :
    (timeline samples).Pairwise fun a b => a.1 ≤ b.1 :=
  pairwise_dedupTimes (Runs.pairwise_mergeSort samples)

/-- A window of samples is cut out of all. -/
theorem inWindow_eq (startNs endNs : Nanos) (samples : List (Nanos × β)) :
    inWindow startNs endNs samples =
      (timeline samples).filter fun sample => startNs ≤ sample.1 && sample.1 ≤ endNs := by
  have hkey : ∀ x y : Nanos × β, x.1 = y.1 →
      (decide (startNs ≤ x.1) && decide (x.1 ≤ endNs)) =
        (decide (startNs ≤ y.1) && decide (y.1 ≤ endNs)) := fun x y h => by rw [h]
  rw [inWindow, timeline, ← @Runs.filter_mergeSort (Nanos × β) Nanos _ Prod.fst,
    dedupTimes_filter (Runs.pairwise_mergeSort samples) hkey]

end Dedup

/-! ### Walks -/

section Walks

variable {samples : List TimedValue} {t rangeNs w : Nanos}

/-- The samples up to a time are a beginning. -/
theorem take_upTo (hsorted : samples.Pairwise fun a b => a.1 ≤ b.1) (t : Nanos) :
    samples.take (partitionPoint (fun sample => sample.1 ≤ t) samples) =
      samples.filter fun sample => sample.1 ≤ t := by
  rw [take_partitionPoint]
  refine Runs.takeWhile_eq_filter hsorted fun x _ y _ hxy hy => ?_
  exact decide_eq_true (hxy.trans (of_decide_eq_true hy))

theorem Nanos.saturating_mono {a b : ℤ} (h : a ≤ b) : Nanos.saturating a ≤ Nanos.saturating b := by
  change max (-2 ^ 63) (min (2 ^ 63 - 1) a) ≤ max (-2 ^ 63) (min (2 ^ 63 - 1) b)
  omega

theorem Nanos.saturating_val (ts : Nanos) : Nanos.saturating ts.1 = ts := by
  have := ts.2
  refine Subtype.ext ?_
  change max (-2 ^ 63) (min (2 ^ 63 - 1) ts.1) = ts.1
  omega

/-- A time and an earlier one by a positive length. -/
theorem Nanos.saturating_sub_le (t : Nanos) {length : Nanos} (hlength : Nanos.zero ≤ length) :
    Nanos.saturating (t.1 - length.1) ≤ t := by
  have hpos : (0 : ℤ) ≤ length.1 := hlength
  calc Nanos.saturating (t.1 - length.1)
    _ ≤ Nanos.saturating t.1 := Nanos.saturating_mono (by omega)
    _ = t := Nanos.saturating_val t

theorem drop_length_sub_one {α : Type} (front back : List α) :
    (front ++ back).drop (front.length - 1) = front.getLast?.toList ++ back := by
  rcases List.eq_nil_or_concat front with rfl | ⟨before, last, rfl⟩
  · rfl
  · rw [List.concat_eq_append, List.length_append, List.length_singleton, Nat.add_sub_cancel,
      List.append_assoc, List.drop_left, List.getLast?_concat]
    rfl

/-- **The walk** is the last sample at or before the window, if there is one, and those inside. -/
theorem walkOver_eq (hsorted : samples.Pairwise fun a b => a.1 ≤ b.1)
    (hw : Nanos.saturating (t.1 - rangeNs.1) = w) (hwt : w ≤ t) :
    walkOver samples t rangeNs =
      (samples.filter fun sample => sample.1 ≤ w).getLast?.toList ++
        samples.filter fun sample => w < sample.1 && sample.1 ≤ t := by
  have hupTo : (samples.filter fun sample => decide (sample.1 ≤ t)).Pairwise fun a b => a.1 ≤ b.1 :=
    hsorted.filter _
  have hbefore : (samples.filter fun sample => decide (sample.1 ≤ t)).filter
      (fun sample => decide (sample.1 ≤ w)) =
        samples.filter fun sample => decide (sample.1 ≤ w) := by
    rw [List.filter_filter]
    refine List.filter_congr fun x _ => ?_
    rw [Bool.and_eq_left_iff_imp]
    exact fun hx => decide_eq_true ((of_decide_eq_true hx).trans hwt)
  have hinside : (samples.filter fun sample => decide (sample.1 ≤ t)).filter
      (fun sample => !decide (sample.1 ≤ w)) =
        samples.filter fun sample => decide (w < sample.1) && decide (sample.1 ≤ t) := by
    rw [List.filter_filter]
    refine List.filter_congr fun x _ => ?_
    rw [← decide_not, decide_eq_decide.2 not_le]
  rw [walkOver, take_upTo hsorted, hw]
  generalize samples.filter (fun sample => decide (sample.1 ≤ t)) = upTo at hupTo hbefore hinside
  have hdown : ∀ x ∈ upTo, ∀ y ∈ upTo, x.1 ≤ y.1 → decide (y.1 ≤ w) = true →
      decide (x.1 ≤ w) = true := fun x _ y _ hxy hy =>
    decide_eq_true (hxy.trans (of_decide_eq_true hy))
  have hcut := Runs.filter_append_filter hupTo hdown
  rw [hbefore, hinside] at hcut
  rw [partitionPoint, Runs.takeWhile_eq_filter hupTo hdown, hbefore, ← hcut]
  exact drop_length_sub_one _ _

end Walks

/-! ### Points and grids -/

variable (params : MetricParams) (stored : List TimedValue) (t : Nanos)

/-- The last sample at or before the window that ends at a point. -/
def MetricParams.base : Option TimedValue :=
  ((timeline stored).filter fun sample =>
    sample.1 ≤ Nanos.saturating (t.1 - (params.rangeNs.getD Nanos.zero).1)).getLast?

/-- The samples of the window. -/
def MetricParams.inside : List TimedValue :=
  (timeline stored).filter fun sample =>
    Nanos.saturating (t.1 - (params.rangeNs.getD Nanos.zero).1) < sample.1 && sample.1 ≤ t

/-- From where on a query whose grid starts here has read. -/
def MetricParams.decodeStart (startNs : Nanos) : Nanos :=
  Nanos.saturating (startNs.1 - params.decodeMarginNs.1)

/-- A point of the grid of a query. -/
def MetricParams.OnGrid (startNs endNs : Nanos) : Prop :=
  startNs ≤ endNs ∧ t ∈ (metricGrid startNs endNs params.stepNs).timestamps params.stepNs

instance (startNs endNs : Nanos) : Decidable (params.OnGrid t startNs endNs) :=
  inferInstanceAs (Decidable (_ ∧ _))

/-- A point has the same value on every grid that it is on, as an instant too, and the increase walks
from the last sample before the window if it does on any grid. -/
structure GridFree : Prop where
  grids : ∀ startNs endNs startNs' endNs', params.OnGrid t startNs endNs →
    params.OnGrid t startNs' endNs' →
    (params.query startNs endNs stored).lookup t = (params.query startNs' endNs' stored).lookup t
  instant : ∀ startNs endNs, params.OnGrid t startNs endNs →
    (params.query startNs endNs stored).lookup t = (params.instant t stored).lookup t
  walked : params.func = some .increase → ∀ base, params.base stored t = some base →
    (∃ startNs endNs, params.OnGrid t startNs endNs ∧
      base ∈ walkOver (params.decoded (metricGrid startNs endNs params.stepNs) stored) t
        (params.rangeNs.getD Nanos.zero)) →
    ∀ startNs endNs, params.OnGrid t startNs endNs →
      (params.query startNs endNs stored).lookup t =
        walkIncrease (base :: params.inside stored t)

/-- The last sample before the window is read on some grid and not on that which starts at the point,
and counts: the window has a single sample, or the first one there has another value and is not a
reset to zero. -/
def MetricParams.BaseLost : Prop :=
  ∃ base, params.base stored t = some base ∧ base.1 < params.decodeStart t ∧
    (∃ startNs, params.OnGrid t startNs t ∧ params.decodeStart startNs ≤ base.1) ∧
      ∃ first rest, params.inside stored t = first :: rest ∧
        (rest = [] ∨ first.2 ≠ base.2 ∧ ¬ (first.2 = 0 ∧ 0 < base.2))

variable {params stored t} {w : Nanos}

theorem mem_timestamps {grid : EvalGrid} {stepNs : Nanos} :
    t ∈ grid.timestamps stepNs ↔
      ∃ index < grid.steps, Nanos.saturating (grid.startNs.1 + index * stepNs.1) = t := by
  rw [EvalGrid.timestamps, List.mem_map]
  exact exists_congr fun index => by rw [List.mem_range]

theorem span_le {startNs endNs : Nanos} {index : ℕ} (hle : startNs ≤ endNs)
    (hindex : index < (metricGrid startNs endNs params.stepNs).steps) :
    (index : ℤ) * params.stepNs.1 ≤ endNs.1 - startNs.1 := by
  have hstep : (0 : ℤ) < params.stepNs.1 := params.step_pos
  have hle : startNs.1 ≤ endNs.1 := hle
  have hlt : index < ((endNs.1 - startNs.1) / params.stepNs.1).toNat + 1 := hindex
  have hnonneg : 0 ≤ (endNs.1 - startNs.1) / params.stepNs.1 := Int.ediv_nonneg (by omega) hstep.le
  exact (Int.le_ediv_iff_mul_le hstep).1 (by omega)

/-- A point of a grid is between its ends. -/
theorem MetricParams.OnGrid.le {startNs endNs : Nanos} (h : params.OnGrid t startNs endNs) :
    startNs ≤ t ∧ t ≤ endNs := by
  obtain ⟨hle, ht⟩ := h
  obtain ⟨index, hindex, rfl⟩ := mem_timestamps.1 ht
  have hstep : (0 : ℤ) < params.stepNs.1 := params.step_pos
  have hspan : (index : ℤ) * params.stepNs.1 ≤ endNs.1 - startNs.1 := span_le hle hindex
  have hpos : 0 ≤ (index : ℤ) * params.stepNs.1 := Int.mul_nonneg (Int.natCast_nonneg _) hstep.le
  constructor
  · calc startNs
      _ = Nanos.saturating startNs.1 := (Nanos.saturating_val startNs).symm
      _ ≤ _ := Nanos.saturating_mono (by dsimp only [metricGrid]; omega)
  · calc Nanos.saturating (startNs.1 + index * params.stepNs.1)
      _ ≤ Nanos.saturating endNs.1 := Nanos.saturating_mono (by omega)
      _ = endNs := Nanos.saturating_val endNs

/-- A point of a list of points that have values, by its time. -/
theorem lookup_points {β : Type} {points : List Nanos} {value : Nanos → Option β}
    (ht : t ∈ points) :
    (points.filterMap fun t => (value t).map fun found => (t, found)).lookup t = value t := by
  induction points with
  | nil => cases ht
  | cons point points ih =>
    rw [List.filterMap_cons]
    by_cases h : point = t
    · subst h
      cases hvalue : value point with
      | some found => exact List.lookup_cons_self
      | none =>
        refine List.lookup_eq_none_iff.2 fun pair hpair => ?_
        obtain ⟨other, _, hother⟩ := List.mem_filterMap.1 hpair
        obtain ⟨found, hsome, rfl⟩ := Option.map_eq_some_iff.1 hother
        rw [bne_iff_ne]
        rintro rfl
        rw [hvalue] at hsome
        cases hsome
    · have hrest := ih ((List.mem_cons.1 ht).resolve_left (Ne.symm h))
      cases value point with
      | none => exact hrest
      | some found =>
        rw [Option.map_some, List.lookup_cons, beq_eq_false_iff_ne.2 (Ne.symm h), hrest]

/-- A grid that has a point has it as its end, too. -/
theorem MetricParams.OnGrid.upTo {startNs endNs : Nanos} (h : params.OnGrid t startNs endNs) :
    params.OnGrid t startNs t := by
  have hle := h.le
  obtain ⟨hse, ht⟩ := h
  obtain ⟨index, hindex, hvalue⟩ := mem_timestamps.1 ht
  refine ⟨hle.1, mem_timestamps.2 ⟨index, Nat.lt_succ_of_le ?_, hvalue⟩⟩
  have hstep : (0 : ℤ) < params.stepNs.1 := params.step_pos
  have hspan : (index : ℤ) * params.stepNs.1 ≤ endNs.1 - startNs.1 := span_le hse hindex
  have hpos : 0 ≤ (index : ℤ) * params.stepNs.1 := Int.mul_nonneg (Int.natCast_nonneg _) hstep.le
  -- the sum is within the range of times
  have hval : t.1 = startNs.1 + index * params.stepNs.1 := by
    have hend := endNs.2
    have hstart := startNs.2
    have := congrArg Subtype.val hvalue
    change max (-2 ^ 63) (min (2 ^ 63 - 1) (startNs.1 + index * params.stepNs.1)) = t.1 at this
    omega
  have hcount : (index : ℤ) ≤ (t.1 - startNs.1) / params.stepNs.1 :=
    (Int.le_ediv_iff_mul_le hstep).2 (by omega)
  change index ≤ ((t.1 - startNs.1) / params.stepNs.1).toNat
  omega

/-! ### What a grid has read -/

theorem MetricParams.range_nonneg (params : MetricParams) :
    Nanos.zero ≤ params.rangeNs.getD Nanos.zero := by
  cases h : params.rangeNs with
  | none => exact le_rfl
  | some range => exact (params.range_pos range h).le

/-- A later grid has read less. -/
theorem MetricParams.decodeStart_mono {s s' : Nanos} (h : s ≤ s') :
    params.decodeStart s ≤ params.decodeStart s' := by
  refine Nanos.saturating_mono ?_
  have : s.1 ≤ s'.1 := h
  omega

/-- No grid has missed a sample after the beginning of the window or of the lookback. -/
theorem MetricParams.decodeStart_le {s : Nanos} (h : s ≤ t) {length : Nanos}
    (hlength : length ≤ params.decodeMarginNs) :
    params.decodeStart s ≤ Nanos.saturating (t.1 - length.1) := by
  refine Nanos.saturating_mono ?_
  have : s.1 ≤ t.1 := h
  have : length.1 ≤ params.decodeMarginNs.1 := hlength
  omega

/-- The newest sample in a lookback is the last one there. -/
theorem rawAt_eq {samples : List TimedValue} (hsorted : samples.Pairwise fun a b => a.1 ≤ b.1)
    (lookbackNs : Nanos) :
    rawAt samples t lookbackNs =
      (samples.filter fun sample =>
        Nanos.saturating (t.1 - lookbackNs.1) < sample.1 && sample.1 ≤ t).getLast?.map Prod.snd := by
  have hlast := Runs.getLast?_filter (hsorted.filter fun sample => decide (sample.1 ≤ t))
    (p := fun sample => decide (Nanos.saturating (t.1 - lookbackNs.1) < sample.1))
    fun x y hxy hx => decide_eq_true ((of_decide_eq_true hx).trans_le hxy)
  rw [List.filter_filter] at hlast
  rw [rawAt, take_upTo hsorted, hlast]
  cases (samples.filter fun sample => decide (sample.1 ≤ t)).getLast? with
  | none => rfl
  | some last =>
    rw [Option.filter_some]
    by_cases h : Nanos.saturating (t.1 - lookbackNs.1) < last.1
    · rw [if_pos (decide_eq_true h)]
      exact if_pos h
    · rw [if_neg (by rwa [decide_eq_true_eq])]
      exact if_neg h

section Read

variable {s e : Nanos}

/-- What is left of a later stretch is all of it. -/
theorem filter_decoded (hs : params.decodeStart s ≤ w) (he : t ≤ e) (steps : ℕ) :
    ((params.decoded ⟨s, e, steps⟩ stored).filter fun sample => w < sample.1 && sample.1 ≤ t) =
      (timeline stored).filter fun sample => w < sample.1 && sample.1 ≤ t := by
  rw [MetricParams.decoded, inWindow_eq, List.filter_filter]
  refine List.filter_congr fun x _ => ?_
  rw [Bool.and_eq_left_iff_imp, Bool.and_eq_true, decide_eq_true_eq, decide_eq_true_eq]
  rintro ⟨hw, ht⟩
  exact Bool.and_eq_true_iff.2
    ⟨decide_eq_true (hs.trans hw.le), decide_eq_true (ht.trans he)⟩

theorem pairwise_decoded (grid : EvalGrid) :
    (params.decoded grid stored).Pairwise fun a b => a.1 ≤ b.1 := by
  rw [MetricParams.decoded, inWindow_eq]
  exact (pairwise_timeline stored).filter _

/-- **The walk on a grid** is from the last sample before the window, if the grid has read it. -/
theorem walkOver_decoded (hs : s ≤ t) (he : t ≤ e) (steps : ℕ) :
    walkOver (params.decoded ⟨s, e, steps⟩ stored) t (params.rangeNs.getD Nanos.zero) =
      ((params.base stored t).filter fun base => params.decodeStart s ≤ base.1).toList ++
        params.inside stored t := by
  have hwt := Nanos.saturating_sub_le t params.range_nonneg
  rw [walkOver_eq (pairwise_decoded _) rfl hwt,
    filter_decoded (params.decodeStart_le hs (le_max_left _ _)) he]
  refine congrArg (fun base : Option TimedValue => base.toList ++ _) ?_
  rw [MetricParams.base, ← Runs.getLast?_filter ((pairwise_timeline stored).filter _)
    fun x y hxy hx => decide_eq_true ((of_decide_eq_true hx).trans hxy), MetricParams.decoded,
    inWindow_eq, List.filter_filter, List.filter_filter]
  refine congrArg List.getLast? (List.filter_congr fun x _ => ?_)
  rw [Bool.and_comm, Bool.and_assoc]
  refine congrArg (decide _ && ·) (Bool.and_eq_right_iff_imp.2 fun hx => decide_eq_true ?_)
  exact ((of_decide_eq_true hx).trans hwt).trans he

end Read

/-- What an increase is reported as. -/
def MetricParams.scale (params : MetricParams) (func : MetricFunc) (increase : ℚ) : ℚ :=
  match func with
  | .increase => increase
  | .rate => increase / ((params.rangeNs.getD Nanos.zero).1 / 1000000000)

theorem MetricParams.scale_injective {func : MetricFunc} (hfunc : params.func = some func) :
    Function.Injective (params.scale func) := by
  have hranged := params.ranged
  rw [hfunc] at hranged
  obtain ⟨range, hrange⟩ := Option.isSome_iff_exists.1 hranged
  have hpos : (0 : ℤ) < range.1 := params.range_pos range hrange
  intro a b h
  cases func with
  | increase => exact h
  | rate =>
    have hne : ((range.1 : ℚ) / 1000000000) ≠ 0 :=
      div_ne_zero (Int.cast_ne_zero.2 hpos.ne') (by norm_num)
    dsimp only [MetricParams.scale] at h
    rw [hrange, Option.getD_some] at h
    exact (div_left_inj' hne).1 h

/-- The value at a point when the samples from here on have been read. -/
def MetricParams.pointFrom (params : MetricParams) (stored : List TimedValue) (t start : Nanos) :
    Option ℚ :=
  match params.func with
  | none =>
    ((timeline stored).filter fun sample =>
      Nanos.saturating (t.1 - params.lookbackNs.1) < sample.1 && sample.1 ≤ t).getLast?.map Prod.snd
  | some func =>
    (walkIncrease (((params.base stored t).filter fun base => start ≤ base.1).toList ++
      params.inside stored t)).map (params.scale func)

theorem valueAt_decoded {s e : Nanos} (hs : s ≤ t) (he : t ≤ e) (steps : ℕ) :
    params.valueAt (params.decoded ⟨s, e, steps⟩ stored) t =
      params.pointFrom stored t (params.decodeStart s) := by
  have hwalk := @walkOver_decoded params stored t s e hs he steps
  rw [MetricParams.valueAt, MetricParams.pointFrom, ← hwalk]
  cases params.func with
  | none =>
    rw [rawAt_eq (pairwise_decoded _),
      filter_decoded (params.decodeStart_le hs (le_max_right _ _)) he]
  | some func =>
    cases func with
    | increase => exact Option.map_id'.symm
    | rate => rfl

/-- **A grid's value at a point** depends on where the grid has begun to read. -/
theorem lookup_query {s e : Nanos} (h : params.OnGrid t s e) :
    (params.query s e stored).lookup t = params.pointFrom stored t (params.decodeStart s) :=
  (lookup_points h.2).trans (valueAt_decoded h.le.1 h.le.2 _)

theorem lookup_instant (params : MetricParams) (stored : List TimedValue) (t : Nanos) :
    (params.instant t stored).lookup t = params.pointFrom stored t (params.decodeStart t) := by
  have ht : t ∈ (instantGrid t).timestamps Nanos.one := by
    refine mem_timestamps.2 ⟨0, Nat.one_pos, ?_⟩
    rw [Nat.cast_zero, zero_mul, add_zero]
    exact Nanos.saturating_val t
  exact (lookup_points ht).trans (valueAt_decoded le_rfl le_rfl _)

/-! ### Lost bases -/

/-- One more sample in front of a walk changes its increase when the walk has a single sample, or
begins with another value that is not a reset to zero. -/
theorem walkIncrease_cons_ne {base : TimedValue} {walk : List TimedValue} :
    walkIncrease (base :: walk) ≠ walkIncrease walk ↔
      ∃ first rest, walk = first :: rest ∧
        (rest = [] ∨ first.2 ≠ base.2 ∧ ¬ (first.2 = 0 ∧ 0 < base.2)) := by
  rcases walk with - | ⟨first, - | ⟨second, rest⟩⟩
  · constructor
    · intro h
      exact absurd rfl h
    · rintro ⟨_, _, h, _⟩
      cases h
  · constructor
    · intro _
      exact ⟨first, [], rfl, .inl rfl⟩
    · rintro - h
      cases h
  · have hlong : ∀ (before : List TimedValue), walkIncrease (before ++ first :: second :: rest) =
        some (walkSum (before ++ first :: second :: rest)) := by
      intro before
      refine if_neg ?_
      rw [List.length_append, List.length_cons, List.length_cons]
      omega
    have hdelta : delta base.2 first.2 = 0 ↔
        ¬ (first.2 ≠ base.2 ∧ ¬ (first.2 = 0 ∧ 0 < base.2)) := by
      unfold delta
      split
      case isTrue hle =>
        constructor
        · intro h hne
          exact hne.1 (by linarith)
        · intro h
          by_contra hne
          refine h ⟨fun heq => hne (by linarith), fun hreset => ?_⟩
          linarith [hreset.1, hreset.2]
      case isFalse hlt =>
        have hlt : first.2 < base.2 := not_le.1 hlt
        constructor
        · intro h hne
          exact hne.2 ⟨h, by linarith⟩
        · intro h
          by_contra hne
          exact h ⟨hlt.ne, fun hreset => hne hreset.1⟩
    rw [← List.singleton_append, hlong [base], ← List.nil_append (first :: second :: rest), hlong [],
      Ne, Option.some_inj]
    change ¬ delta base.2 first.2 + walkSum (first :: second :: rest) =
      walkSum (first :: second :: rest) ↔ _
    rw [add_eq_right, hdelta, not_not]
    constructor
    · intro h
      exact ⟨first, second :: rest, rfl, .inr h⟩
    · rintro ⟨_, _, heq, h⟩
      cases heq
      exact h.resolve_left (by simp)

theorem pointFrom_of_newest (hfunc : params.func = none) (start start' : Nanos) :
    params.pointFrom stored t start = params.pointFrom stored t start' := by
  unfold MetricParams.pointFrom
  rw [hfunc]

theorem pointFrom_of_base (hbase : params.base stored t = none) (start start' : Nanos) :
    params.pointFrom stored t start = params.pointFrom stored t start' := by
  unfold MetricParams.pointFrom
  rw [hbase]
  rfl

theorem pointFrom_of_le {base : TimedValue} (hbase : params.base stored t = some base)
    {start : Nanos} (h : start ≤ base.1) {func : MetricFunc} (hfunc : params.func = some func) :
    params.pointFrom stored t start =
      (walkIncrease (base :: params.inside stored t)).map (params.scale func) := by
  rw [MetricParams.pointFrom, hfunc, hbase, Option.filter_some, if_pos (decide_eq_true h)]
  rfl

theorem pointFrom_of_lt {base : TimedValue} (hbase : params.base stored t = some base)
    {start : Nanos} (h : base.1 < start) {func : MetricFunc} (hfunc : params.func = some func) :
    params.pointFrom stored t start =
      (walkIncrease (params.inside stored t)).map (params.scale func) := by
  rw [MetricParams.pointFrom, hfunc, hbase, Option.filter_some,
    if_neg (by rw [decide_eq_true_eq, not_le]; exact h)]
  rfl

/-- Every grid's value is the one of the grid that starts at the point, and the one with the base if
any grid's is. -/
theorem gridFree_of_pointFrom
    (hsame : ∀ s e, params.OnGrid t s e →
      params.pointFrom stored t (params.decodeStart s) =
        params.pointFrom stored t (params.decodeStart t)) : GridFree params stored t where
  grids s e s' e' h h' := by
    rw [lookup_query h, lookup_query h', hsame s e h, hsame s' e' h']
  instant s e h := by rw [lookup_query h, lookup_instant, hsame s e h]
  walked hfunc base hbase hwalked s' e' h' := by
    obtain ⟨s, e, h, hmem⟩ := hwalked
    rw [metricGrid, walkOver_decoded h.le.1 h.le.2, hbase, List.mem_append] at hmem
    have hread : params.decodeStart s ≤ base.1 := by
      rcases hmem with hmem | hmem
      · rw [Option.mem_toList, Option.filter_eq_some_iff] at hmem
        exact of_decide_eq_true hmem.2
      · have hlater := (Bool.and_eq_true_iff.1 (List.mem_filter.1 hmem).2).1
        have hearlier := (List.mem_filter.1 (List.mem_of_getLast? hbase)).2
        exact absurd (of_decide_eq_true hlater) (not_lt.2 (of_decide_eq_true hearlier))
    rw [lookup_query h', hsame s' e' h', ← hsame s e h, pointFrom_of_le hbase hread hfunc]
    exact Option.map_id'

/-- The increase over ten, every ten. -/
def increaseOverTen : MetricParams where
  func := some .increase
  rangeNs := some (Nanos.saturating 10)
  lookbackNs := Nanos.saturating 5
  stepNs := Nanos.saturating 10
  ranged := rfl
  range_pos range h := by
    cases h
    decide
  lookback_pos := by decide
  step_pos := by decide

end Metrics

end Obsy
