import Obsy.Metrics.Scan

/-!
# The caps of a metric query

A query is refused before anything is read if it has selected too many series or output points, or
if the account has no room for what it asks.  The series that histograms answer as exist only after
the reads, and of the caps only that on series sees them.

* `askedBytes`: what a query asks the account for.
* `WithinCaps`: what the caps promise of an answer.
* `scan_within_caps_iff`: it is so exactly when no histogram answers and nothing saturates.
* `caps_miss_histograms`: a histogram past the cap on points, for which nothing was asked.
-/

namespace Obsy

namespace Metrics

open Part (Nanos)

variable {ν : Type}

/-! ### What is asked for -/

/-- The bytes of these labels. -/
def labelBytes {β : Type} (series : List (SeriesLabels × β)) : ℕ :=
  (series.map fun entry => entry.1.bytes.length).sum

/-- What a query asks the account for. -/
def askedBytes (request : MetricScanRequest) (selection : Selection ν) : ℕ :=
  let points := min (selection.selected.length * request.steps) (2 ^ 64 - 1)
  min (min (points * 16) (2 ^ 64 - 1) + labelBytes selection.selected) (2 ^ 64 - 1)

/-- What the caps promise of an answer. -/
structure WithinCaps (limits : MetricLimits) (request : MetricScanRequest) (asked : ℕ)
    (series : List (SeriesLabels × List (Nanos × ν))) : Prop where
  series_le : series.length ≤ limits.maxSeries
  points_le : series.length * request.steps ≤ limits.maxPoints
  charge : limits.admitBytes asked = .ok ()
  asked_ge : 16 * (series.length * request.steps) + labelBytes series ≤ asked

section

variable (F : Floats ν) (limits : MetricLimits) (memtable : SeriesMemTable ν)
  (readers : List (SeriesPartReader ν)) (tenant : String) (request : MetricScanRequest)

/-- A selected histogram has, among the series it answers as with its observations of the window,
one that the query matches. -/
def Answers (entry : SeriesLabels × Sources ν) : Prop :=
  ∃ points synthetic, readHistogram memtable tenant request entry.1 entry.2 = .ok points ∧
    synthesizeHistogramSeries F entry.1 points = .ok synthetic ∧
      ∃ series ∈ synthetic, metricLabelsMatch series.1 request.metric request.filters = true

variable {F limits memtable readers tenant request} {selection : Selection ν}

/-- What a check that passes says. -/
theorem of_checkSelection (h : checkSelection limits request selection = .ok ()) :
    selection.selected.length ≤ limits.maxSeries ∧
      min (selection.selected.length * request.steps) (2 ^ 64 - 1) ≤ limits.maxPoints ∧
        limits.admitBytes (askedBytes request selection) = .ok () := by
  unfold checkSelection at h
  dsimp only at h
  split_ifs at h with hseries hpoints
  exact ⟨Nat.le_of_not_lt hseries, Nat.le_of_not_lt hpoints, h⟩

/-! ### What histograms add -/

/-- Labels of a pair at least take bytes. -/
theorem length_fromPairs_pos {pair : String × String} {pairs : List (String × String)} :
    0 < (SeriesLabels.fromPairs (pair :: pairs)).bytes.length := by
  have hsorted : ((pair :: pairs).mergeSort fun a b => a.1 ≤ b.1) ≠ [] := by
    intro h
    have hlength := (List.mergeSort_perm (pair :: pairs) fun a b => decide (a.1 ≤ b.1)).length_eq
    rw [h] at hlength
    cases hlength
  obtain ⟨first, rest, hfirst⟩ := List.exists_cons_of_ne_nil hsorted
  rw [SeriesLabels.fromPairs, SeriesLabels.canonical, hfirst, SeriesLabels.dedupKeys,
    SeriesLabels.ofCanonical, List.flatMap_cons]
  rw [SeriesLabels.textBytes, List.length_append, List.length_append, List.length_append,
    Bytes.length_leBytes]
  omega

/-- Every series of a histogram has labels. -/
theorem length_synthetic_pos {base : SeriesLabels} {points : List (Nanos × HistogramPoint ν)}
    {synthetic : List (SeriesLabels × List (Nanos × ν))}
    (h : synthesizeHistogramSeries F base points = .ok synthetic)
    {series : SeriesLabels × List (Nanos × ν)} (hseries : series ∈ synthetic) :
    0 < series.1.bytes.length := by
  obtain ⟨pairs, -, h⟩ := Runs.exists_of_bind h
  split at h
  · cases h
  · cases h
    rw [List.mem_append, List.mem_append, List.mem_append] at hseries
    rcases hseries with ((hbucket | hinfinite) | hsum) | hcount
    · obtain ⟨bucket, -, rfl⟩ := List.mem_map.1 hbucket
      exact length_fromPairs_pos
    · rw [List.mem_singleton.1 hinfinite]
      exact length_fromPairs_pos
    · split_ifs at hsum
      · cases hsum
      · rw [List.mem_singleton.1 hsum]
        exact length_fromPairs_pos
    · rw [List.mem_singleton.1 hcount]
      exact length_fromPairs_pos

/-- The series that a histogram adds are those that the query matches. -/
theorem added_of_foldlM {series series' synthetic : List (SeriesLabels × List (Nanos × ν))}
    (hroom : series.length ≤ limits.maxSeries)
    (h : synthetic.foldlM (addSynthetic limits request) series = .ok series') :
    ∃ more, series' = series ++ more ∧ series'.length ≤ limits.maxSeries ∧
      (∀ added ∈ more, ∃ one ∈ synthetic, added.1 = one.1) ∧
      (more = [] ↔ ∀ one ∈ synthetic,
        metricLabelsMatch one.1 request.metric request.filters = false) := by
  refine @Runs.foldlM_invariant _ _ _ _ (fun series' taken => ∃ more,
      series' = series ++ more ∧ series'.length ≤ limits.maxSeries ∧
      (∀ added ∈ more, ∃ one ∈ taken, added.1 = one.1) ∧
      (more = [] ↔ ∀ one ∈ taken, metricLabelsMatch one.1 request.metric request.filters = false))
    (fun s taken one s' ⟨more, hs, hlength, hfrom, hnone⟩ hstep => ?_)
    _ _ [] _ ⟨[], (List.append_nil _).symm, hroom, fun _ h => (by cases h), by simp⟩ h
  unfold addSynthetic at hstep
  split_ifs at hstep with hskip hfull
  · cases hstep
    refine ⟨more, hs, hlength, fun added hadded => ?_, hnone.trans ?_⟩
    · obtain ⟨other, hother, heq⟩ := hfrom added hadded
      exact ⟨other, List.mem_append_left _ hother, heq⟩
    · rw [List.forall_mem_append, List.forall_mem_singleton]
      exact (and_iff_left (Bool.not_eq_true' _ ▸ hskip)).symm
  · cases hstep
    refine ⟨more ++ [(one.1, one.2.mergeSort fun a b => a.1 ≤ b.1)],
      by rw [hs, List.append_assoc], ?_, fun added hadded => ?_, ?_⟩
    · rw [List.length_append, List.length_singleton]
      exact Nat.lt_of_not_le hfull
    · rcases List.mem_append.1 hadded with hadded | hadded
      · obtain ⟨other, hother, heq⟩ := hfrom added hadded
        exact ⟨other, List.mem_append_left _ hother, heq⟩
      · rw [List.mem_singleton.1 hadded]
        exact ⟨one, List.mem_append_right _ (List.mem_singleton.2 rfl), rfl⟩
    · rw [List.forall_mem_append, List.forall_mem_singleton]
      refine iff_of_false (by simp) fun h => hskip ?_
      rw [h.2]
      rfl

theorem added_of_histograms {series series' : List (SeriesLabels × List (Nanos × ν))}
    {histograms : List (SeriesLabels × Sources ν)} (hroom : series.length ≤ limits.maxSeries)
    (h : histograms.foldlM (fun series entry => do
      let points ← readHistogram memtable tenant request entry.1 entry.2
      let synthetic ← synthesizeHistogramSeries F entry.1 points
      synthetic.foldlM (addSynthetic limits request) series) series = .ok series') :
    ∃ more, series' = series ++ more ∧ series'.length ≤ limits.maxSeries ∧
      (∀ added ∈ more, 0 < added.1.bytes.length) ∧
      (more = [] ↔ ∀ entry ∈ histograms, ¬ Answers F memtable tenant request entry) := by
  refine @Runs.foldlM_invariant _ _ _ _ (fun series' taken => ∃ more,
      series' = series ++ more ∧ series'.length ≤ limits.maxSeries ∧
      (∀ added ∈ more, 0 < added.1.bytes.length) ∧
      (more = [] ↔ ∀ entry ∈ taken, ¬ Answers F memtable tenant request entry))
    (fun s taken entry s' ⟨more, hs, hlength, hlabels, hnone⟩ hstep => ?_)
    _ _ [] _ ⟨[], (List.append_nil _).symm, hroom, fun _ h => (by cases h), by simp⟩ h
  obtain ⟨points, hpoints, hstep⟩ := Runs.exists_of_bind hstep
  obtain ⟨synthetic, hsynthetic, hstep⟩ := Runs.exists_of_bind hstep
  obtain ⟨added, hadded, hlength', hfrom, hempty⟩ := added_of_foldlM hlength hstep
  have hanswers : Answers F memtable tenant request entry ↔
      ∃ one ∈ synthetic, metricLabelsMatch one.1 request.metric request.filters = true := by
    constructor
    · rintro ⟨points', synthetic', hpoints', hsynthetic', hone⟩
      cases hpoints.symm.trans hpoints'
      cases hsynthetic.symm.trans hsynthetic'
      exact hone
    · exact fun hone => ⟨points, synthetic, hpoints, hsynthetic, hone⟩
  refine ⟨more ++ added, by rw [hadded, hs, List.append_assoc], hlength', fun one hone => ?_, ?_⟩
  · rcases List.mem_append.1 hone with hone | hone
    · exact hlabels one hone
    · obtain ⟨origin, horigin, heq⟩ := hfrom one hone
      rw [heq]
      exact length_synthetic_pos hsynthetic horigin
  · rw [List.append_eq_nil_iff, hnone, hempty, List.forall_mem_append, List.forall_mem_singleton,
      hanswers]
    simp

/-! ### The answer -/

/-- The series that are read are those that are selected. -/
theorem keys_of_mapM {selected : List (SeriesLabels × Sources ν)}
    {scalars : List (SeriesLabels × List (Nanos × ν))}
    (h : (selected.mapM fun entry => do
      let samples ← readSelected memtable tenant request entry.1 entry.2
      .ok (entry.1, samples)) = .ok scalars) : scalars.map Prod.fst = selected.map Prod.fst := by
  have hall := Runs.forall₂_of_mapM h
  clear h
  induction hall with
  | nil => rfl
  | cons hfirst _ ih =>
    obtain ⟨samples, -, hok⟩ := Runs.exists_of_bind hfirst
    cases hok
    rw [List.map_cons, List.map_cons, ih]

/-- An answer is the selected series and what the histograms add. -/
theorem answer_of_readSelection {series : List (SeriesLabels × List (Nanos × ν))}
    (h : readSelection F limits memtable tenant request selection = .ok series) :
    checkSelection limits request selection = .ok () ∧ ∃ scalars more, series = scalars ++ more ∧
      scalars.map Prod.fst = selection.selected.map Prod.fst ∧
      series.length ≤ limits.maxSeries ∧ (∀ added ∈ more, 0 < added.1.bytes.length) ∧
      (more = [] ↔ ∀ entry ∈ selection.histograms, ¬ Answers F memtable tenant request entry) := by
  obtain ⟨⟨⟩, hcheck, h⟩ := Runs.exists_of_bind h
  obtain ⟨scalars, hscalars, h⟩ := Runs.exists_of_bind h
  have hkeys := keys_of_mapM hscalars
  have hroom : scalars.length ≤ limits.maxSeries := by
    have hlength := congrArg List.length hkeys
    rw [List.length_map, List.length_map] at hlength
    rw [hlength]
    exact (of_checkSelection hcheck).1
  obtain ⟨more, hseries, hlength, hlabels, hnone⟩ := added_of_histograms hroom h
  exact ⟨hcheck, scalars, more, hseries, hkeys, hlength, hlabels, hnone⟩

theorem labelBytes_eq_of_keys {β γ : Type} {series : List (SeriesLabels × β)}
    {series' : List (SeriesLabels × γ)} (h : series.map Prod.fst = series'.map Prod.fst) :
    labelBytes series = labelBytes series' := by
  have hsum : ∀ {δ : Type} (series : List (SeriesLabels × δ)),
      labelBytes series = ((series.map Prod.fst).map fun labels => labels.bytes.length).sum :=
    fun series => by rw [labelBytes, List.map_map]; rfl
  rw [hsum, hsum, h]

theorem labelBytes_append {β : Type} (series more : List (SeriesLabels × β)) :
    labelBytes (series ++ more) = labelBytes series + labelBytes more := by
  rw [labelBytes, labelBytes, labelBytes, List.map_append, List.sum_append]

/-- Series with labels take bytes. -/
theorem labelBytes_pos {β : Type} {more : List (SeriesLabels × β)} (hne : more ≠ [])
    (hlabels : ∀ added ∈ more, 0 < added.1.bytes.length) : 0 < labelBytes more := by
  obtain ⟨first, rest, rfl⟩ := List.exists_cons_of_ne_nil hne
  rw [labelBytes, List.map_cons, List.sum_cons]
  exact Nat.add_pos_left (hlabels first List.mem_cons_self) _

/-- **When the caps hold**: exactly when no selected histogram answers with a series, and the size
of the answer fits a counter. -/
theorem scan_within_caps_iff {series : List (SeriesLabels × List (Nanos × ν))}
    (h : scanMetricSeries F limits memtable readers tenant request = .ok series) :
    WithinCaps limits request (askedBytes request (selectSeries memtable readers tenant request))
        series ↔
      (∀ entry ∈ (selectSeries memtable readers tenant request).histograms,
        ¬ Answers F memtable tenant request entry) ∧
      16 * ((selectSeries memtable readers tenant request).selected.length * request.steps) +
        labelBytes (selectSeries memtable readers tenant request).selected < 2 ^ 64 := by
  obtain ⟨hcheck, scalars, more, rfl, hkeys, hlength, hlabels, hnone⟩ := answer_of_readSelection h
  obtain ⟨hseries, hpoints, hcharge⟩ := of_checkSelection hcheck
  set selection := selectSeries memtable readers tenant request
  have hcount : scalars.length = selection.selected.length := by
    have := congrArg List.length hkeys
    rwa [List.length_map, List.length_map] at this
  have hbytes : labelBytes scalars = labelBytes selection.selected := labelBytes_eq_of_keys hkeys
  have hasked : askedBytes request selection ≤
      16 * (selection.selected.length * request.steps) + labelBytes selection.selected := by
    unfold askedBytes
    dsimp only
    omega
  rw [← hnone]
  constructor
  · rintro ⟨-, -, -, hge⟩
    have hempty : more = [] := by
      -- the labels of one more series are more than was asked for
      by_contra hne
      have hmore := labelBytes_pos hne hlabels
      have hsteps : scalars.length * request.steps ≤ (scalars ++ more).length * request.steps :=
        Nat.mul_le_mul_right _ (by rw [List.length_append]; exact Nat.le_add_right _ _)
      rw [labelBytes_append, hbytes] at hge
      rw [hcount] at hsteps
      omega
    refine ⟨hempty, ?_⟩
    have hfits : askedBytes request selection ≤ 2 ^ 64 - 1 := Nat.min_le_right _ _
    rw [hempty, List.append_nil, hcount, hbytes] at hge
    omega
  · rintro ⟨rfl, hfits⟩
    rw [List.append_nil] at hlength ⊢
    refine ⟨hlength, ?_, hcharge, ?_⟩
    · rw [hcount]
      omega
    · rw [hcount, hbytes]
      unfold askedBytes
      dsimp only
      omega

end

/-! ### Two queries -/

def plainFloats : Floats ℕ := ⟨id, (· + ·), toString⟩

/-- A memtable of one series. -/
def oneSeries (name : String) (storage : SeriesBufferStorage ℕ) : SeriesMemTable ℕ where
  inner _ :=
    [(.fromPairs [(metricNameLabel, name)], { SeriesState.new with buffer := some storage })]
  flushing := none

/-- A query for one name at two steps. -/
def twoSteps (name : String) : MetricScanRequest :=
  ⟨some name, [], Part.Nanos.zero, Part.Nanos.zero, 2, Part.Nanos.zero⟩

/-- Caps on two series and this many points, with an account that has room. -/
def roomy (maxPoints : ℕ) : MetricLimits := ⟨2, maxPoints, fun _ => .ok ()⟩

/-- The answer of a gauge. -/
theorem scan_gauge : scanMetricSeries plainFloats (roomy 2)
    (oneSeries "g" (.inline Part.Nanos.zero 7)) [] "acme" (twoSteps "g") =
      .ok [(.fromPairs [(metricNameLabel, "g")], [(Part.Nanos.zero, 7)])] := by
  decide +kernel

/-- A query that the caps hold for. -/
theorem within_caps_gauge : WithinCaps (roomy 2) (twoSteps "g")
    (askedBytes (twoSteps "g") (selectSeries (oneSeries "g" (.inline Part.Nanos.zero 7)) [] "acme"
      (twoSteps "g"))) [(.fromPairs [(metricNameLabel, "g")], [(Part.Nanos.zero, 7)])] := by
  refine (scan_within_caps_iff scan_gauge).2 ⟨?_, by decide +kernel⟩
  have hnone : (selectSeries (oneSeries "g" (.inline Part.Nanos.zero 7)) [] "acme"
      (twoSteps "g")).histograms.isEmpty = true := by decide +kernel
  rw [List.isEmpty_iff.1 hnone]
  exact fun _ h => (by cases h)

def oneObservation : Part.Nanos × HistogramPoint ℕ := (Part.Nanos.zero, ⟨[], [], none, 1⟩)

theorem synthesize_one : synthesizeHistogramSeries plainFloats (.fromPairs [(metricNameLabel, "h")])
    [oneObservation] =
      .ok [(.ofCanonical [(metricNameLabel, "h_bucket"), ("le", "+Inf")], [(Part.Nanos.zero, 1)]),
        (.fromPairs [(metricNameLabel, "h_count")], [(Part.Nanos.zero, 1)])] := by
  have hbase : (SeriesLabels.fromPairs [(metricNameLabel, "h")]).pairs =
      .ok [(metricNameLabel, "h")] := by decide +kernel
  have hbucket : SeriesLabels.fromPairs [(metricNameLabel, "h_bucket"), ("le", "+Inf")] =
      .ofCanonical [(metricNameLabel, "h_bucket"), ("le", "+Inf")] := by
    rw [SeriesLabels.fromPairs, SeriesLabels.canonical, List.mergeSort_of_pairwise (by decide)]
    rfl
  rw [← hbucket, synthesizeHistogramSeries, hbase]
  rfl

/-- The memtable of a histogram. -/
def oneHistogram : SeriesMemTable ℕ := oneSeries "h" (.histogram ⟨[oneObservation], none⟩)

theorem selectSeries_histogram : selectSeries oneHistogram [] "acme" (twoSteps "h_count") =
    ⟨[], [(.fromPairs [(metricNameLabel, "h")], ⟨true, []⟩)]⟩ := by
  have hname : metricLabelsMatch (.fromPairs [(metricNameLabel, "h")]) (some "h_count") [] =
      false := by decide +kernel
  have hfamily : histogramFamilyCandidate (.fromPairs [(metricNameLabel, "h")])
      (twoSteps "h_count") = true := by decide +kernel
  have hpoints : (oneHistogram.histogramPointsOf "acme"
      (.fromPairs [(metricNameLabel, "h")])).isEmpty = false := by decide +kernel
  show selectLive (twoSteps "h_count") oneHistogram "acme" ⟨[], []⟩
    (.fromPairs [(metricNameLabel, "h")]) = _
  unfold selectLive
  rw [show (twoSteps "h_count").metric = some "h_count" from rfl,
    show (twoSteps "h_count").filters = [] from rfl, hname, hfamily, hpoints]
  rfl

/-- The answer of a histogram. -/
theorem scan_histogram : scanMetricSeries plainFloats (roomy 1) oneHistogram [] "acme"
    (twoSteps "h_count") =
      .ok [(.fromPairs [(metricNameLabel, "h_count")], [(Part.Nanos.zero, 1)])] := by
  have hread : readHistogram oneHistogram "acme" (twoSteps "h_count")
      (.fromPairs [(metricNameLabel, "h")]) ⟨true, []⟩ = .ok [oneObservation] := by decide +kernel
  have hcheck : checkSelection (roomy 1) (twoSteps "h_count")
      (⟨[], [(.fromPairs [(metricNameLabel, "h")], ⟨true, []⟩)]⟩ : Selection ℕ) = .ok () := rfl
  rw [scanMetricSeries, selectSeries_histogram, readSelection, hcheck]
  simp only [List.mapM_nil, List.foldlM_cons, List.foldlM_nil, hread, synthesize_one, bind,
    Except.bind, pure, Except.pure]
  decide +kernel

/-- **The caps miss histograms**: one answers with two output points where one is allowed, and the
account is asked for nothing. -/
theorem caps_miss_histograms : ∃ series,
    scanMetricSeries plainFloats (roomy 1) oneHistogram [] "acme" (twoSteps "h_count") =
      .ok series ∧
    (roomy 1).maxPoints < series.length * (twoSteps "h_count").steps ∧
    askedBytes (twoSteps "h_count") (selectSeries oneHistogram [] "acme" (twoSteps "h_count")) = 0 ∧
    ¬ WithinCaps (roomy 1) (twoSteps "h_count")
      (askedBytes (twoSteps "h_count") (selectSeries oneHistogram [] "acme" (twoSteps "h_count")))
      series :=
  ⟨_, scan_histogram, Nat.one_lt_two, by rw [selectSeries_histogram]; rfl,
    fun h => absurd h.points_le (by decide)⟩

end Metrics

end Obsy
