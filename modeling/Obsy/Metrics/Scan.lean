import Obsy.Logql.Pipeline
import Obsy.Metrics.Memtable
import Obsy.Runs.Fallible
import Obsy.Runs.Keyed

/-!
# Metric queries

A query selects series from the memtable and from the catalogs of the parts, and then reads the
chunks of those it selected.  A stored histogram answers as several series, which do not exist
before its observations are read.

* `metricLabelsMatch`, `histogramFamilyCandidate`: the two ways to be selected.
* `scanMetricSeries`, `discoverSeries`: the queries.
-/

namespace Obsy

namespace Metrics

open Logql (Regex)
open Part (Nanos)
open Runs (upsert sortedSet)

variable {ν : Type}

/-! ### Selectors -/

/-- A condition on a label; one that is absent counts as empty. -/
inductive MetricFilter where
  | eq (key value : String)
  | neq (key value : String)
  | re (key : String) (regex : Regex)
  | nre (key : String) (regex : Regex)

def MetricFilter.key : MetricFilter → String
  | .eq key _ | .neq key _ | .re key _ | .nre key _ => key

def MetricFilter.matches (lookup : String → Option String) : MetricFilter → Bool
  | .eq key value => (lookup key).getD "" == value
  | .neq key value => (lookup key).getD "" != value
  | .re key regex => regex.isMatch ((lookup key).getD "")
  | .nre key regex => !regex.isMatch ((lookup key).getD "")

def metricLabelsMatch (labels : SeriesLabels) (metric : Option String)
    (filters : List MetricFilter) : Bool :=
  metric.all (fun name => labels.value metricNameLabel == some name) &&
    filters.all fun filter => filter.matches labels.value

/-- `str::strip_suffix`. -/
def stripSuffix (name suffix : String) : Option String :=
  if suffix.toList <:+ name.toList then
    some (String.ofList (name.toList.take (name.toList.length - suffix.toList.length)))
  else none

/-- The instrument that a name of a series of a histogram belongs to. -/
def histogramBaseName (name : String) : Option String :=
  ["_bucket", "_sum", "_count"].findSome? (stripSuffix name)

/-- What a query asks for. -/
structure MetricScanRequest where
  metric : Option String
  filters : List MetricFilter
  startNs : Nanos
  endNs : Nanos
  steps : ℕ
  decodeMarginNs : Nanos

/-- Decoding reaches back behind the window. -/
def MetricScanRequest.decodeStartNs (request : MetricScanRequest) : Nanos :=
  Nanos.saturating (request.startNs.1 - request.decodeMarginNs.1)

/-- Whether a stored histogram may have a series that a query asks for: its name is behind the one
asked for, and all filters match but those of the label that only its series have. -/
def histogramFamilyCandidate (labels : SeriesLabels) (request : MetricScanRequest) : Bool :=
  request.metric.all (fun name =>
    (histogramBaseName name).any fun base => labels.value metricNameLabel == some base) &&
  (request.filters.filter fun filter => filter.key != "le").all fun filter =>
    filter.matches labels.value

/-! ### The series of a histogram -/

/-- The samples of the bounds, each under its text. -/
def bucketSamples (F : Floats ν) (points : List (Nanos × HistogramPoint ν)) :
    List (String × List (Nanos × ν)) :=
  points.foldl (fun buckets point =>
    (point.2.bounds.zip point.2.cumulative).foldl (fun buckets bound =>
      upsert (F.text bound.1) (fun old => old.getD [] ++ [(point.1, F.ofCount bound.2)]) buckets)
      buckets) []

/-- `synthesize_histogram_series`. -/
def synthesizeHistogramSeries (F : Floats ν) (base : SeriesLabels)
    (points : List (Nanos × HistogramPoint ν)) :
    Except String (List (SeriesLabels × List (Nanos × ν))) := do
  let pairs ← base.pairs
  match pairs.find? fun pair => pair.1 == metricNameLabel with
  | none => .error "a histogram series has no metric name"
  | some named =>
    let renamed (suffix : String) (extra : List (String × String)) : SeriesLabels :=
      .fromPairs ((metricNameLabel, named.2 ++ suffix) :: extra ++
        pairs.filter fun pair => pair.1 != metricNameLabel)
    let counts := points.map fun point => (point.1, F.ofCount point.2.count)
    let sums := points.filterMap fun point => point.2.sum.map fun sum => (point.1, sum)
    .ok ((bucketSamples F points).map (fun bucket => (renamed "_bucket" [("le", bucket.1)], bucket.2))
      ++ [(renamed "_bucket" [("le", "+Inf")], counts)]
      ++ (if sums.isEmpty then [] else [(renamed "_sum" [], sums)])
      ++ [(renamed "_count" [], counts)])

/-! ### Selection -/

/-- Where the samples of a series are. -/
structure Sources (ν : Type) where
  inMemtable : Bool
  parts : List (SeriesPartReader ν × ℕ)

/-- A series of the memtable. -/
def Sources.live (old : Option (Sources ν)) : Sources ν := old.getD ⟨true, []⟩

def Sources.stored (chunk : SeriesPartReader ν × ℕ) (old : Option (Sources ν)) : Sources ν :=
  match old with
  | none => ⟨false, [chunk]⟩
  | some sources => { sources with parts := sources.parts ++ [chunk] }

/-- What a query has selected: series by their labels, and histograms by theirs. -/
structure Selection (ν : Type) where
  selected : List (SeriesLabels × Sources ν)
  histograms : List (SeriesLabels × Sources ν)

def selectLive (request : MetricScanRequest) (memtable : SeriesMemTable ν) (tenant : String)
    (selection : Selection ν) (labels : SeriesLabels) : Selection ν :=
  if metricLabelsMatch labels request.metric request.filters then
    { selection with selected := upsert labels .live selection.selected }
  else if histogramFamilyCandidate labels request &&
      !(memtable.histogramPointsOf tenant labels).isEmpty then
    { selection with histograms := upsert labels .live selection.histograms }
  else selection

/-- The rows of the catalogs that a window and a condition leave, part by part. -/
def catalogRows (readers : List (SeriesPartReader ν)) (tenant : String) (startNs endNs : Nanos)
    (wanted : CatalogRow → Bool) : List (SeriesPartReader ν × CatalogRow) :=
  (readers.filter fun reader => reader.part.info.overlapsRange startNs endNs).flatMap fun reader =>
    ((reader.tenantCatalog tenant).filter fun row =>
      row.overlaps (reader.window startNs endNs) && wanted row).map fun row => (reader, row)

/-- Whether a query selects a row of a catalog. -/
def MetricScanRequest.wants (request : MetricScanRequest) (row : CatalogRow) : Bool :=
  match row.kind with
  | .scalar => metricLabelsMatch row.labels request.metric request.filters
  | .histogram => histogramFamilyCandidate row.labels request

def selectRow (selection : Selection ν) (picked : SeriesPartReader ν × CatalogRow) : Selection ν :=
  let stored := Sources.stored (picked.1, picked.2.chunk)
  match picked.2.kind with
  | .scalar => { selection with selected := upsert picked.2.labels stored selection.selected }
  | .histogram => { selection with histograms := upsert picked.2.labels stored selection.histograms }

/-- The selection of a query.  No chunk is read for it. -/
def selectSeries (memtable : SeriesMemTable ν) (readers : List (SeriesPartReader ν))
    (tenant : String) (request : MetricScanRequest) : Selection ν :=
  (catalogRows readers tenant request.decodeStartNs request.endNs request.wants).foldl selectRow
    ((memtable.seriesLabels tenant).foldl (selectLive request memtable tenant) ⟨[], []⟩)

/-! ### The scan -/

/-- `dedup_by_key` of the timestamps: the first of equal ones stays. -/
def dedupTimes {β : Type} : List (Nanos × β) → List (Nanos × β)
  | [] => []
  | sample :: rest => sample :: (dedupTimes rest).dropWhile fun later => later.1 == sample.1

/-- Samples of a window, in order and one for each time. -/
def inWindow {β : Type} (startNs endNs : Nanos) (samples : List (Nanos × β)) : List (Nanos × β) :=
  dedupTimes ((samples.filter fun sample => startNs ≤ sample.1 && sample.1 ≤ endNs).mergeSort
    fun a b => a.1 ≤ b.1)

/-- The caps of a query, and the account that its memory is charged to. -/
structure MetricLimits where
  maxSeries : ℕ
  maxPoints : ℕ
  admitBytes : ℕ → Except String Unit

section

variable (F : Floats ν) (limits : MetricLimits) (memtable : SeriesMemTable ν)
  (readers : List (SeriesPartReader ν)) (tenant : String) (request : MetricScanRequest)

def readSelected (labels : SeriesLabels) (sources : Sources ν) :
    Except String (List (Nanos × ν)) := do
  let live ← (if sources.inMemtable then memtable.sortedSamplesOf tenant labels else .ok [])
  let stored ← sources.parts.mapM fun part => part.1.readSeries part.2
  .ok (inWindow request.decodeStartNs request.endNs (live ++ stored.flatten))

/-- The observations of a selected histogram. -/
def readHistogram (labels : SeriesLabels) (sources : Sources ν) :
    Except String (List (Nanos × HistogramPoint ν)) := do
  let live := if sources.inMemtable then memtable.histogramPointsOf tenant labels else []
  let stored ← sources.parts.mapM fun part => part.1.readHistogramPoints part.2
  .ok (inWindow request.decodeStartNs request.endNs (live ++ stored.flatten))

/-- One more series of a histogram, if it is asked for and there is room. -/
def addSynthetic (series : List (SeriesLabels × List (Nanos × ν)))
    (synthetic : SeriesLabels × List (Nanos × ν)) :
    Except String (List (SeriesLabels × List (Nanos × ν))) :=
  if !metricLabelsMatch synthetic.1 request.metric request.filters then .ok series
  else if limits.maxSeries ≤ series.length then
    let most := limits.maxSeries
    .error s!"metric selection exceeds the maximum of {most} series (SIGNY_MAX_METRIC_SERIES_PER_QUERY) — narrow the selector with more attr filters"
  else .ok (series ++ [(synthetic.1, synthetic.2.mergeSort fun a b => a.1 ≤ b.1)])

/-- What is refused before anything is read. -/
def checkSelection (selection : Selection ν) : Except String Unit :=
  let matched := selection.selected.length
  let points := min (matched * request.steps) (2 ^ 64 - 1)
  let labelBytes := (selection.selected.map fun entry => entry.1.bytes.length).sum
  if limits.maxSeries < matched then
    let most := limits.maxSeries
    .error s!"metric selection exceeds the maximum of {most} series: the selector matched {matched} (SIGNY_MAX_METRIC_SERIES_PER_QUERY) — narrow the selector with more attr filters"
  else if limits.maxPoints < points then
    let most := limits.maxPoints
    let steps := request.steps
    .error s!"metric selection exceeds the maximum of {most} output points: {matched} series over {steps} steps is {points} (SIGNY_MAX_METRIC_POINTS_PER_QUERY) — narrow the selector, shorten the window, or coarsen step"
  else limits.admitBytes (min (min (points * 16) (2 ^ 64 - 1) + labelBytes) (2 ^ 64 - 1))

/-- The reads of a query, of what it has selected. -/
def readSelection (selection : Selection ν) :
    Except String (List (SeriesLabels × List (Nanos × ν))) := do
  checkSelection limits request selection
  let series ← selection.selected.mapM fun entry => do
    let samples ← readSelected memtable tenant request entry.1 entry.2
    .ok (entry.1, samples)
  selection.histograms.foldlM (fun series entry => do
    let points ← readHistogram memtable tenant request entry.1 entry.2
    let synthetic ← synthesizeHistogramSeries F entry.1 points
    synthetic.foldlM (addSynthetic limits request) series) series

/-- `scan_metric_series`. -/
def scanMetricSeries : Except String (List (SeriesLabels × List (Nanos × ν))) :=
  readSelection F limits memtable tenant request (selectSeries memtable readers tenant request)

end

/-! ### Discovery -/

/-- What a discovery is narrowed to. -/
structure DiscoveryRequest where
  metric : Option String
  filters : List MetricFilter
  startNs : Nanos
  endNs : Nanos

section

variable (F : Floats ν) (memtable : SeriesMemTable ν) (readers : List (SeriesPartReader ν))
  (tenant : String) (request : DiscoveryRequest)

/-- The set with one more identity. -/
def addIdentity (series : List (SeriesLabels × Unit)) (labels : SeriesLabels) :
    List (SeriesLabels × Unit) :=
  upsert labels (fun _ => ()) series

def insertSynthetic (series : List (SeriesLabels × Unit)) (labels : SeriesLabels)
    (points : List (Nanos × HistogramPoint ν)) : Except String (List (SeriesLabels × Unit)) := do
  let synthetic ← synthesizeHistogramSeries F labels points
  .ok (((synthetic.map Prod.fst).filter fun labels =>
    metricLabelsMatch labels request.metric request.filters).foldl addIdentity series)

def discoverLive (series : List (SeriesLabels × Unit)) (labels : SeriesLabels) :
    Except String (List (SeriesLabels × Unit)) :=
  if metricLabelsMatch labels request.metric request.filters then .ok (addIdentity series labels)
  else
    let points := memtable.histogramPointsOf tenant labels
    if points.isEmpty then .ok series else insertSynthetic F request series labels points

def discoverRow (series : List (SeriesLabels × Unit)) (picked : SeriesPartReader ν × CatalogRow) :
    Except String (List (SeriesLabels × Unit)) :=
  match picked.2.kind with
  | .scalar =>
    .ok (if metricLabelsMatch picked.2.labels request.metric request.filters then
      addIdentity series picked.2.labels else series)
  | .histogram => do
    let points ← picked.1.readHistogramPoints picked.2.chunk
    insertSynthetic F request series picked.2.labels points

/-- `discover_series`. -/
def discoverSeries : Except String (List SeriesLabels) := do
  let live ← (sortedSet (memtable.seriesLabelsInRange tenant request.startNs request.endNs)).foldlM
    (discoverLive F memtable tenant request) []
  let series ← (catalogRows readers tenant request.startNs request.endNs fun _ => true).foldlM
    (discoverRow F request) live
  .ok (series.map Prod.fst)

end

end Metrics

end Obsy
