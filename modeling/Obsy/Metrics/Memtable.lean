import Obsy.Metrics.Part

/-!
# The metric memtable

The series of each tenant in memory: what is buffered, and what a flush has taken.  A chunk is the
list of the samples it encodes.

* `SeriesMemTable.insert`, `beginFlush`, `commitFlush`, `retireFlushed`: the life of a sample.
* `SeriesMemTable.abortClear`, `abortRestore`: the two sections of `abort_flush`.
* `SeriesMemTable.sortedSamplesOf`, `histogramPointsOf`: the reads, a section for each buffer.
-/

namespace Obsy

namespace Metrics

open Part (Nanos)

/-- What the code does with an `f64`. -/
structure Floats (ν : Type) where
  ofCount : ℕ → ν
  add : ν → ν → ν
  /-- `format_boundary`. -/
  text : ν → String

/-- How the value of a sample relates to the one that is stored. -/
inductive SampleKind where
  | gauge
  | cumulative
  | delta
deriving DecidableEq

inductive MetricValue (ν : Type) where
  | scalar (value : ν)
  | histogram (point : HistogramPoint ν)
deriving DecidableEq

structure MetricSample (ν : Type) where
  tenant : String
  labels : SeriesLabels
  tsNs : Nanos
  value : MetricValue ν
  kind : SampleKind
deriving DecidableEq

variable {ν : Type}

/-- A delta is added to the total of the same boundaries; other boundaries start a new one. -/
def HistogramPoint.accumulate [DecidableEq ν] (F : Floats ν) (total delta : HistogramPoint ν) :
    HistogramPoint ν :=
  if total.bounds = delta.bounds then
    { total with
      cumulative :=
        List.zipWith (fun a b => min (a + b) (2 ^ 64 - 1)) total.cumulative delta.cumulative ++
          total.cumulative.drop delta.cumulative.length
      count := min (total.count + delta.count) (2 ^ 64 - 1)
      sum :=
        match total.sum, delta.sum with
        | some sum, some increment => some (F.add sum increment)
        | sum, none => sum
        | none, increment => increment }
  else delta

/-! ### Buffers -/

/-- Bounds that reach a timestamp too. -/
def reach (bounds : Option (Nanos × Nanos)) (ts : Nanos) : Option (Nanos × Nanos) :=
  match bounds with
  | some (lo, hi) => some (min lo ts, max hi ts)
  | none => some (ts, ts)

/-- Samples in memory: the chunks that aborted flushes gave back, the open stream, and what came
late for it. -/
structure SeriesBuffer (ν : Type) where
  closed : List (List (Nanos × ν))
  opened : List (Nanos × ν)
  spill : List (Nanos × ν)
  bounds : Option (Nanos × Nanos)
deriving DecidableEq

namespace SeriesBuffer

def new : SeriesBuffer ν := ⟨[], [], [], none⟩

def hasSamples (buffer : SeriesBuffer ν) : Bool :=
  !buffer.closed.isEmpty || !buffer.opened.isEmpty || !buffer.spill.isEmpty

def observe (buffer : SeriesBuffer ν) (ts : Nanos) : SeriesBuffer ν :=
  { buffer with bounds := reach buffer.bounds ts }

/-- A sample goes to the spill if it is older than the newest one. -/
def put (buffer : SeriesBuffer ν) (lastTs : Option Nanos) (sample : Nanos × ν) : SeriesBuffer ν :=
  if lastTs.any fun last => sample.1 < last then { buffer with spill := buffer.spill ++ [sample] }
  else { buffer with opened := buffer.opened ++ [sample] }

/-- Every sample, chunk by chunk. -/
def samples (buffer : SeriesBuffer ν) : List (Nanos × ν) :=
  buffer.closed.flatten ++ buffer.opened ++ buffer.spill

end SeriesBuffer

structure HistogramBuffer (ν : Type) where
  points : List (Nanos × HistogramPoint ν)
  bounds : Option (Nanos × Nanos)
deriving DecidableEq

/-- The buffer of a series.  A single sample is kept without a stream. -/
inductive SeriesBufferStorage (ν : Type) where
  | empty
  | inline (tsNs : Nanos) (value : ν)
  | stream (buffer : SeriesBuffer ν)
  | histogram (buffer : HistogramBuffer ν)
deriving DecidableEq

namespace SeriesBufferStorage

def hasSamples : SeriesBufferStorage ν → Bool
  | .empty => false
  | .inline .. => true
  | .stream buffer => buffer.hasSamples
  | .histogram buffer => !buffer.points.isEmpty

def bounds : SeriesBufferStorage ν → Option (Nanos × Nanos)
  | .empty => none
  | .inline ts _ => some (ts, ts)
  | .stream buffer => buffer.bounds
  | .histogram buffer => buffer.bounds

def observe (ts : Nanos) : SeriesBufferStorage ν → SeriesBufferStorage ν
  | .stream buffer => .stream (buffer.observe ts)
  | .histogram buffer => .histogram { buffer with bounds := reach buffer.bounds ts }
  | storage => storage

def absorb (bounds : Option (Nanos × Nanos)) (storage : SeriesBufferStorage ν) :
    SeriesBufferStorage ν :=
  match bounds with
  | none => storage
  | some (lo, hi) => (storage.observe lo).observe hi

/-- A stream in place of a single sample. -/
def promote (lastTs : Option Nanos) : SeriesBufferStorage ν → SeriesBufferStorage ν
  | .inline ts value => .stream ((SeriesBuffer.new.observe ts).put lastTs (ts, value))
  | storage => storage

/-- `into_stream`, which makes a stream of an empty buffer too. -/
def intoStream (lastTs : Option Nanos) : SeriesBufferStorage ν → SeriesBufferStorage ν
  | .empty => .stream .new
  | storage => storage.promote lastTs

/-- A scalar for a histogram is dropped. -/
def append (lastTs : Option Nanos) (ts : Nanos) (value : ν) (storage : SeriesBufferStorage ν) :
    SeriesBufferStorage ν :=
  match storage.promote lastTs with
  | .empty => .inline ts value
  | .stream buffer => .stream ((buffer.put lastTs (ts, value)).observe ts)
  | other => other.observe ts

/-- A histogram takes the place of what is not one. -/
def appendHistogram (ts : Nanos) (point : HistogramPoint ν) :
    SeriesBufferStorage ν → SeriesBufferStorage ν
  | .histogram buffer => .histogram ⟨buffer.points ++ [(ts, point)], reach buffer.bounds ts⟩
  | _ => .histogram ⟨[(ts, point)], some (ts, ts)⟩

/-- `extend_samples`. -/
def samples : SeriesBufferStorage ν → Except String (List (Nanos × ν))
  | .empty => .ok []
  | .inline ts value => .ok [(ts, value)]
  | .stream buffer => .ok buffer.samples
  | .histogram _ => .error "a histogram series has no scalar samples"

def points : SeriesBufferStorage ν → List (Nanos × HistogramPoint ν)
  | .histogram buffer => buffer.points
  | _ => []

/-- What a flush had goes in front. -/
def prependAborted (chunks : List (List (Nanos × ν))) (spill : List (Nanos × ν))
    (lastTs : Option Nanos) : SeriesBufferStorage ν → SeriesBufferStorage ν
  | .empty =>
    match chunks, spill with
    | [[(ts, value)]], [] => .inline ts value
    | _, _ => .stream ⟨chunks, [], spill, none⟩
  | .inline ts value =>
    let buffer := ((⟨chunks, [], [], none⟩ : SeriesBuffer ν).observe ts).put lastTs (ts, value)
    .stream { buffer with spill := buffer.spill ++ spill }
  | .stream buffer =>
    .stream { buffer with closed := chunks ++ buffer.closed, spill := buffer.spill ++ spill }
  | .histogram buffer => .histogram buffer

end SeriesBufferStorage

/-! ### The memtable -/

/-- What is kept of a series while it lives; the code has the buffers and the histogram totals in
arenas of the tenant.  A reservation counts the requests that were let in and are not settled. -/
structure SeriesState (ν : Type) where
  lastTs : Option Nanos
  runningTotal : Option ν
  histogramTotal : Option (HistogramPoint ν)
  buffer : Option (SeriesBufferStorage ν)
  reservation : Option ℕ
deriving DecidableEq

def SeriesState.new : SeriesState ν := ⟨none, none, none, none, none⟩

namespace SeriesState

def hasSamples (state : SeriesState ν) : Bool :=
  state.buffer.any SeriesBufferStorage.hasSamples

def carriesATotal (state : SeriesState ν) : Bool :=
  state.runningTotal.isSome || state.histogramTotal.isSome

/-- What is stored of a sample: a delta is folded into the total of its series. -/
def resolve [DecidableEq ν] (F : Floats ν) (state : SeriesState ν) (sample : MetricSample ν) :
    MetricValue ν × SeriesState ν :=
  match sample.value, sample.kind with
  | .scalar raw, .delta =>
    let total := F.add (state.runningTotal.getD (F.ofCount 0)) raw
    (.scalar total, { state with runningTotal := total, histogramTotal := none })
  | .histogram point, .delta =>
    let total := state.histogramTotal.elim point fun total => total.accumulate F point
    (.histogram total, { state with histogramTotal := total, runningTotal := none })
  | value, _ => (value, state)

def insert [DecidableEq ν] (F : Floats ν) (state : SeriesState ν) (sample : MetricSample ν) :
    SeriesState ν :=
  let (value, state) := state.resolve F sample
  let storage := state.buffer.getD .empty
  { state with
    buffer :=
      match value with
      | .scalar value => storage.append state.lastTs sample.tsNs value
      | .histogram point => storage.appendHistogram sample.tsNs point
    lastTs := if state.lastTs.all (· ≤ sample.tsNs) then sample.tsNs else state.lastTs
    reservation := state.reservation.filter (· ≠ 0) }

end SeriesState

/-- What a flush takes of a series: chunks and spill of a scalar one, points of a histogram. -/
structure SnapshotSeries (ν : Type) where
  labels : SeriesLabels
  chunks : List (List (Nanos × ν))
  spill : List (Nanos × ν)
  points : List (Nanos × HistogramPoint ν)
  bounds : Option (Nanos × Nanos)
deriving DecidableEq

namespace SnapshotSeries

def isHistogram (series : SnapshotSeries ν) : Bool := !series.points.isEmpty

def sortedSamples (series : SnapshotSeries ν) : Except String (List (Nanos × ν)) :=
  if series.isHistogram then .error "a histogram series has no scalar samples"
  else .ok ((series.chunks.flatten ++ series.spill).mergeSort fun a b => a.1 ≤ b.1)

def ofState (labels : SeriesLabels) (state : SeriesState ν) : Option (SnapshotSeries ν) :=
  match (state.buffer.filter SeriesBufferStorage.hasSamples).map
    (SeriesBufferStorage.intoStream state.lastTs) with
  | some (.stream buffer) =>
    some ⟨labels, buffer.closed ++ (if buffer.opened.isEmpty then [] else [buffer.opened]),
      buffer.spill, [], buffer.bounds⟩
  | some (.histogram buffer) => some ⟨labels, [], [], buffer.points, buffer.bounds⟩
  | _ => none

end SnapshotSeries

/-- The series of a tenant, in the order of a hash map, which says nothing. -/
abbrev TenantSeries (ν : Type) := List (SeriesLabels × SeriesState ν)

namespace TenantSeries

/-- The state of a series, a new one if need be, after a change. -/
def modify (labels : SeriesLabels) (change : SeriesState ν → SeriesState ν) :
    TenantSeries ν → TenantSeries ν
  | [] => [(labels, change .new)]
  | entry :: rest =>
    if entry.1 = labels then (labels, change entry.2) :: rest else entry :: modify labels change rest

end TenantSeries

abbrev SeriesSnapshot (ν : Type) := String → List (SnapshotSeries ν)

/-- The series in memory by tenant, and what a flush has taken of them. -/
structure SeriesMemTable (ν : Type) where
  inner : String → TenantSeries ν
  flushing : Option (SeriesSnapshot ν)

namespace SeriesMemTable

def new : SeriesMemTable ν := ⟨fun _ => [], none⟩

def withTenant (memtable : SeriesMemTable ν) (tenant : String)
    (change : TenantSeries ν → TenantSeries ν) : SeriesMemTable ν :=
  { memtable with
    inner := fun other => if other = tenant then change (memtable.inner other) else memtable.inner other }

def insertSample [DecidableEq ν] (F : Floats ν) (memtable : SeriesMemTable ν)
    (sample : MetricSample ν) : SeriesMemTable ν :=
  memtable.withTenant sample.tenant
    (TenantSeries.modify sample.labels fun state => state.insert F sample)

def insert [DecidableEq ν] (F : Floats ν) (memtable : SeriesMemTable ν)
    (samples : List (MetricSample ν)) : SeriesMemTable ν :=
  samples.foldl (insertSample F) memtable

/-- All samples go to the snapshot, behind what an earlier flush has left there. -/
def beginFlush (memtable : SeriesMemTable ν) : SeriesMemTable ν :=
  { inner := fun tenant => (memtable.inner tenant).map fun entry =>
      (entry.1, { entry.2 with buffer := none })
    flushing := some fun tenant =>
      memtable.flushing.elim [] (· tenant) ++
        (memtable.inner tenant).filterMap fun entry =>
          SnapshotSeries.ofState entry.1 entry.2 }

def commitFlush (memtable : SeriesMemTable ν) : SeriesMemTable ν :=
  { memtable with flushing := none }

/-- Forgets the series of a snapshot that nothing but their history keeps. -/
def retireFlushed (memtable : SeriesMemTable ν) (snapshot : SeriesSnapshot ν) : SeriesMemTable ν :=
  { memtable with
    inner := fun tenant => (memtable.inner tenant).filter fun entry =>
      !((snapshot tenant).any (·.labels == entry.1) && !entry.2.hasSamples &&
        !entry.2.carriesATotal && entry.2.reservation.isNone) }

/-- The first section of `abort_flush`. -/
def abortClear (memtable : SeriesMemTable ν) : SeriesMemTable ν :=
  { memtable with flushing := none }

/-- One series of the snapshot goes back. -/
def restoreSeries (series : SnapshotSeries ν) (state : SeriesState ν) : SeriesState ν :=
  let storage := state.buffer.getD .empty
  { state with
    buffer := SeriesBufferStorage.absorb series.bounds <|
      if series.isHistogram then
        match storage with
        | .empty => .histogram ⟨series.points, none⟩
        | .histogram buffer => .histogram { buffer with points := series.points ++ buffer.points }
        | other => other
      else storage.prependAborted series.chunks series.spill state.lastTs }

/-- The second section of `abort_flush`. -/
def abortRestore (memtable : SeriesMemTable ν) (snapshot : SeriesSnapshot ν) : SeriesMemTable ν :=
  { memtable with
    inner := fun tenant => (snapshot tenant).foldl
      (fun series snapped => TenantSeries.modify snapped.labels (restoreSeries snapped) series)
      (memtable.inner tenant) }

/-! ### Reads -/

variable (memtable : SeriesMemTable ν) (tenant : String)

/-- Every live series, whether or not something of it is buffered. -/
def seriesLabels : List SeriesLabels := (memtable.inner tenant).map Prod.fst

/-- Whether bounds touch a range.  Bounds that are not there cannot hide anything. -/
def rangesOverlap (bounds : Option (Nanos × Nanos)) (startNs endNs : Nanos) : Bool :=
  bounds.all fun b => startNs ≤ b.2 && b.1 ≤ endNs

/-- The series with something buffered whose bounds touch a range.  The code sorts them. -/
def seriesLabelsInRange (startNs endNs : Nanos) : List SeriesLabels :=
  (memtable.flushing.elim [] fun snapshot =>
    ((snapshot tenant).filter fun series => rangesOverlap series.bounds startNs endNs).map
      SnapshotSeries.labels) ++
  ((memtable.inner tenant).filter fun entry => entry.2.hasSamples &&
    rangesOverlap (entry.2.buffer.bind SeriesBufferStorage.bounds) startNs endNs).map Prod.fst

variable (labels : SeriesLabels)

def flushingOf : List (SnapshotSeries ν) :=
  memtable.flushing.elim [] fun snapshot => (snapshot tenant).filter (·.labels = labels)

def bufferOf : Option (SeriesBufferStorage ν) :=
  ((memtable.inner tenant).lookup labels).bind SeriesState.buffer

/-- The observations of a series: the first section reads the snapshot, the second the buffer. -/
def histogramPointsOf : List (Nanos × HistogramPoint ν) :=
  ((memtable.flushingOf tenant labels).flatMap SnapshotSeries.points ++
    (memtable.bufferOf tenant labels).elim [] SeriesBufferStorage.points).mergeSort
      fun a b => a.1 ≤ b.1

/-- The samples of a series, in two sections too. -/
def sortedSamplesOf : Except String (List (Nanos × ν)) := do
  let flushing ← (memtable.flushingOf tenant labels).mapM SnapshotSeries.sortedSamples
  let inner ← (memtable.bufferOf tenant labels).elim (.ok []) SeriesBufferStorage.samples
  .ok ((flushing.flatten ++ inner).mergeSort fun a b => a.1 ≤ b.1)

end SeriesMemTable

end Metrics

end Obsy
