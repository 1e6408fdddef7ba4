import Obsy.Metrics.Labels
import Obsy.Part.Row

/-!
# Metric parts

The series of a day, tenant by tenant and in the order of their labels.  The catalog has a row for
each series with the milliseconds it spans; the body, which may be evicted, has their samples.

* `StreamingSeriesPartWriter`: the writer of the flush and of the compactor.
* `loadSeriesPart`, `SeriesPartReader.openInternal`: what is checked before a part serves.
* `SeriesPartReader.tenantCatalog`, `mayMatchPair`, `readChunk`: the reads.
-/

namespace Obsy

namespace Metrics

open Part (Nanos partitionOf BloomFilter utf8)

/-! ### Samples -/

/-- One histogram observation: the counts are cumulative by bound, and the total has those past the
last one too. -/
structure HistogramPoint (ν : Type) where
  bounds : List ν
  cumulative : List ℕ
  sum : Option ν
  count : ℕ
deriving DecidableEq

/-- What the chunk of a series encodes. -/
inductive SeriesPayload (ν : Type) where
  | scalar (samples : List (Nanos × ν))
  | histogram (points : List (Nanos × HistogramPoint ν))
deriving DecidableEq

inductive SeriesRowKind where
  | scalar
  | histogram
deriving DecidableEq

variable {ν : Type}

namespace SeriesPayload

def kind : SeriesPayload ν → SeriesRowKind
  | .scalar _ => .scalar
  | .histogram _ => .histogram

def timestamps : SeriesPayload ν → List Nanos
  | .scalar samples => samples.map Prod.fst
  | .histogram points => points.map Prod.fst

def isEmpty (payload : SeriesPayload ν) : Bool := payload.timestamps.isEmpty

end SeriesPayload

/-! ### Time -/

/-- An `i64` that stops at its ends. -/
def Nanos.saturating (ns : ℤ) : Nanos :=
  ⟨max (-2 ^ 63) (min (2 ^ 63 - 1) ns), by omega⟩

/-- Midnight of a day. -/
def partitionBaseNs (partition : ℤ) : Except String Nanos :=
  let ns := partition * (86400 * 1000000000)
  if h : -2 ^ 63 ≤ ns ∧ ns < 2 ^ 63 then .ok ⟨ns, h⟩
  else .error s!"metric partition {partition} is outside the nanosecond range"

/-- Nanoseconds since midnight, none of them negative. -/
def deltaNs (base ts : Nanos) : ℤ := max (Nanos.saturating (ts.1 - base.1)).1 0

/-- Milliseconds since midnight, rounded outward. -/
def deltaFloorMs (base ts : Nanos) : ℕ := min (deltaNs base ts / 1000000).toNat (2 ^ 32 - 1)

def deltaCeilMs (base ts : Nanos) : ℕ :=
  min ((Nanos.saturating (deltaNs base ts + 999999)).1 / 1000000).toNat (2 ^ 32 - 1)

/-! ### Files -/

/-- One tenant's run of catalog rows. -/
structure SeriesTenantSegment where
  tenant : String
  seriesStart : ℕ
  seriesEnd : ℕ
  sampleCount : ℕ
deriving DecidableEq

/-- The summary of a part. -/
structure SeriesPartMeta where
  id : String
  partition : ℤ
  minTsNs : Nanos
  maxTsNs : Nanos
  seriesCount : ℕ
  sampleCount : ℕ
  tenants : List SeriesTenantSegment
deriving DecidableEq

/-- A row of the catalog.  The chunk is a position in the body, which the code has as an offset and a
length. -/
structure CatalogRow where
  kind : SeriesRowKind
  labels : SeriesLabels
  chunk : ℕ
  minDeltaMs : ℕ
  maxDeltaMs : ℕ
deriving DecidableEq

/-- A part directory.  The cache may have dropped the body. -/
structure SeriesPart (ν : Type) where
  info : SeriesPartMeta
  baseTsNs : Nanos
  index : List CatalogRow
  bloomFile : BloomFilter
  data : Option (List (SeriesPayload ν))

/-- The token of a label pair: a key has no zero byte. -/
def pairToken (key value : String) : List UInt8 := utf8 key ++ 0 :: utf8 value

/-! ### The writer -/

/-- A part that is being written. -/
structure StreamingSeriesPartWriter (ν : Type) where
  data : List (SeriesPayload ν)
  index : List CatalogRow
  labelsOffset : ℕ
  bloom : BloomFilter
  baseTsNs : Nanos
  seriesCount : ℕ
  sampleCount : ℕ
  partMin : Nanos
  partMax : Nanos
  segments : List SeriesTenantSegment
  currentTenant : Option String
  currentSeriesStart : ℕ
  currentSegmentSamples : ℕ

/-- `checked_add`. -/
def checkedAdd (bits a b : ℕ) (what : String) : Except String ℕ :=
  if a + b < 2 ^ bits then .ok (a + b) else .error s!"metric {what} overflow"

namespace StreamingSeriesPartWriter

def create (sizing : ℕ → ℕ × ℕ) (partition : ℤ) (bloomItems : ℕ) :
    Except String (StreamingSeriesPartWriter ν) := do
  let baseTsNs ← partitionBaseNs partition
  .ok {
    data := []
    index := []
    labelsOffset := 0
    bloom := .withCapacity (sizing (max bloomItems 1))
    baseTsNs
    seriesCount := 0
    sampleCount := 0
    partMin := Nanos.max
    partMax := Nanos.min
    segments := []
    currentTenant := none
    currentSeriesStart := 0
    currentSegmentSamples := 0 }

def finishTenant (writer : StreamingSeriesPartWriter ν) : StreamingSeriesPartWriter ν :=
  match writer.currentTenant with
  | none => writer
  | some tenant =>
    { writer with
      currentTenant := none
      segments := writer.segments ++
        [⟨tenant, writer.currentSeriesStart, writer.seriesCount, writer.currentSegmentSamples⟩] }

def startTenant (writer : StreamingSeriesPartWriter ν) (tenant : String) :
    StreamingSeriesPartWriter ν :=
  if writer.currentTenant = some tenant then writer
  else
    { writer.finishTenant with
      currentTenant := tenant
      currentSeriesStart := writer.seriesCount
      currentSegmentSamples := 0 }

/-- `write_series_values`, `write_histogram_series` and the `write_row` both end with. -/
def writeRow (writer : StreamingSeriesPartWriter ν) (tenant : String) (labels : SeriesLabels)
    (payload : SeriesPayload ν) : Except String (StreamingSeriesPartWriter ν) :=
  match payload.timestamps.min?, payload.timestamps.max? with
  | some minTs, some maxTs => do
    let writer := writer.startTenant tenant
    let count := payload.timestamps.length
    if 2 ^ 32 ≤ labels.bytes.length then
      .error "metric labels exceed index field width"
    else do
      let labelsOffset ← checkedAdd 32 writer.labelsOffset labels.bytes.length "label region offset"
      let pairs ← labels.pairs
      let seriesCount ← checkedAdd 32 writer.seriesCount 1 "series count"
      let sampleCount ← checkedAdd 64 writer.sampleCount count "sample count"
      let segmentSamples ← checkedAdd 64 writer.currentSegmentSamples count "tenant sample count"
      .ok { writer with
        data := writer.data ++ [payload]
        index := writer.index ++ [{
          kind := payload.kind
          labels
          chunk := writer.data.length
          minDeltaMs := deltaFloorMs writer.baseTsNs minTs
          maxDeltaMs := deltaCeilMs writer.baseTsNs maxTs }]
        labelsOffset
        bloom := pairs.foldl (fun bloom pair => bloom.insert (pairToken pair.1 pair.2)) writer.bloom
        seriesCount
        sampleCount
        currentSegmentSamples := segmentSamples
        partMin := min writer.partMin minTs
        partMax := max writer.partMax maxTs }
  | _, _ => .error "metric writer encountered an empty series"

/-- The files of a part. -/
def finish (writer : StreamingSeriesPartWriter ν) (id : String) (partition : ℤ) : SeriesPart ν :=
  let writer := writer.finishTenant
  { info :=
      { id, partition
        minTsNs := writer.partMin
        maxTsNs := writer.partMax
        seriesCount := writer.seriesCount
        sampleCount := writer.sampleCount
        tenants := writer.segments }
    baseTsNs := writer.baseTsNs
    index := writer.index
    bloomFile := writer.bloom
    data := writer.data }

end StreamingSeriesPartWriter

structure SeriesRow (ν : Type) where
  tenant : String
  labels : SeriesLabels
  payload : SeriesPayload ν
deriving DecidableEq

/-- A part of some series, in the order in which they are written. -/
def writeSeriesPart (sizing : ℕ → ℕ × ℕ) (id : String) (partition : ℤ) (bloomItems : ℕ)
    (rows : List (SeriesRow ν)) : Except String (SeriesPart ν) := do
  let writer ← StreamingSeriesPartWriter.create sizing partition bloomItems
  let writer ← rows.foldlM (fun writer row => writer.writeRow row.tenant row.labels row.payload)
    writer
  .ok (writer.finish id partition)

/-- The segments are of increasing tenants, none is empty, and they tile the catalog. -/
def validateSeriesTenantSegments (info : SeriesPartMeta) : Except String Unit :=
  let rec go : ℕ → Option String → List SeriesTenantSegment → Except String Unit
    | expectedStart, _, [] =>
      if expectedStart ≠ info.seriesCount then
        .error "metric tenant segments do not cover every series"
      else .ok ()
    | expectedStart, previous, segment :: segments =>
      if previous.any (segment.tenant ≤ ·) then
        .error "metric tenant segments are not sorted by tenant"
      else if segment.seriesStart ≠ expectedStart ∨ segment.seriesEnd ≤ segment.seriesStart ∨
          info.seriesCount < segment.seriesEnd then
        .error "metric tenant segments do not tile the catalog"
      else if segment.sampleCount = 0 then .error "metric tenant segment is empty"
      else go segment.seriesEnd segment.tenant segments
  if info.tenants = [] then .error "metric part metadata has no tenant segments"
  else do
    go 0 none info.tenants
    if (info.tenants.map SeriesTenantSegment.sampleCount).sum ≠ info.sampleCount then
      .error "metric tenant segment sample counts do not sum to the part sample count"
    else .ok ()

/-- What a directory has to agree on before it is a part. -/
def loadSeriesPart (part : SeriesPart ν) : Except String (SeriesPart ν) := do
  validateSeriesTenantSegments part.info
  .ok part

/-! ### The reader -/

/-- An opened part: its filter is in memory. -/
structure SeriesPartReader (ν : Type) where
  part : SeriesPart ν
  bloom : BloomFilter

/-- A query window in the milliseconds of a part. -/
structure CatalogWindow where
  startDeltaMs : ℕ
  endDeltaMs : ℕ
deriving DecidableEq

def CatalogRow.overlaps (row : CatalogRow) (window : CatalogWindow) : Bool :=
  window.startDeltaMs ≤ row.maxDeltaMs && row.minDeltaMs ≤ window.endDeltaMs

namespace SeriesPartMeta

variable (info : SeriesPartMeta)

/-- The segment by binary search, which in sorted segments is the only one of its tenant. -/
def tenantSegment (tenant : String) : Option SeriesTenantSegment :=
  info.tenants.find? fun segment => segment.tenant == tenant

def overlapsRange (startNs endNs : Nanos) : Bool := startNs ≤ info.maxTsNs && info.minTsNs ≤ endNs

end SeriesPartMeta

namespace SeriesPartReader

/-- `open`, which wants the body there, and `open_cached`, which does not.  The header of a filter
keeps 32 bits of its size, so that a longer one does not read back. -/
def openInternal (requireData : Bool) (part : SeriesPart ν) : Except String (SeriesPartReader ν) :=
  if requireData && part.data.isNone then .error "metric data body is missing"
  else if 2 ^ 32 ≤ part.bloomFile.numBits then .error "bloom length mismatch"
  else if part.index.length ≠ part.info.seriesCount then
    .error "metric index series count mismatch"
  else .ok ⟨part, part.bloomFile⟩

variable (reader : SeriesPartReader ν)

/-- A range in the milliseconds of the part, rounded outward. -/
def window (startNs endNs : Nanos) : CatalogWindow :=
  ⟨deltaFloorMs reader.part.baseTsNs startNs, deltaCeilMs reader.part.baseTsNs endNs⟩

def mayMatchPair (key value : String) : Bool := reader.bloom.contains (pairToken key value)

def tenantCatalog (tenant : String) : List CatalogRow :=
  match reader.part.info.tenantSegment tenant with
  | some segment =>
    (reader.part.index.drop segment.seriesStart).take (segment.seriesEnd - segment.seriesStart)
  | none => []

/-- The chunk of a row.  The body is opened at every read. -/
def readChunk (chunk : ℕ) : Except String (SeriesPayload ν) :=
  match reader.part.data with
  | none =>
    let id := reader.part.info.id
    .error s!"metric part {id} chunk read: open: No such file or directory"
  | some data =>
    match data[chunk]? with
    | some payload => .ok payload
    | none => .error "metric chunk read past the body"

/-- The samples of a scalar row. -/
def readSeries (chunk : ℕ) : Except String (List (Nanos × ν)) := do
  match ← reader.readChunk chunk with
  | .scalar samples => .ok samples
  | .histogram _ => .error "gorilla chunk ends mid-record"

/-- The observations of a histogram row. -/
def readHistogramPoints (chunk : ℕ) : Except String (List (Nanos × HistogramPoint ν)) := do
  match ← reader.readChunk chunk with
  | .histogram points => .ok points
  | .scalar _ => .error "histogram chunk is malformed"

end SeriesPartReader

end Metrics

end Obsy
