import Obsy.Part.Format

/-!
# Trace parts

The file of a day's spans: row groups of one tenant each, their time bounds, the segments of the
tenants and one filter of trace ids for each row group.  A span is in its part as columns and, whole,
as a JSON text.

* `flushTraceSpansWithId`: the writer, both of the flush and of the compactor.
* `loadTracePart`, `TracePartReader.open`: what is checked before a part serves.
* `TracePartReader.queryTraceIdLimited`, `queryRangeLimited`, `queryAllLimited`: the reads.
-/

namespace Obsy

namespace Trace

open Obsy.Part (Nanos partitionOf BloomFilter utf8 runsOf)

/-! ### Spans -/

/-- A span, with what the request carried of it and of its resource and scope. -/
structure TraceSpan (π : Type) where
  tenant : String
  traceId : String
  spanId : String
  startTimeNs : Nanos
  endTimeNs : Nanos
  span : π
deriving DecidableEq

variable {π : Type}

/-- Whether a span touches the window at any point. -/
def spanOverlaps (span : TraceSpan π) (startNs endNs : Nanos) : Bool :=
  startNs ≤ span.endTimeNs && span.startTimeNs ≤ endNs

/-- The order of an answer. -/
def answerKey (span : TraceSpan π) : Nanos ×ₗ String := toLex (span.startTimeNs, span.spanId)

/-- `sort_by` start and span id, which keeps the order of equals. -/
def sortSpans (spans : List (TraceSpan π)) : List (TraceSpan π) :=
  spans.mergeSort fun left right => answerKey left ≤ answerKey right

/-- The order of a part: the tenant first, so that a tenant has a run of row groups, then the trace,
so that the filters of the row groups stay selective. -/
def partKey (span : TraceSpan π) : String ×ₗ String ×ₗ Nanos ×ₗ String :=
  toLex (span.tenant, toLex (span.traceId, toLex (span.startTimeNs, span.spanId)))

/-! ### What the code takes from elsewhere -/

/-- The JSON library, the size of a filter for a number of ids, and the calendar. -/
structure Codec (π : Type) where
  encode : TraceSpan π → String
  decode : String → Except String (TraceSpan π)
  sizing : ℕ → ℕ × ℕ
  sizing_pos : ∀ n, 0 < (sizing n).1
  /-- The date of a day without its hyphens. -/
  compactDay : ℤ → String

/-- Whether the text of a span is read as the span. -/
def Codec.Reads (P : Codec π) (span : TraceSpan π) : Prop := P.decode (P.encode span) = .ok span

/-- Whether the text of a span is read as the span, if it is read. -/
def Codec.Faithful (P : Codec π) (span : TraceSpan π) : Prop :=
  ∀ other, P.decode (P.encode span) = .ok other → other = span

/-- A library that reads every span back. -/
structure Platform (π : Type) extends Codec π where
  decode_encode : ∀ span, decode (encode span) = .ok span

instance : Coe (Platform π) (Codec π) := ⟨Platform.toCodec⟩

theorem Codec.Reads.faithful {P : Codec π} {span : TraceSpan π} (h : P.Reads span) :
    P.Faithful span := fun _ hother => Except.ok.inj (hother.symm.trans h)

theorem Platform.faithful (P : Platform π) (span : TraceSpan π) : P.Faithful span :=
  Codec.Reads.faithful (P.decode_encode span)

/-! ### Files -/

/-- A row of the Parquet file. -/
structure SpanRow where
  tenant : String
  startTimeNs : Nanos
  endTimeNs : Nanos
  traceId : String
  spanId : String
  payload : String
deriving DecidableEq

structure TraceTenantSegment where
  tenant : String
  rowGroupStart : ℕ
  rowGroupEnd : ℕ
  rowCount : ℕ
deriving DecidableEq

/-- The summary of a part. -/
structure TracePartMeta where
  id : String
  partition : ℤ
  minTsNs : Nanos
  maxTsNs : Nanos
  rowCount : ℕ
  rowGroupCount : ℕ
  rowGroupMinTs : List Nanos
  rowGroupMaxTs : List Nanos
  tenants : List TraceTenantSegment
deriving DecidableEq

/-- A part directory.  The cache may have dropped the Parquet file. -/
structure TracePart where
  info : TracePartMeta
  bloomFile : List BloomFilter
  data : Option (List (List SpanRow))

/-! ### The writer -/

/-- Row-group boundaries that never straddle a tenant. -/
def rowGroupBounds (rowGroupSize : ℕ) (spans : List (TraceSpan π)) : List (List (TraceSpan π)) :=
  (spans.splitBy fun a b => a.tenant == b.tenant).flatMap fun segment =>
    runsOf rowGroupSize segment.length segment

def minStart (spans : List (TraceSpan π)) : Nanos :=
  (spans.map TraceSpan.startTimeNs).min?.getD Nanos.zero

def maxEnd (spans : List (TraceSpan π)) : Nanos :=
  (spans.map TraceSpan.endTimeNs).max?.getD Nanos.zero

/-- The tenant of the first span of a row group. -/
def groupTenant (group : List (TraceSpan π)) : String :=
  (group.head?.map TraceSpan.tenant).getD ""

/-- Adds a row group to the segments: to the last one if it is of that tenant. -/
def addSegment (segments : List TraceTenantSegment) (rowGroup : ℕ) (group : List (TraceSpan π)) :
    List TraceTenantSegment :=
  match segments.getLast? with
  | some segment =>
    if segment.tenant = groupTenant group then
      segments.dropLast ++ [{ segment with
        rowGroupEnd := rowGroup + 1, rowCount := segment.rowCount + group.length }]
    else segments ++ [⟨groupTenant group, rowGroup, rowGroup + 1, group.length⟩]
  | none => segments ++ [⟨groupTenant group, rowGroup, rowGroup + 1, group.length⟩]

def traceTenantSegments (groups : List (List (TraceSpan π))) : List TraceTenantSegment :=
  groups.zipIdx.foldl (fun segments g => addSegment segments g.2 g.1) []

/-- The filter of a row group: its distinct trace ids. -/
def groupBloom (sizing : ℕ → ℕ × ℕ) (group : List (TraceSpan π)) : BloomFilter :=
  let ids := (group.map fun span => utf8 span.traceId).dedup
  ids.foldl BloomFilter.insert (.withCapacity (sizing (max ids.length 1)))

variable (P : Codec π)

def spanRow (span : TraceSpan π) : SpanRow :=
  { tenant := span.tenant, startTimeNs := span.startTimeNs, endTimeNs := span.endTimeNs,
    traceId := span.traceId, spanId := span.spanId, payload := P.encode span }

/-- `write_trace_part_files`: a part of sorted spans.  The number of row groups is a `u32`. -/
def writeTracePartFiles (id : String) (partition : ℤ) (spans : List (TraceSpan π))
    (rowGroupSize : ℕ) : TracePart :=
  let groups := rowGroupBounds rowGroupSize spans
  { info :=
      { id, partition
        minTsNs := minStart spans
        maxTsNs := maxEnd spans
        rowCount := spans.length
        rowGroupCount := groups.length % 2 ^ 32
        rowGroupMinTs := groups.map minStart
        rowGroupMaxTs := groups.map maxEnd
        tenants := traceTenantSegments groups }
    bloomFile := groups.map (groupBloom P.sizing)
    data := groups.map fun group => group.map (spanRow P) }

/-- The segments are of increasing tenants, none is empty, and they tile the row groups. -/
def validateTraceTenantSegments (info : TracePartMeta) : Except String Unit :=
  let rec go : ℕ → Option String → List TraceTenantSegment → Except String Unit
    | expectedStart, _, [] =>
      if expectedStart ≠ info.rowGroupCount then
        .error "trace tenant segments do not cover every row group"
      else .ok ()
    | expectedStart, previous, segment :: segments =>
      if previous.any (segment.tenant ≤ ·) then
        .error "trace tenant segments are not sorted by tenant"
      else if segment.rowGroupStart ≠ expectedStart ∨ segment.rowGroupEnd ≤ segment.rowGroupStart ∨
          info.rowGroupCount < segment.rowGroupEnd then
        .error "trace tenant segments do not tile the row groups"
      else if segment.rowCount = 0 then .error "trace tenant segment is empty"
      else go segment.rowGroupEnd segment.tenant segments
  if info.tenants = [] then .error "trace part metadata has no tenant segments"
  else do
    go 0 none info.tenants
    if (info.tenants.map TraceTenantSegment.rowCount).sum ≠ info.rowCount then
      .error "trace tenant segment row counts do not sum to the part row count"
    else .ok ()

/-- What a directory has to agree on before it is a part. -/
def loadTracePart (part : TracePart) : Except String TracePart := do
  if part.info.rowGroupCount ≠ part.info.rowGroupMinTs.length ∨
      part.info.rowGroupCount ≠ part.info.rowGroupMaxTs.length then
    .error "trace row-group metadata mismatch"
  else do
    validateTraceTenantSegments part.info
    .ok part

/-- `flush_trace_spans_with_id`: the parts of some spans, one for each day on which one starts. -/
def flushTraceSpansWithId (rowGroupSize : ℕ) (uuid : ℤ → String) (forcedId : Option String)
    (spans : List (TraceSpan π)) : Except String (List TracePart) :=
  let partitions := (spans.map fun span => partitionOf span.startTimeNs).dedup.mergeSort (· ≤ ·)
  if spans.isEmpty then .ok []
  else if rowGroupSize = 0 then .error "trace row group size must be positive"
  else if forcedId.isSome ∧ partitions.length ≠ 1 then
    .error "a forced trace compaction id requires one partition"
  else partitions.mapM fun partition =>
    let day := P.compactDay partition
    let mine := spans.filter fun span => partitionOf span.startTimeNs = partition
    let id := forcedId.getD (day ++ "-" ++ uuid partition)
    if forcedId.any fun forced => !(day ++ "-").toList.isPrefixOf forced.toList then
      .error "trace compaction output id does not match its partition"
    else loadTracePart (writeTracePartFiles P id partition
      (mine.mergeSort fun left right => partKey left ≤ partKey right) rowGroupSize)

/-! ### The reader -/

/-- An opened part: its filters are in memory. -/
structure TracePartReader where
  part : TracePart
  blooms : List BloomFilter

/-- One filter for each row group.  The header of a filter keeps 32 bits of its size, so that a
longer one does not read back. -/
def decodeTraceBlooms (filters : List BloomFilter) (expectedCount : ℕ) :
    Except String (List BloomFilter) :=
  if filters.length ≠ expectedCount then
    .error "trace bloom row-group count mismatch"
  else if filters.any fun filter => 2 ^ 32 ≤ filter.numBits then .error "bloom length mismatch"
  else .ok filters

namespace TracePartReader

/-- `open`, which wants the data there, and `open_cached`, which does not. -/
def openInternal (requireData : Bool) (part : TracePart) : Except String TracePartReader :=
  if requireData && part.data.isNone then .error "trace parquet is missing"
  else return ⟨part, ← decodeTraceBlooms part.bloomFile part.info.rowGroupCount⟩

end TracePartReader

/-- `tenant_row_groups`: the segment by binary search, which in sorted segments is the only one of
its tenant. -/
def TracePartMeta.tenantRowGroups (info : TracePartMeta) (tenant : String) : Option (List ℕ) :=
  (info.tenants.find? fun segment => segment.tenant == tenant).map fun segment =>
    List.range' segment.rowGroupStart (segment.rowGroupEnd - segment.rowGroupStart)

/-- The tenant's row groups whose timestamps can reach the window.  An absent bound scans rather than
prunes. -/
def TracePartMeta.tenantRowGroupsInRange (info : TracePartMeta) (tenant : String)
    (startNs endNs : Nanos) : List ℕ :=
  ((info.tenantRowGroups tenant).getD []).filter fun rowGroup =>
    match info.rowGroupMinTs[rowGroup]?, info.rowGroupMaxTs[rowGroup]? with
    | some minTs, some maxTs => startNs ≤ maxTs && minTs ≤ endNs
    | _, _ => true

def TracePartMeta.tenantOverlapsRange (info : TracePartMeta) (tenant : String)
    (startNs endNs : Nanos) : Bool :=
  !(info.tenantRowGroupsInRange tenant startNs endNs).isEmpty

namespace TracePartReader

variable (reader : TracePartReader)

/-- Whether the filter of a row group has the id. -/
def bloomContains (traceId : String) (rowGroup : ℕ) : Bool :=
  (reader.blooms[rowGroup]?).any fun filter => filter.contains (utf8 traceId)

def mayMatchTraceId (tenant traceId : String) : Bool :=
  ((reader.part.info.tenantRowGroups tenant).getD []).any (reader.bloomContains traceId)

/-- One row of a read: it has to be the tenant's, and a span too many is an error. -/
def takeRow (tenant : String) (traceId : Option String) (limit : Option ℕ)
    (spans : List (TraceSpan π)) (row : SpanRow) : Except String (List (TraceSpan π)) :=
  let id := reader.part.info.id
  if row.tenant ≠ tenant then .error s!"trace part {id} contains rows outside tenant {tenant}"
  else if traceId.any (row.traceId ≠ ·) then .ok spans
  else if limit.any (· ≤ spans.length) then
    let most := limit.getD 0
    .error s!"trace query exceeds the maximum of {most} spans"
  else
    match P.decode row.payload with
    | .ok span => .ok (spans ++ [span])
    | .error error => .error s!"invalid trace payload in {id}: {error}"

/-- The rows of some row groups of the file. -/
def readRowGroups (data : List (List SpanRow)) (selected : List ℕ) : Except String (List SpanRow) := do
  let groups ← selected.mapM fun rowGroup =>
    (data[rowGroup]?).elim (.error "row group out of range") Except.ok
  .ok groups.flatten

/-- `query_selected`: the spans of some row groups, in the order of an answer. -/
def querySelected (tenant : String) (selected : List ℕ) (traceId : Option String)
    (limit : Option ℕ) : Except String (List (TraceSpan π)) :=
  if selected.isEmpty then .ok []
  else
    match reader.part.data with
    | none => .error "No such file or directory"
    | some data => do
      let rows ← readRowGroups data selected
      let spans ← rows.foldlM (reader.takeRow P tenant traceId limit) []
      .ok (sortSpans spans)

/-- The row groups that may have spans of the trace. -/
def traceRowGroups (tenant traceId : String) : List ℕ :=
  ((reader.part.info.tenantRowGroups tenant).getD []).filter (reader.bloomContains traceId)

def queryTraceIdLimited (tenant traceId : String) (limit : Option ℕ) :
    Except String (List (TraceSpan π)) :=
  reader.querySelected P tenant (reader.traceRowGroups tenant traceId) traceId limit

def queryAllLimited (tenant : String) (limit : Option ℕ) : Except String (List (TraceSpan π)) :=
  reader.querySelected P tenant ((reader.part.info.tenantRowGroups tenant).getD []) none limit

/-- The tenant's spans that overlap the window: pruned by row group, then filtered one by one. -/
def queryRangeLimited (tenant : String) (startNs endNs : Nanos) (limit : Option ℕ) :
    Except String (List (TraceSpan π)) := do
  let selected := reader.part.info.tenantRowGroupsInRange tenant startNs endNs
  let spans ← reader.querySelected P tenant selected none limit
  .ok (spans.filter fun span => spanOverlaps span startNs endNs)

end TracePartReader

end Trace

end Obsy
