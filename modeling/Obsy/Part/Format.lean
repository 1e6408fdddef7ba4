import Mathlib.Data.List.SplitBy
import Obsy.Logql.Literals
import Obsy.Part.Bloom
import Obsy.Part.Columns

/-!
# Writing parts

A part is a run of row groups, each of one tenant, with an index and a summary of them.  The
flush writes it from all its rows at once; a merge writes it one row at a time.

* `rowGroupBounds`: where the row groups of sorted rows end.
* `flushRows`: the parts of a flush, one for each day.
* `StreamingPartWriter`: the writer of a merge.
* `validateMetaFile`: what a summary must satisfy to be loaded.
-/

namespace Obsy

namespace Part

open Logql (JsonValue)

/-! ### What the code takes from elsewhere -/

/-- A page of the timestamp column: its first row and, unless the file keeps none, its bounds. -/
structure Page where
  firstRowIndex : ℕ
  bounds : Option (Nanos × Nanos)

/-- The row after the last one of a page. -/
def pageEnd (pages : List Page) (rows page : ℕ) : ℕ :=
  (pages[page + 1]?).elim rows Page.firstRowIndex

/-- The JSON and regex libraries, the case tables, the sizes of filters and the file format. -/
structure Platform where
  text : PairText
  parseJson : String → Option JsonValue
  /-- `regex_syntax::parse`. -/
  parseRegex : String → Option Logql.Hir
  /-- `char::to_lowercase`. -/
  charLower : Char → List Char
  /-- `str::to_lowercase`. -/
  textLower : List Char → List Char
  /-- Bits and probes of a filter for a number of exact values. -/
  exactSizing : ℕ → ℕ × ℕ
  /-- Bits and probes of a filter for a number of trigrams. -/
  lineSizing : ℕ → ℕ × ℕ
  exactSizing_pos : ∀ n, 0 < (exactSizing n).1
  lineSizing_pos : ∀ n, 0 < (lineSizing n).1
  /-- The page index of the timestamps of a row group, where the file has one. -/
  pageIndex : List Nanos → Option (List Page)
  /-- The first page begins with the first row. -/
  pageIndex_first : ∀ timestamps pages, pageIndex timestamps = some pages → timestamps ≠ [] →
    (pages[0]?).map Page.firstRowIndex = some 0
  /-- The bounds of a page hold of its rows. -/
  pageIndex_bounds : ∀ timestamps pages, pageIndex timestamps = some pages →
    ∀ i page lo hi, pages[i]? = some page → page.bounds = some (lo, hi) →
      ∀ row ts, page.firstRowIndex ≤ row → row < pageEnd pages timestamps.length i →
        timestamps[row]? = some ts → lo ≤ ts ∧ ts ≤ hi

/-! ### Parts -/

structure TenantSegment where
  tenant : String
  /-- The first row group. -/
  rowGroupStart : ℕ
  /-- The row group after the last. -/
  rowGroupEnd : ℕ
  rowCount : ℕ
  minTsNs : Nanos
  maxTsNs : Nanos
deriving DecidableEq

/-- The summary of a part. -/
structure PartMeta where
  id : String
  partition : ℤ
  minTsNs : Nanos
  maxTsNs : Nanos
  rowCount : ℕ
  rowGroupCount : ℕ
  rowGroupMinTs : List Nanos
  rowGroupMaxTs : List Nanos
  rowGroupRows : List ℕ
  /-- Whether a row group is one run of timestamps that do not decrease. -/
  rowGroupTsMonotonic : List Bool
  tenants : List TenantSegment
  materializedBytes : ℕ
  /-- The metadata keys with a column, each with the number of rows that carry it. -/
  metadataColumns : List (String × ℕ)
  /-- The same for the fields of the lines. -/
  parsedColumns : List (String × ℕ)
deriving DecidableEq

/-- A part: its summary, its row groups and their filters. -/
structure LogPart where
  info : PartMeta
  data : List (List Cells)
  index : List GroupBlooms
deriving DecidableEq

/-- The most keys that have columns. -/
def maxMetadataColumns : ℕ := 128

/-! ### Choosing columns -/

def tally (counts : List (String × ℕ)) : List (String × ℕ) :=
  ((counts.map Prod.fst).dedup.mergeSort (· ≤ ·)).map fun key =>
    (key, ((counts.filter (·.1 = key)).map Prod.snd).sum)

/-- How many rows carry each metadata key. -/
def metadataColumnCounts (rows : List Row) : List (String × ℕ) :=
  tally (rows.flatMap fun row => row.structuredMetadata.map fun p => (p.1, 1))

/-- From how many lines each field is read. -/
def parsedColumnCounts (parsedRows : List (Option Pairs)) : List (String × ℕ) :=
  tally (parsedRows.flatMap fun fields => (fields.getD []).map fun p => (p.1, 1))

/-- The keys that most rows carry, in order. -/
def selectMetadataColumns (counts : List (String × ℕ)) : List (String × ℕ) :=
  ((counts.mergeSort fun a b => b.2 < a.2 ∨ a.2 = b.2 ∧ a.1 ≤ b.1).take maxMetadataColumns).mergeSort
    fun a b => a.1 ≤ b.1

/-! ### Row groups -/

/-- A row with the fields of its line. -/
abbrev ParsedRow := Row × Option Pairs

/-- Runs of the given size, and a last one of what is left; a run takes a row at least. -/
def runsOf {α : Type*} (size : ℕ) : ℕ → List α → List (List α)
  | 0, _ => []
  | _ + 1, [] => []
  | fuel + 1, row :: rows => (row :: rows).take size :: runsOf size fuel ((row :: rows).drop size)

/-- The row groups of sorted rows: one tenant each, and no more rows than the size. -/
def rowGroupBounds (rowGroupSize : ℕ) (rows : List ParsedRow) : List (List ParsedRow) :=
  (rows.splitBy fun a b => a.1.tenant == b.1.tenant).flatMap fun segment =>
    runsOf rowGroupSize segment.length segment

def timestampsOf (group : List ParsedRow) : List Nanos := group.map fun r => r.1.timestampNs

/-- The least timestamp of a group, 0 if it has no rows. -/
def minTs (group : List ParsedRow) : Nanos := (timestampsOf group).min?.getD Nanos.zero

/-- The greatest timestamp of a group, 0 if it has no rows. -/
def maxTs (group : List ParsedRow) : Nanos := (timestampsOf group).max?.getD Nanos.zero

/-- Whether the timestamps of a group do not decrease. -/
def tsMonotonic (group : List ParsedRow) : Bool := decide ((timestampsOf group).IsChain (· ≤ ·))

def groupTenant (group : List ParsedRow) : String := (group.head?.map fun r => r.1.tenant).getD ""

/-- Adds a row group to the segments: to the last one if it is of that tenant. -/
def addSegment (segments : List TenantSegment) (ordinal : ℕ) (group : List ParsedRow) :
    List TenantSegment :=
  match segments.getLast? with
  | some segment =>
    if segment.tenant = groupTenant group then
      segments.dropLast ++ [{ segment with
        rowGroupEnd := ordinal + 1
        rowCount := segment.rowCount + group.length
        minTsNs := min segment.minTsNs (minTs group)
        maxTsNs := max segment.maxTsNs (maxTs group) }]
    else segments ++ [⟨groupTenant group, ordinal, ordinal + 1, group.length, minTs group, maxTs group⟩]
  | none => [⟨groupTenant group, ordinal, ordinal + 1, group.length, minTs group, maxTs group⟩]

def tenantSegments (groups : List (List ParsedRow)) : List TenantSegment :=
  (groups.zipIdx).foldl (fun segments g => addSegment segments g.2 g.1) []

/-! ### Validating a summary -/

/-- The segments are of increasing tenants and tile the row groups from one on. -/
def segmentsTile (info : PartMeta) : ℕ → Option String → List TenantSegment → Bool
  | start, _, [] => start == info.rowGroupCount
  | start, previous, segment :: segments =>
    let groups := fun ts : List Nanos =>
      (ts.drop segment.rowGroupStart).take (segment.rowGroupEnd - segment.rowGroupStart)
    previous.all (· < segment.tenant) &&
      segment.rowGroupStart == start && segment.rowGroupStart < segment.rowGroupEnd &&
      segment.rowGroupEnd ≤ info.rowGroupCount &&
      segment.minTsNs == (groups info.rowGroupMinTs).min?.getD Nanos.zero &&
      segment.maxTsNs == (groups info.rowGroupMaxTs).max?.getD Nanos.zero &&
      segment.rowCount != 0 && segmentsTile info segment.rowGroupEnd segment.tenant segments

/-- `validate_meta_file` and `validate_tenant_segments`. -/
def validateMetaFile (id : String) (partition : ℤ) (info : PartMeta) : Bool :=
  info.id == id && info.partition == partition &&
    info.rowCount != 0 && info.rowGroupCount != 0 &&
    info.minTsNs ≤ info.maxTsNs && partitionOf info.minTsNs == partition &&
    partitionOf info.maxTsNs == partition &&
    info.rowGroupMinTs.length == info.rowGroupCount &&
    info.rowGroupMaxTs.length == info.rowGroupCount &&
    info.rowGroupMinTs.min? == some info.minTsNs && info.rowGroupMaxTs.max? == some info.maxTsNs &&
    info.rowGroupRows.length == info.rowGroupCount &&
    info.rowGroupTsMonotonic.length == info.rowGroupCount &&
    info.rowGroupRows.sum == info.rowCount && !info.rowGroupRows.contains 0 &&
    decide ((info.metadataColumns.map Prod.fst).IsChain (· < ·)) &&
    info.metadataColumns.length ≤ maxMetadataColumns &&
    decide ((info.parsedColumns.map Prod.fst).IsChain (· < ·)) &&
    info.parsedColumns.length ≤ maxMetadataColumns &&
    (info.rowGroupMinTs.zip info.rowGroupMaxTs).all (fun b => b.1 ≤ b.2) &&
    segmentsTile info 0 none info.tenants &&
    (info.tenants.map TenantSegment.rowCount).sum == info.rowCount

/-! ### The batch writer -/

variable (P : Platform)

/-- The filters of a group. -/
def groupBlooms (group : List ParsedRow) : Option GroupBlooms :=
  encodeGroupBlooms P.exactSizing P.lineSizing P.charLower group

/-- A row with what `json` reads from its line. -/
def parseRow (row : Row) : ParsedRow := (row, Logql.extractJson P.parseJson row.line)

/-- `write_part_files`: a part of sorted rows. -/
def writePartFiles (id : String) (partition : ℤ) (rows : List Row) (rowGroupSize : ℕ) :
    Option LogPart :=
  let parsedRows := rows.map (parseRow P)
  let metadataColumns := selectMetadataColumns (metadataColumnCounts rows)
  let parsedColumns := selectMetadataColumns (parsedColumnCounts (parsedRows.map Prod.snd))
  let groups := rowGroupBounds rowGroupSize parsedRows
  (groups.mapM (groupBlooms P)).map fun index =>
    { info :=
        { id, partition
          minTsNs := minTs parsedRows
          maxTsNs := maxTs parsedRows
          rowCount := rows.length
          rowGroupCount := groups.length
          rowGroupMinTs := groups.map minTs
          rowGroupMaxTs := groups.map maxTs
          rowGroupRows := groups.map List.length
          rowGroupTsMonotonic := groups.map tsMonotonic
          tenants := tenantSegments groups
          materializedBytes := (rows.map Row.materializedBytes).sum
          metadataColumns, parsedColumns }
      data := groups.map fun group => rowGroupBatch P.text (metadataColumns.map Prod.fst)
        (parsedColumns.map Prod.fst) group
      index }

/-- `flush_rows`: the parts of some rows, one for each of their days. -/
def flushRows (ids : ℤ → String) (rowGroupSize : ℕ) (rows : List Row) : Option (List LogPart) :=
  let partitions := (rows.map fun row => partitionOf row.timestampNs).dedup.mergeSort (· ≤ ·)
  partitions.mapM fun partition => do
    let partRows := sortRows (rows.filter fun row => partitionOf row.timestampNs = partition)
    let part ← writePartFiles P (ids partition) partition partRows rowGroupSize
    guard (validateMetaFile (ids partition) partition part.info)
    return part

/-! ### The streaming writer -/

/-- The row group being filled and what is kept of those before it. -/
structure StreamingPartWriter where
  metadataKeys : List String
  metadataCounts : Logql.Assoc ℕ
  parsedKeys : List String
  parsedCounts : Logql.Assoc ℕ
  rowGroupSize : ℕ
  group : List ParsedRow
  data : List (List Cells)
  bloomSections : List GroupBlooms
  rowCount : ℕ
  minTsNs : Nanos
  maxTsNs : Nanos
  materializedBytes : ℕ
  rowGroupMinTs : List Nanos
  rowGroupMaxTs : List Nanos
  rowGroupRows : List ℕ
  rowGroupTsMonotonic : List Bool
  tenants : List TenantSegment

namespace StreamingPartWriter

def create (metadataKeys parsedKeys : List String) (rowGroupSize : ℕ) : StreamingPartWriter where
  metadataKeys := metadataKeys
  metadataCounts := []
  parsedKeys := parsedKeys
  parsedCounts := []
  rowGroupSize := rowGroupSize
  group := []
  data := []
  bloomSections := []
  rowCount := 0
  minTsNs := Nanos.max
  maxTsNs := Nanos.min
  materializedBytes := 0
  rowGroupMinTs := []
  rowGroupMaxTs := []
  rowGroupRows := []
  rowGroupTsMonotonic := []
  tenants := []

def flushGroup (writer : StreamingPartWriter) : Option StreamingPartWriter :=
  if writer.group.isEmpty then some writer
  else (groupBlooms P writer.group).map fun blooms =>
    { writer with
      group := []
      data := writer.data ++
        [rowGroupBatch P.text writer.metadataKeys writer.parsedKeys writer.group]
      bloomSections := writer.bloomSections ++ [blooms]
      rowGroupMinTs := writer.rowGroupMinTs ++ [minTs writer.group]
      rowGroupMaxTs := writer.rowGroupMaxTs ++ [maxTs writer.group]
      rowGroupRows := writer.rowGroupRows ++ [writer.group.length]
      rowGroupTsMonotonic := writer.rowGroupTsMonotonic ++ [tsMonotonic writer.group]
      tenants := addSegment writer.tenants writer.rowGroupMinTs.length writer.group }

/-- Counts the keys that have columns. -/
def countKeys (keys : List String) (counts : Logql.Assoc ℕ) (pairs : Pairs) : Logql.Assoc ℕ :=
  pairs.foldl (fun counts p =>
    if p.1 ∈ keys then Logql.put p.1 ((counts.lookup p.1).getD 0 + 1) counts else counts) counts

/-- The line of a row is parsed only if its fields have columns. -/
def parsed (writer : StreamingPartWriter) (row : Row) : Option Pairs :=
  if writer.parsedKeys.isEmpty then none else Logql.extractJson P.parseJson row.line

/-- A change of tenant or a full group ends the row group before a row. -/
def cutBefore (writer : StreamingPartWriter) (row : Row) : Option StreamingPartWriter :=
  if (writer.group.head?.any fun first => first.1.tenant != row.tenant) ||
      writer.rowGroupSize ≤ writer.group.length then writer.flushGroup P
  else some writer

/-- Adds a row. -/
def push (writer : StreamingPartWriter) (row : Row) : Option StreamingPartWriter :=
  (writer.cutBefore P row).map fun writer =>
    let fields := writer.parsed P row
    { writer with
      rowCount := writer.rowCount + 1
      minTsNs := min writer.minTsNs row.timestampNs
      maxTsNs := max writer.maxTsNs row.timestampNs
      materializedBytes := writer.materializedBytes + row.materializedBytes
      metadataCounts := countKeys writer.metadataKeys writer.metadataCounts row.structuredMetadata
      parsedCounts := countKeys writer.parsedKeys writer.parsedCounts (fields.getD [])
      group := writer.group ++ [(row, fields)] }

def isEmpty (writer : StreamingPartWriter) : Bool := writer.rowCount == 0

/-- Ends the part; every declared key stays listed. -/
def finish (writer : StreamingPartWriter) (id : String) (partition : ℤ) : Option LogPart :=
  (writer.flushGroup P).map fun writer =>
    { info :=
        { id, partition
          minTsNs := if writer.rowCount = 0 then Nanos.zero else writer.minTsNs
          maxTsNs := if writer.rowCount = 0 then Nanos.zero else writer.maxTsNs
          rowCount := writer.rowCount
          rowGroupCount := writer.rowGroupMinTs.length
          rowGroupMinTs := writer.rowGroupMinTs
          rowGroupMaxTs := writer.rowGroupMaxTs
          rowGroupRows := writer.rowGroupRows
          rowGroupTsMonotonic := writer.rowGroupTsMonotonic
          tenants := writer.tenants
          materializedBytes := writer.materializedBytes
          metadataColumns := writer.metadataKeys.map fun key =>
            (key, (writer.metadataCounts.lookup key).getD 0)
          parsedColumns := writer.parsedKeys.map fun key =>
            (key, (writer.parsedCounts.lookup key).getD 0) }
      data := writer.data
      index := writer.bloomSections }

end StreamingPartWriter

end Part

end Obsy
