import Obsy.Part.Cache

/-!
# Reading parts

A scan offers the rows of a tenant that a query may accept to a sink.  It leaves out the row
groups, windows and rows that bounds, filters and columns prove to hold nothing for the query or
for the sink.

* `RowSink`: where a scan puts its rows.
* `scanInto`: a scan of a part.
* `readRowsInRowGroups`: all rows of some row groups, as a merge reads them.
* `scanGroup_spec`: what a scan offers of a row group.
-/

namespace Obsy

namespace Part

open Logql (ExactFieldPredicate LineFilter)

/-! ### Sinks -/

/-- Where a scan puts the rows it reads. -/
structure RowSink (σ : Type*) where
  accept : σ → LogEntry → Except String σ
  /-- The timestamp a row must beat, if there is no room for every row. -/
  frontierNs : σ → Option Nanos
  /-- Whether the sink never accepts anything. -/
  isClosed : σ → Bool

/-- Whether a row is on the far side of the frontier. -/
def beyondFrontier (frontier : Option Nanos) (forward : Bool) (ts : Nanos) : Bool :=
  match frontier with
  | none => false
  | some frontier => if forward then frontier ≤ ts else ts ≤ frontier

/-- Whether even the best timestamp of a span is on the far side of the frontier. -/
def spanBeyondFrontier (frontier : Option Nanos) (forward : Bool) (lo hi : Nanos) : Bool :=
  beyondFrontier frontier forward (if forward then lo else hi)

/-! ### What a scan leaves out -/

/-- The position of a key in a sorted list. -/
def keyIndex (keys : List String) (name : String) : Option ℕ := keys.findIdx? (· == name)

/-- The predicates that the columns answer row by row, or `none` where one holds on no row. -/
def definitiveColumns (metadataKeys parsedKeys : List String) :
    List ExactFieldPredicate → Option (List DefinitiveColumn)
  | [] => some []
  | p :: predicates =>
    let rest := definitiveColumns metadataKeys parsedKeys predicates
    if p.canonical || p.value == "" then rest
    else
      let smKey := keyIndex metadataKeys p.name
      let smDecidable := smKey.isSome || metadataKeys.length < maxMetadataColumns
      if !p.mayBeExtracted then
        match smKey with
        | some key => rest.map (⟨p.value, some key, none, false⟩ :: ·)
        | none => if smDecidable then none else rest
      else if !p.jsonOnlyExtraction then rest
      else
        let pfKey := keyIndex parsedKeys p.name
        let pfDecidable := pfKey.isSome || parsedKeys.length < maxMetadataColumns
        if !(smDecidable && pfDecidable) then rest
        else if smKey.isNone && pfKey.isNone then none
        else rest.map (⟨p.value, smKey, pfKey, true⟩ :: ·)

def PartMeta.tenantSegment (info : PartMeta) (tenant : String) : Option TenantSegment :=
  info.tenants.find? fun segment => segment.tenant == tenant

variable (P : Platform)

/-- The texts a line must contain, as the filters of the trigrams are asked for them. -/
def pruneLiterals (lineFilters : List LineFilter) : List String :=
  lineFilters.flatMap fun filter =>
    match filter with
    | .contains needle => [needle]
    | .regex re => Logql.requiredRegexLiterals P.parseRegex re.pattern
    | .notContains _ | .notRegex _ => []

/-- `might_contain_substr`. -/
def mightContainSubstr (filter : BloomFilter) (needle : String) : Bool :=
  (trigrams (P.textLower needle.toList)).all filter.contains

/-- Whether the filters of a row group admit the query. -/
def admits (lineFilters : List LineFilter) (exactFields : List ExactFieldPredicate)
    (blooms : GroupBlooms) : Bool :=
  (pruneLiterals P lineFilters).all (mightContainSubstr P blooms.line) &&
    (exactFieldWindowMask blooms.exactFields exactFields).all fun mask => mask.any id

/-- `select_row_groups_with_exact_fields`. -/
def selectRowGroups (part : LogPart) (tenant : String) (lineFilters : List LineFilter)
    (exactFields : List ExactFieldPredicate) (range : QueryTimeRange) : List ℕ :=
  match part.info.tenantSegment tenant with
  | none => []
  | some segment =>
    (List.range' segment.rowGroupStart (segment.rowGroupEnd - segment.rowGroupStart)).filter
      fun rowGroup =>
        range.overlaps (part.info.rowGroupMinTs.getD rowGroup Nanos.zero)
          (part.info.rowGroupMaxTs.getD rowGroup Nanos.zero) &&
        (part.index[rowGroup]?).all (admits P lineFilters exactFields)

/-- The rows on the pages that may hold a timestamp of the range, where there is a page index. -/
def timePageSelection (timestamps : List Nanos) (range : QueryTimeRange) : Option Selection :=
  (P.pageIndex timestamps).map fun pages =>
    (List.range timestamps.length).map fun row => pages.zipIdx.any fun p =>
      p.1.firstRowIndex ≤ row && row < pageEnd pages timestamps.length p.2 &&
        p.1.bounds.all fun b => range.overlaps b.1 b.2

def windowRowSelection (mask : List Bool) (groupRows : ℕ) : Selection :=
  (List.range groupRows).map fun row => mask.getD (row / bloomWindowRows) false

/-- The rows that neither the pages nor the windows leave out. -/
def baseSelection (timestamps : List Nanos) (blooms : Option GroupBlooms)
    (exactFields : List ExactFieldPredicate) (range : QueryTimeRange) : Option Selection :=
  let window := (blooms.bind fun blooms => exactFieldWindowMask blooms.exactFields exactFields).map
    fun mask => windowRowSelection mask timestamps.length
  match timePageSelection P timestamps range, window with
  | some time, some window => some (bothSelections time window)
  | time, window => time.or window

/-! ### The rows of a row group -/

/-- A row group of a scan: its ordinal, its rows, and the rows the base selection leaves. -/
structure GroupScan where
  rowGroup : ℕ
  group : List Cells
  base : Option Selection
  columns : List DefinitiveColumn
  range : QueryTimeRange

namespace GroupScan

def baseKey (scan : GroupScan) : Selection := scan.base.getD (allRows scan.group.length)

/-- The narrow pass of the scan. -/
def narrowQuery (scan : GroupScan) : NarrowQuery :=
  ⟨scan.rowGroup, scan.range, scan.baseKey, scan.columns⟩

/-- The whole row group from the cache. -/
def cached (scan : GroupScan) (cache : GroupCache) : Option (List Cells) :=
  if cache.enabled then cache.get scan.rowGroup (allRows scan.group.length) else none

/-- The outcome of the narrow pass: remembered, over the cached rows, or over the file. -/
def narrow (scan : GroupScan) (cache : GroupCache) : Option Selection :=
  match if cache.enabled then cache.getNarrow scan.narrowQuery else none with
  | some outcome => outcome
  | none =>
    match scan.cached cache with
    | some rows =>
      if scan.columns.all fun column => column.pfKey.isNone then
        narrowOutcome scan.narrowQuery rows
      else narrowOutcome scan.narrowQuery scan.group
    | none => narrowOutcome scan.narrowQuery scan.group

/-- The rows of a selection from the cache, if it can serve them. -/
def served (scan : GroupScan) (cache : GroupCache) (selection : Selection) :
    Option (List Cells) :=
  if !cache.enabled then none
  else
    match scan.cached cache with
    | some rows => some (selectRows selection rows)
    | none =>
      match cache.get scan.rowGroup selection with
      | some rows => some rows
      | none =>
        -- what a broader scan decoded, if a narrow pass ran and every row is in it
        if scan.columns.isEmpty || bothSelections selection scan.baseKey != selection then none
        else (cache.get scan.rowGroup scan.baseKey).map (selectRows (selectionWithin selection scan.baseKey))

/-- The rows of a selection and the cache after it; a query keeps what it decoded. -/
def decode (evict : GroupCache.Eviction) (fillCache : Bool) (scan : GroupScan)
    (cache : GroupCache) (selection : Selection) : List Cells × GroupCache :=
  match scan.served cache selection with
  | some rows => (rows, cache)
  | none =>
    let rows := selectRows selection (scan.group.map Cells.wide)
    (rows, if fillCache then cache.insert evict scan.rowGroup selection rows else cache)

/-- The rows of the scan and the cache after it. -/
def rows (evict : GroupCache.Eviction) (fillCache : Bool) (scan : GroupScan) (cache : GroupCache) :
    List Cells × GroupCache :=
  if scan.base.any fun base => !base.any id then ([], cache)
  else
    let outcome := if scan.columns.isEmpty then some scan.baseKey else scan.narrow cache
    let cache := if scan.columns.isEmpty then cache
      else cache.insertNarrow evict scan.narrowQuery outcome
    match outcome with
    | none => ([], cache)
    | some selection => scan.decode evict fillCache cache selection

end GroupScan

/-! ### Scanning -/

/-- What a scan asks for. -/
structure ScanRequest where
  tenant : String
  lineFilters : List LineFilter
  exactFields : List ExactFieldPredicate
  range : QueryTimeRange
  forward : Bool
  /-- The row groups a rewrite reads. -/
  window : Option (ℕ × ℕ)

/-- A part with the cache of its decoded rows. -/
structure PartReader where
  part : LogPart
  cache : GroupCache

variable {σ : Type*} (sink : RowSink σ) (request : ScanRequest)

/-- Offers one decoded row. -/
def scanRow (part : LogPart) (rowGroup : ℕ) (s : σ) (cells : Cells) : Except String σ :=
  if cells.tenant ≠ request.tenant then
    .error ("part " ++ part.info.id ++ " row group " ++ toString rowGroup ++
      " contains rows outside tenant " ++ request.tenant)
  else if beyondFrontier (sink.frontierNs s) request.forward cells.timestampNs then .ok s
  else if !request.range.contains cells.timestampNs then .ok s
  else if !request.lineFilters.all (fun filter => filter.matches cells.msg) then .ok s
  else
    match structuredMetadataOf P.text part.metadataKeys cells with
    | some metadata => sink.accept s ⟨cells.timestampNs, cells.msg, metadata⟩
    | none => .error ("invalid structured metadata in part " ++ part.info.id)

/-- The rows in the order of the query. -/
def inDirection {α : Type*} (forward : Bool) (rows : List α) : List α :=
  if forward then rows else rows.reverse

def scanGroup (evict : ℕ → GroupCache.Eviction) (part : LogPart) (columns : List DefinitiveColumn)
    (state : σ × GroupCache) (rowGroup : ℕ) : Except String (σ × GroupCache) :=
  if spanBeyondFrontier (sink.frontierNs state.1) request.forward
      (part.info.rowGroupMinTs.getD rowGroup Nanos.zero)
      (part.info.rowGroupMaxTs.getD rowGroup Nanos.zero) then .ok state
  else
    let group := part.data.getD rowGroup []
    let base := baseSelection P (group.map Cells.timestampNs)
      (if request.exactFields.isEmpty then none else part.index[rowGroup]?)
      request.exactFields request.range
    let scan : GroupScan := ⟨rowGroup, group, base, columns, request.range⟩
    let (rows, cache) := scan.rows (evict rowGroup) request.window.isNone state.2
    (inDirection request.forward rows).foldlM (scanRow P sink request part rowGroup) state.1 |>.map
      fun s => (s, cache)

/-- `-ts` as an `i64`. -/
def wrappingNeg (ts : Nanos) : ℤ := if ts.1 = -2 ^ 63 then -2 ^ 63 else -ts.1

/-- The end of a row group that the scan reaches first. -/
def groupOrder (info : PartMeta) (forward : Bool) (rowGroup : ℕ) : ℤ :=
  if forward then (info.rowGroupMinTs.getD rowGroup Nanos.zero).1
  else wrappingNeg (info.rowGroupMaxTs.getD rowGroup Nanos.zero)

/-- Selected row groups in the order of the scan; a rewrite reads them in layout order. -/
def orderRowGroups (info : PartMeta) (rowGroups : List ℕ) : List ℕ :=
  match request.window with
  | some window => rowGroups.filter fun rowGroup => window.1 ≤ rowGroup && rowGroup < window.2
  | none => rowGroups.mergeSort fun a b =>
      groupOrder info request.forward a < groupOrder info request.forward b ∨
        groupOrder info request.forward a = groupOrder info request.forward b ∧ a ≤ b

/-- `PartReader::scan_into`, of all columns. -/
def scanInto (evict : ℕ → GroupCache.Eviction) (reader : PartReader) (s : σ) :
    Except String (σ × GroupCache) :=
  if reader.part.info.rowGroupCount == 0 || sink.isClosed s then .ok (s, reader.cache)
  else
    match definitiveColumns reader.part.metadataKeys reader.part.parsedKeys request.exactFields with
    | none => .ok (s, reader.cache)
    | some columns =>
      (orderRowGroups request reader.part.info
        (selectRowGroups P reader.part request.tenant request.lineFilters request.exactFields
          request.range)).foldlM
        (scanGroup P sink request evict reader.part columns) (s, reader.cache)

/-- The sink of a merge: every row, with its tenant. -/
def rowCollector (tenant : String) : RowSink (List Row) where
  accept rows entry := .ok (rows ++ [Row.fromEntry tenant entry])
  frontierNs _ := none
  isClosed _ := false

/-- A rewrite's request for the rows of a tenant. -/
def windowRequest (window : ℕ × ℕ) (tenant : String) : ScanRequest :=
  ⟨tenant, [], [], .unbounded, true, some window⟩

/-- `read_rows_in_row_groups`: all rows of a window of row groups, tenant by tenant. -/
def readRowsInRowGroups (evict : ℕ → GroupCache.Eviction) (reader : PartReader)
    (window : ℕ × ℕ) : Except String (List Row) :=
  reader.part.info.tenants.foldlM (fun rows segment =>
    if window.2 ≤ segment.rowGroupStart || segment.rowGroupEnd ≤ window.1 then .ok rows
    else (scanInto P (rowCollector segment.tenant) (windowRequest window segment.tenant) evict
      reader []).map fun state => rows ++ state.1) []

end Part

end Obsy
