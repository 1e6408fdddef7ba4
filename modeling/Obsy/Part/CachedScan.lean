import Obsy.Part.Limits
import Obsy.Part.Projection
import Obsy.Part.SelectionRuns

/-!
# Scans over cached batches

The scan of a part as the reader does it: it reads the columns that it is asked for, keeps batches of
decoded rows under the runs of their rows, and serves later scans out of them, whole, by the same key
or cut out of a wider entry.

* `Batched.GroupCache`: the cache of a reader.
* `Batched.scanInto`: a scan within limits, and what it leaves in the cache.
-/

namespace Obsy

namespace Part

namespace Batched

open Logql (ExactFieldPredicate)
open Runs (Step steps)

/-! ### The cache -/

/-- Decoded rows, by the columns that were read. -/
abbrev Batch := List (List Leaf)

/-- What a narrow pass depends on. -/
structure NarrowQuery where
  rgu : ℕ
  time : QueryTimeRange
  base : SelectionKey
  defs : List DefinitiveColumn
deriving DecidableEq

/-- Batches by row group and selection, and narrow passes with the selections they produced. -/
structure GroupCache where
  enabled : Bool
  groups : List ((ℕ × SelectionKey) × List Batch)
  narrows : List (NarrowQuery × Option SelectionKey)

namespace GroupCache

/-- A cache without a budget. -/
def disabled : GroupCache := ⟨false, [], []⟩

def get (cache : GroupCache) (rgu : ℕ) (key : SelectionKey) : Option (List Batch) :=
  cache.groups.lookup (rgu, key)

def getNarrow (cache : GroupCache) (query : NarrowQuery) : Option (Option SelectionKey) :=
  cache.narrows.lookup query

/-- A cache with the same or fewer entries. -/
structure Within (cache whole : GroupCache) : Prop where
  enabled : cache.enabled = whole.enabled
  groups : cache.groups ⊆ whole.groups
  narrows : cache.narrows ⊆ whole.narrows

/-- What is left when the budget is met again: entries that were touched long ago are given back, and
the one just inserted where that is not enough. -/
abbrev Eviction := {evict : GroupCache → GroupCache // ∀ cache, (evict cache).Within cache}

def insert (evict : Eviction) (cache : GroupCache) (rgu : ℕ) (key : SelectionKey)
    (batches : List Batch) : GroupCache :=
  if !cache.enabled || (cache.get rgu key).isSome then cache
  else evict.1 { cache with groups := ((rgu, key), batches) :: cache.groups }

def insertNarrow (evict : Eviction) (cache : GroupCache) (query : NarrowQuery)
    (outcome : Option SelectionKey) : GroupCache :=
  if !cache.enabled || (cache.getNarrow query).isSome then cache
  else evict.1 { cache with narrows := (query, outcome) :: cache.narrows }

end GroupCache

/-! ### Parts, sinks and surroundings -/

/-- A part that was opened: its key lists are sorted, its rows have a column for each key, and a row
group has fewer rows than a `u32` counts. -/
structure OpenPart where
  part : LogPart
  metadataSorted : part.metadataKeys.Pairwise (· < ·)
  parsedSorted : part.parsedKeys.Pairwise (· < ·)
  schema : ∀ group ∈ part.data, ∀ cells ∈ group, cells.metadata.length = part.metadataKeys.length
  small : ∀ group ∈ part.data, group.length < 2 ^ 32

namespace OpenPart

variable (opened : OpenPart)

def metadataKeys : ColumnKeys := ⟨opened.part.metadataKeys, opened.metadataSorted⟩

def parsedKeys : ColumnKeys := ⟨opened.part.parsedKeys, opened.parsedSorted⟩

def group (rowGroup : ℕ) : List Cells := opened.part.data.getD rowGroup []

/-- The columns of the batches in the cache. -/
def cacheProjection : ScanProjection := .build opened.metadataKeys opened.parsedKeys .all

end OpenPart

/-- Where a scan puts the rows it reads, with the fields of the line if it has read them. -/
structure RowSink (σ : Type*) where
  acceptExtracted : σ → LogEntry → Option Pairs → Except String σ
  /-- The timestamp a row must beat, if there is no room for every row. -/
  frontierNs : σ → Option Nanos
  /-- Whether the sink never accepts anything. -/
  isClosed : σ → Bool

/-- How far a scan is: what it has read, and how often it has looked whether it is cancelled. -/
structure Progress extends ScanStats where
  checks : ℕ

namespace Progress

def zero : Progress := ⟨.zero, 0⟩

def look (p : Progress) : Progress := { p with checks := p.checks + 1 }

def add (p : Progress) (stats : ScanStats) : Progress := ⟨p.toScanStats.add stats, p.checks⟩

def charge (p : Progress) (bytes : ℕ) : Progress := ⟨p.toScanStats.charge bytes, p.checks⟩

def count (p : Progress) : Progress := ⟨p.toScanStats.count, p.checks⟩

end Progress

/-- What is decided outside of a scan. -/
structure Surroundings (σ : Type*) where
  runs : Selection → RowSelection
  bits_runs : ∀ selection, (runs selection).bits = selection
  decoded : Option ℕ → σ → Progress → Batch → List (Batch × ℕ)
  flatten_decoded : ∀ limit s p rows, ((decoded limit s p rows).map Prod.fst).flatten = rows
  shrunk : Batch → ℕ
  /-- The memory of the batches of a narrow pass. -/
  narrowMemory : NarrowQuery → ℕ
  /-- Whether the scan is found cancelled when it looks for that time. -/
  cancelled : ℕ → Bool
  groupEviction : ℕ → GroupCache.Eviction
  narrowEviction : ℕ → GroupCache.Eviction

/-! ### Views -/

/-- The place in another layout of what is at a place in this one. -/
def rankIn (self layout : ScanProjection) (position : ℕ) : Option ℕ :=
  (self.leaves[position]?).bind fun leaf => layout.leaves.idxOf? leaf

/-- The place of a column that is not always read. -/
def optionalRankIn (self layout : ScanProjection) : Option ℕ → Option (Option ℕ)
  | some position => (rankIn self layout position).map some
  | none => some none

/-- A projection of the rows of another layout, if that has all columns. -/
def viewIn (self layout : ScanProjection) : Option ScanProjection := do
  let msg ← optionalRankIn self layout self.msg
  let metadata ← self.metadata.mapM fun k => (rankIn self layout k.2).map fun place => (k.1, place)
  let parsed ← self.parsed.mapM fun k => (rankIn self layout k.2).map fun place => (k.1, place)
  let residual ← optionalRankIn self layout self.residual
  some { leaves := layout.leaves, msg, metadata, parsed, residual }

/-! ### Rows -/

def tenantAt (row : List Leaf) : String := (textAt row 0).getD ""

def timestampAt (row : List Leaf) : Nanos :=
  match (row[1]? : Option Leaf) with
  | some (.ns ts) => ts
  | _ => Nanos.zero

section

variable (P : Platform) {σ : Type*} (sink : RowSink σ) (request : ScanRequest) (columns : ColumnSet)
  (opened : OpenPart)

/-- The line of a row, if it is read. -/
def lineAt (projection : ScanProjection) (row : List Leaf) : Option String :=
  projection.msg.map fun place => (textAt row place).getD ""

/-- The fields of the line, if they are read and there are some. -/
def extractedAt (projection : ScanProjection) (row : List Leaf) : Option Pairs :=
  let extracted := projection.parsed.filterMap fun k =>
    (textAt row k.2).map fun value => (opened.parsedKeys.keys.getD k.1 "", value)
  if extracted.isEmpty then none else some extracted

/-- Offers a row that is not beyond the frontier, if it is in the range and the filters match. -/
def offerFields (projection : ScanProjection) (s : σ) (row : List Leaf) : Except String σ :=
  if !request.range.contains (timestampAt row) then .ok s
  else if !(lineAt projection row).all (fun line =>
      request.lineFilters.all fun filter => filter.matches line) then .ok s
  else
    match projection.metadataOf P.text opened.metadataKeys row with
    | some metadata => sink.acceptExtracted s
        ⟨timestampAt row, (lineAt projection row).getD "", metadata⟩ (extractedAt opened projection row)
    | none => .error ("invalid structured metadata in part " ++ opened.part.info.id)

def tenantMessage (rowGroup : ℕ) : String :=
  "part " ++ opened.part.info.id ++ " row group " ++ toString rowGroup ++
    " contains rows outside tenant " ++ request.tenant

variable (limits : ScanLimits) (env : Surroundings σ)

/-- One row of a batch. -/
def scanRow (projection : ScanProjection) (countRows : Bool) (rowGroup : ℕ) (state : σ × Progress)
    (row : List Leaf) : Except String (Step (σ × Progress)) :=
  let (s, p) := state
  if env.cancelled p.checks then .ok (.stop (s, p.look))
  else if tenantAt row ≠ request.tenant then .error (tenantMessage request opened rowGroup)
  else if beyondFrontier (sink.frontierNs s) request.forward (timestampAt row) then
    .ok (.next (s, p.look))
  else if limits.rowsReached p.toScanStats then .ok (.stop (s, p.look))
  else (offerFields P sink request opened projection s row).map fun s =>
    .next (s, if countRows then p.look.count else p.look)

/-- `scan_batch`. -/
def scanBatch (projection : ScanProjection) (countRows : Bool) (rowGroup : ℕ) (state : σ × Progress)
    (batch : Batch × ℕ) : Except String (Step (σ × Progress)) :=
  let (s, p) := state
  if env.cancelled p.checks then .ok (.stop (s, p.look))
  else
    let p := p.look.charge batch.2
    if limits.bytesExceeded p.toScanStats then .error limits.bytesMessage
    else steps (scanRow P sink request opened limits env projection countRows rowGroup)
      (inDirection request.forward batch.1) (s, p)

/-! ### Row groups -/

/-- Batches that hold the rows of a selection. -/
structure Served where
  projection : ScanProjection
  /-- The share of an entry of the cache that its slices were charged together. -/
  prepaid : Option ℕ
  batches : List (Batch × ℕ)

/-- Offers the rows of a selection. -/
def scanServed (countRows : Bool) (rowGroup : ℕ) (state : σ × Progress) (served : Served) :
    Except String (Step (σ × Progress)) :=
  let batches := inDirection request.forward served.batches
  match served.prepaid with
  | some bytes =>
    let p := state.2.charge bytes
    if limits.bytesExceeded p.toScanStats then .error limits.bytesMessage
    else steps (scanBatch P sink request opened { limits with bytes := none } env served.projection
      countRows rowGroup) batches (state.1, p)
  | none => steps (scanBatch P sink request opened limits env served.projection countRows rowGroup)
      batches state

/-- The rows that the exact fields and the range may select, as the decoder is given them. -/
def baseRuns (rowGroup : ℕ) : Option RowSelection :=
  (baseSelection P ((opened.group rowGroup).map Cells.timestampNs)
    (if request.exactFields.isEmpty then none else opened.part.index[rowGroup]?)
    request.exactFields request.range).map env.runs

/-- The share of an entry that some of its rows take. -/
def shareOf (entry : List Batch) (rows : ℕ) : ℕ :=
  (entry.map env.shrunk).sum * rows / max entry.flatten.length 1

/-- `select_rows_in_group`. -/
def selectRowsInGroup (defs : List DefinitiveColumn) (rowGroup : ℕ) (base : Option RowSelection) :
    Option RowSelection × ScanStats :=
  let group := opened.group rowGroup
  let shown := selectRows (selectionBits base group.length) group
  (keptSelection (rowsKept (fun cells => request.range.contains cells.timestampNs &&
      defs.all (·.satisfied cells)) (selectedIndices base group.length) shown) group.length,
    ⟨shown.length, env.narrowMemory ⟨rowGroup, request.range, selectionKey base group.length, defs⟩⟩)

/-- The places of the metadata columns in a cached batch, each with the value that is asked for. -/
def smPositions (defs : List DefinitiveColumn) : Except String (List (ℕ × String)) :=
  defs.mapM fun column =>
    match column.smKey.bind fun key =>
        opened.cacheProjection.metadata.find? fun k => k.1 == key with
    | some k => .ok (k.2, column.value)
    | none => .error "cached projection is missing a metadata column"

/-- `select_rows_in_cached_group`, which visits the rows that slices of the entry have. -/
def selectRowsInCachedGroup (defs : List DefinitiveColumn) (base : Option RowSelection)
    (entry : List Batch) : Except String (Option RowSelection × ScanStats) := do
  let positions ← smPositions opened defs
  let total := entry.flatten.length
  let shown := (sliceCachedGroup entry base).flatten
  .ok (keptSelection (rowsKept (fun row => request.range.contains (timestampAt row) &&
      positions.all fun k => textAt row k.1 == some k.2) (selectedIndices base total) shown) total,
    ⟨shown.length, shareOf env entry shown.length⟩)

/-- A narrow pass, over the cached row group where that has the columns for it. -/
def narrowPass (defs : List DefinitiveColumn) (rowGroup : ℕ) (base : Option RowSelection)
    (whole : Option (List Batch)) : Except String (Option RowSelection × ScanStats) :=
  match whole with
  | some entry =>
    if defs.all fun column => column.pfKey.isNone then
      selectRowsInCachedGroup request opened env defs base entry
    else .ok (selectRowsInGroup request opened env defs rowGroup base)
  | none => .ok (selectRowsInGroup request opened env defs rowGroup base)

/-- The outcome of a narrow pass, which may be remembered. -/
def narrow (defs : List DefinitiveColumn) (rowGroup : ℕ) (base : Option RowSelection)
    (whole : Option (List Batch)) (cache : GroupCache) :
    Except String (Option RowSelection × ScanStats × GroupCache) :=
  let groupRows := (opened.group rowGroup).length
  let query : NarrowQuery := ⟨rowGroup, request.range, selectionKey base groupRows, defs⟩
  match if cache.enabled then cache.getNarrow query else none with
  | some outcome => .ok (outcome.map fun key => selectionOf key groupRows, .zero, cache)
  | none => (narrowPass request opened env defs rowGroup base whole).map fun r =>
      (r.1, r.2, cache.insertNarrow (env.narrowEviction rowGroup) query
        (r.1.map fun selection => selectionKey (some selection) groupRows))

def projectionOf : ScanProjection := .build opened.metadataKeys opened.parsedKeys columns

/-- The rows of a selection from the file, and the cache with them: a query keeps batches that have
the columns of the cache and all rows of the selection. -/
def decode (rowGroup : ℕ) (view : Option ScanProjection) (selection : Option RowSelection)
    (state : σ × Progress) (cache : GroupCache) : Served × GroupCache :=
  let group := opened.group rowGroup
  let projection := projectionOf columns opened
  let batches := env.decoded limits.rows state.1 state.2
    ((selectRows (selectionBits selection group.length) group).map (projectRow projection.leaves))
  let key := selectionKey selection group.length
  (⟨projection, none, batches⟩,
    if view.isSome && request.window.isNone && projection.leaves == opened.cacheProjection.leaves &&
        (batches.map Prod.fst).flatten.length == selectedRowsOf key then
      cache.insert (env.groupEviction rowGroup) rowGroup key (batches.map Prod.fst)
    else cache)

/-- Slices of an entry of the cache, which are charged together. -/
def slicesOf (view : ScanProjection) (entry slices : List Batch) : Served :=
  ⟨view, some (shareOf env entry slices.flatten.length), slices.map fun slice => (slice, 0)⟩

/-- What a broad query left under the base selection, and the rows of a narrowed one cut out of it. -/
def subsetOf (cache : GroupCache) (defs : List DefinitiveColumn) (rowGroup groupRows : ℕ)
    (base selection : Option RowSelection) : Option (List Batch × List Batch) :=
  if defs.isEmpty then none else do
    let entry ← cache.get rowGroup (selectionKey base groupRows)
    let narrowed ← selection
    let cut ← sliceCachedSubset entry (selectionKey base groupRows) narrowed
    some (entry, cut)

/-- Where the rows of a selection come from, and the cache after that. -/
def serve (defs : List DefinitiveColumn) (rowGroup : ℕ) (view : Option ScanProjection)
    (whole : Option (List Batch)) (base selection : Option RowSelection) (state : σ × Progress)
    (cache : GroupCache) : Served × GroupCache :=
  let groupRows := (opened.group rowGroup).length
  match view with
  | none => decode request columns opened limits env rowGroup none selection state cache
  | some layout =>
    match whole with
    | some entry => (slicesOf env layout entry (sliceCachedGroup entry selection), cache)
    | none =>
      match cache.get rowGroup (selectionKey selection groupRows) with
      | some replay => (⟨layout, none, replay.map fun batch => (batch, env.shrunk batch)⟩, cache)
      | none =>
        match subsetOf cache defs rowGroup groupRows base selection with
        | some (entry, cut) => (slicesOf env layout entry cut, cache)
        | none => decode request columns opened limits env rowGroup (some layout) selection state cache

/-- Scans one row group: what it leaves, or the error and the cache. -/
def scanGroup (defs : List DefinitiveColumn) (state : (σ × GroupCache) × Progress) (rowGroup : ℕ) :
    Except (String × GroupCache) (Step ((σ × GroupCache) × Progress)) :=
  let ((s, cache), p) := state
  if env.cancelled p.checks then .ok (.stop ((s, cache), p.look))
  else if spanBeyondFrontier (sink.frontierNs s) request.forward
      (opened.part.info.rowGroupMinTs.getD rowGroup Nanos.zero)
      (opened.part.info.rowGroupMaxTs.getD rowGroup Nanos.zero) then .ok (.next ((s, cache), p.look))
  else
    let base := baseRuns P request opened env rowGroup
    if base.any fun runs => !runs.selectsAny then .ok (.next ((s, cache), p.look))
    else
      let view := if cache.enabled then viewIn (projectionOf columns opened) opened.cacheProjection
        else none
      let whole := if view.isSome then
          cache.get rowGroup (selectionKey none (opened.group rowGroup).length)
        else none
      let narrowed := if defs.isEmpty then .ok (some base, .zero, cache)
        else (narrow request opened env defs rowGroup base whole cache).map fun r => (r.1.map some, r.2)
      match narrowed with
      | .error e => .error (e, cache)
      | .ok (none, stats, cache) => .ok (.next ((s, cache), p.look.add stats))
      | .ok (some selection, stats, cache) =>
        let begun := (s, p.look.add stats)
        let (served, filled) := serve request columns opened limits env defs rowGroup view whole base
          selection begun cache
        -- a decode that streams its batches fills the cache only when it is through
        let stopped := if request.forward then cache else filled
        ((scanServed P sink request opened limits env defs.isEmpty rowGroup begun served).map
          (Step.map (fun b => ((b.1, filled), b.2)) fun b => ((b.1, stopped), b.2))).mapError
            fun e => (e, stopped)

/-- `PartReader::scan_into`. -/
def scanInto (cache : GroupCache) (s : σ) :
    Except (String × GroupCache) (Step ((σ × GroupCache) × Progress)) :=
  if opened.part.info.rowGroupCount == 0 || sink.isClosed s then .ok (.next ((s, cache), .zero))
  else
    match definitiveColumns opened.part.metadataKeys opened.part.parsedKeys request.exactFields with
    | none => .ok (.next ((s, cache), .zero))
    | some defs =>
      steps (scanGroup P sink request columns opened limits env defs)
        (orderRowGroups request opened.part.info
          (selectRowGroups P opened.part request.tenant request.lineFilters request.exactFields
            request.range)) ((s, cache), .zero)

end

end Batched

end Part

end Obsy
