import Obsy.Part.LogScan
import Obsy.Runs.Limited

/-!
# Limits of a scan

A part charges the rows that it examines and the memory of the batches that it decodes.  It stops at
a limit on rows and fails beyond a limit on bytes.

* `scanGroupWithin`, `scanIntoWithin`: the scan of a part within limits.
* `scanIntoWithin_none`: without limits it is the plain scan.
* `scanIntoWithin_follows`: what the limits change.
-/

namespace Obsy

namespace Part

open Runs (Step steps Limit)

/-! ### What is charged -/

/-- What a scan has read. -/
structure ScanStats where
  scannedRows : ℕ
  scannedBytes : ℕ
deriving DecidableEq

namespace ScanStats

def zero : ScanStats := ⟨0, 0⟩

def add (a b : ScanStats) : ScanStats :=
  ⟨a.scannedRows + b.scannedRows, a.scannedBytes + b.scannedBytes⟩

/-- After some more bytes. -/
def charge (stats : ScanStats) (bytes : ℕ) : ScanStats :=
  { stats with scannedBytes := stats.scannedBytes + bytes }

/-- After one more row. -/
def count (stats : ScanStats) : ScanStats := { stats with scannedRows := stats.scannedRows + 1 }

end ScanStats

/-- What a scan may read. -/
structure ScanLimits where
  rows : Option ℕ
  bytes : Option ℕ

namespace ScanLimits

variable (limits : ScanLimits)

/-- Neither rows nor bytes are limited. -/
def none : ScanLimits := ⟨Option.none, Option.none⟩

def rowsReached (stats : ScanStats) : Bool := limits.rows.any (· ≤ stats.scannedRows)

def bytesExceeded (stats : ScanStats) : Bool := limits.bytes.any (· < stats.scannedBytes)

/-- What is left after a part of it was read. -/
def after (stats : ScanStats) : ScanLimits :=
  ⟨limits.rows.map (· - stats.scannedRows), limits.bytes.map (· - stats.scannedBytes)⟩

/-- The error of a scan that reads too many bytes. -/
def bytesMessage : String :=
  "query exceeds the maximum of " ++ toString (limits.bytes.getD 0) ++ " scanned bytes"

end ScanLimits

/-- What the decoder of a part does with some rows, and the memory that it takes for them. -/
structure Decoding (σ : Type*) where
  /-- The batches of a decode and the memory of each; how many rows a batch has depends on the limit
  on rows, on what the sink takes and on what was read. -/
  decoded : Option ℕ → σ → ScanStats → ℕ → Selection → List Cells → List (List Cells × ℕ)
  replayed : ℕ → Selection → List Cells → List (List Cells × ℕ)
  /-- The memory of an entry of the cache. -/
  entryBytes : ℕ → Selection → ℕ
  /-- The memory of the batches of a narrow pass. -/
  narrowBytes : ℕ → Selection → ℕ
  flatten_decoded : ∀ limit s stats rowGroup selection rows,
    ((decoded limit s stats rowGroup selection rows).map Prod.fst).flatten = rows
  flatten_replayed : ∀ rowGroup selection rows,
    ((replayed rowGroup selection rows).map Prod.fst).flatten = rows

/-- The decoder when it is given another limit on rows. -/
def Decoding.sized {σ : Type*} (decoding : Decoding σ) (rows : Option ℕ) : Decoding σ :=
  { decoding with
    decoded := fun _ => decoding.decoded rows
    flatten_decoded := fun _ => decoding.flatten_decoded rows }

/-- Where the rows of a selection come from. -/
inductive Served where
  /-- Cut out of an entry of the cache, for a share of its memory. -/
  | slices (bytes : ℕ) (rows : List Cells)
  /-- Batches, each for its own memory. -/
  | batches (decoded : List (List Cells × ℕ))

def Served.rows : Served → List Cells
  | .slices _ rows => rows
  | .batches decoded => (decoded.map Prod.fst).flatten

namespace GroupScan

variable {σ : Type*} (decoding : Decoding σ) (scan : GroupScan) (cache : GroupCache)

/-- The share of an entry that some of its rows take. -/
def shareOf (entry : Selection) (examined total : ℕ) : ℕ :=
  decoding.entryBytes scan.rowGroup entry * examined / max total 1

/-- What the narrow pass is charged: nothing where its outcome is remembered. -/
def narrowStats : ScanStats :=
  if scan.columns.isEmpty then .zero
  else
    match if cache.enabled then cache.getNarrow scan.narrowQuery else none with
    | some _ => .zero
    | none =>
      let examined := (selectRows scan.baseKey scan.group).length
      match scan.cached cache with
      | some rows =>
        if scan.columns.all fun column => column.pfKey.isNone then
          ⟨examined, scan.shareOf decoding (allRows scan.group.length) examined rows.length⟩
        else ⟨examined, decoding.narrowBytes scan.rowGroup scan.baseKey⟩
      | none => ⟨examined, decoding.narrowBytes scan.rowGroup scan.baseKey⟩

/-- Where the rows of a selection come from. -/
def serve (limit : Option ℕ) (s : σ) (stats : ScanStats) (selection : Selection) : Served :=
  let decoded := Served.batches (decoding.decoded limit s stats scan.rowGroup selection
    (selectRows selection (scan.group.map Cells.wide)))
  if !cache.enabled then decoded
  else
    match scan.cached cache with
    | some rows =>
      let selected := selectRows selection rows
      .slices (scan.shareOf decoding (allRows scan.group.length) selected.length rows.length) selected
    | none =>
      match cache.get scan.rowGroup selection with
      | some rows => .batches (decoding.replayed scan.rowGroup selection rows)
      | none =>
        if scan.columns.isEmpty || bothSelections selection scan.baseKey != selection then decoded
        else
          match cache.get scan.rowGroup scan.baseKey with
          | some rows =>
            let selected := selectRows (selectionWithin selection scan.baseKey) rows
            .slices (scan.shareOf decoding scan.baseKey selected.length rows.length) selected
          | none => decoded

variable {decoding scan cache}

/-- The rows are those that the scan without limits reads. -/
theorem rows_serve (evict : GroupCache.Eviction) (fillCache : Bool) (limit : Option ℕ) (s : σ)
    (stats : ScanStats) (selection : Selection) :
    (scan.serve decoding cache limit s stats selection).rows =
      (scan.decode evict fillCache cache selection).1 := by
  have hdecoded : (Served.batches (decoding.decoded limit s stats scan.rowGroup selection
      (selectRows selection (scan.group.map Cells.wide)))).rows =
        selectRows selection (scan.group.map Cells.wide) := decoding.flatten_decoded ..
  rw [serve, decode, served]
  by_cases henabled : cache.enabled
  case neg => simp [henabled, hdecoded]
  simp only [henabled, Bool.not_true, Bool.false_eq_true, ↓reduceIte]
  cases scan.cached cache with
  | some rows => rfl
  | none =>
    dsimp only
    cases cache.get scan.rowGroup selection with
    | some rows => exact decoding.flatten_replayed ..
    | none =>
      dsimp only
      by_cases hbroad : (scan.columns.isEmpty ||
          bothSelections selection scan.baseKey != selection) = true
      · rw [if_pos hbroad, if_pos hbroad]
        exact hdecoded
      · rw [if_neg hbroad, if_neg hbroad]
        cases cache.get scan.rowGroup scan.baseKey with
        | some rows => rfl
        | none => exact hdecoded

end GroupScan

/-! ### The scan of a part -/

section

variable (P : Platform) {σ : Type*} (sink : RowSink σ) (request : ScanRequest) (part : LogPart)

section

variable (limits : ScanLimits) (countRows : Bool) (rowGroup : ℕ)

/-- Offers a row that is not beyond the frontier, if it is in the range and the filters match. -/
def offerCells (s : σ) (cells : Cells) : Except String σ :=
  if !request.range.contains cells.timestampNs then .ok s
  else if !request.lineFilters.all (fun filter => filter.matches cells.msg) then .ok s
  else
    match structuredMetadataOf P.text part.metadataKeys cells with
    | some metadata => sink.accept s ⟨cells.timestampNs, cells.msg, metadata⟩
    | none => .error ("invalid structured metadata in part " ++ part.info.id)

/-- Offers one decoded row, unless so many rows were read. -/
def scanRowWithin (state : σ × ScanStats) (cells : Cells) :
    Except String (Step (σ × ScanStats)) :=
  let (s, stats) := state
  if cells.tenant ≠ request.tenant then
    .error ("part " ++ part.info.id ++ " row group " ++ toString rowGroup ++
      " contains rows outside tenant " ++ request.tenant)
  else if beyondFrontier (sink.frontierNs s) request.forward cells.timestampNs then .ok (.next state)
  else if limits.rowsReached stats then .ok (.stop state)
  else (offerCells P sink request part s cells).map fun s =>
    .next (s, if countRows then stats.count else stats)

/-- `scan_batch`: charges a batch and offers its rows. -/
def scanBatch (state : σ × ScanStats) (batch : List Cells × ℕ) :
    Except String (Step (σ × ScanStats)) :=
  let stats := state.2.charge batch.2
  if limits.bytesExceeded stats then .error limits.bytesMessage
  else steps (scanRowWithin P sink request part limits countRows rowGroup)
    (inDirection request.forward batch.1) (state.1, stats)

/-- Offers the rows of a selection.  Slices were charged together, so that their own memory is not
looked at. -/
def scanServed (state : σ × ScanStats) : Served → Except String (Step (σ × ScanStats))
  | .slices bytes rows =>
    let stats := state.2.charge bytes
    if limits.bytesExceeded stats then .error limits.bytesMessage
    else scanBatch P sink request part { limits with bytes := none } countRows rowGroup
      (state.1, stats) (rows, 0)
  | .batches batches =>
    steps (scanBatch P sink request part limits countRows rowGroup)
      (inDirection request.forward batches) state

end

def groupScan (columns : List DefinitiveColumn) (rowGroup : ℕ) : GroupScan :=
  ⟨rowGroup, part.data.getD rowGroup [],
    baseSelection P ((part.data.getD rowGroup []).map Cells.timestampNs)
      (if request.exactFields.isEmpty then none else part.index[rowGroup]?)
      request.exactFields request.range,
    columns, request.range⟩

variable (limits : ScanLimits) (decoding : Decoding σ)

/-- Scans one row group within limits. -/
def scanGroupWithin (evict : ℕ → GroupCache.Eviction) (columns : List DefinitiveColumn)
    (state : (σ × GroupCache) × ScanStats) (rowGroup : ℕ) :
    Except String (Step ((σ × GroupCache) × ScanStats)) :=
  let ((s, cache), stats) := state
  if spanBeyondFrontier (sink.frontierNs s) request.forward
      (part.info.rowGroupMinTs.getD rowGroup Nanos.zero)
      (part.info.rowGroupMaxTs.getD rowGroup Nanos.zero) then .ok (.next state)
  else
    let scan := groupScan P request part columns rowGroup
    if scan.base.any fun base => !base.any id then .ok (.next state)
    else
      let outcome := if scan.columns.isEmpty then some scan.baseKey else scan.narrow cache
      let stats := stats.add (scan.narrowStats decoding cache)
      let narrowed := if scan.columns.isEmpty then cache
        else cache.insertNarrow (evict rowGroup) scan.narrowQuery outcome
      match outcome with
      | none => .ok (.next ((s, narrowed), stats))
      | some selection =>
        let filled := (scan.decode (evict rowGroup) request.window.isNone narrowed selection).2
        -- a decode that streams its batches fills the cache only when it is through
        let stopped := if request.forward then narrowed else filled
        (scanServed P sink request part limits scan.columns.isEmpty rowGroup (s, stats)
          (scan.serve decoding narrowed limits.rows s stats selection)).map
            (Step.map (fun state => ((state.1, filled), state.2))
              fun state => ((state.1, stopped), state.2))

end

section

variable (P : Platform) {σ : Type*} (sink : RowSink σ) (request : ScanRequest)
  (limits : ScanLimits) (decoding : Decoding σ)

/-- `PartReader::scan_into` within limits. -/
def scanIntoWithin (evict : ℕ → GroupCache.Eviction) (reader : PartReader) (s : σ) :
    Except String (Step ((σ × GroupCache) × ScanStats)) :=
  if reader.part.info.rowGroupCount == 0 || sink.isClosed s then
    .ok (.next ((s, reader.cache), .zero))
  else
    match definitiveColumns reader.part.metadataKeys reader.part.parsedKeys request.exactFields with
    | none => .ok (.next ((s, reader.cache), .zero))
    | some columns =>
      steps (scanGroupWithin P sink request reader.part limits decoding evict columns)
        (orderRowGroups request reader.part.info
          (selectRowGroups P reader.part request.tenant request.lineFilters request.exactFields
            request.range)) ((s, reader.cache), .zero)

end

/-! ### A scan without limits -/

section

variable {P : Platform} {σ : Type*} {sink : RowSink σ} {request : ScanRequest} {part : LogPart}

theorem rowsReached_none (stats : ScanStats) : ScanLimits.none.rowsReached stats = false := rfl

theorem bytesExceeded_none (stats : ScanStats) : ScanLimits.none.bytesExceeded stats = false := rfl

/-- Without limits a row is offered as by a plain scan. -/
theorem scanRowWithin_none (countRows : Bool) (rowGroup : ℕ) (state : σ × ScanStats)
    (cells : Cells) :
    ((scanRowWithin P sink request part .none countRows rowGroup state cells).map Step.state).map
        Prod.fst = scanRow P sink request part rowGroup state.1 cells ∧
      ∀ state', scanRowWithin P sink request part .none countRows rowGroup state cells ≠
        .ok (.stop state') := by
  obtain ⟨s, stats⟩ := state
  have hoffer : scanRow P sink request part rowGroup s cells =
      if cells.tenant ≠ request.tenant then
        .error ("part " ++ part.info.id ++ " row group " ++ toString rowGroup ++
          " contains rows outside tenant " ++ request.tenant)
      else if beyondFrontier (sink.frontierNs s) request.forward cells.timestampNs then .ok s
      else offerCells P sink request part s cells := rfl
  rw [hoffer]
  simp only [scanRowWithin, rowsReached_none, Bool.false_eq_true, ↓reduceIte]
  by_cases htenant : cells.tenant ≠ request.tenant
  · rw [if_pos htenant, if_pos htenant]
    exact ⟨rfl, fun _ h => (by cases h)⟩
  rw [if_neg htenant, if_neg htenant]
  by_cases hbeyond : beyondFrontier (sink.frontierNs s) request.forward cells.timestampNs = true
  · rw [if_pos hbeyond, if_pos hbeyond]
    exact ⟨rfl, fun _ h => (by cases h)⟩
  rw [if_neg hbeyond, if_neg hbeyond]
  cases offerCells P sink request part s cells with
  | error e => exact ⟨rfl, fun _ h => (by cases h)⟩
  | ok s' => exact ⟨rfl, fun _ h => (by cases h)⟩

/-- A batch is offered row by row. -/
theorem scanBatch_none (countRows : Bool) (rowGroup : ℕ) (state : σ × ScanStats)
    (batch : List Cells × ℕ) :
    ((scanBatch P sink request part .none countRows rowGroup state batch).map Step.state).map
        Prod.fst = (inDirection request.forward batch.1).foldlM
          (scanRow P sink request part rowGroup) state.1 ∧
      ∀ state', scanBatch P sink request part .none countRows rowGroup state batch ≠
        .ok (.stop state') := by
  rw [scanBatch, bytesExceeded_none, if_neg Bool.false_ne_true]
  exact Runs.steps_eq_foldlM (fun state cells => (scanRowWithin_none countRows rowGroup state cells).1)
    (fun state cells => (scanRowWithin_none countRows rowGroup state cells).2) _ _

theorem flatMap_inDirection {α β : Type*} (forward : Bool) (f : α → List β) (items : List α) :
    ((inDirection forward items).flatMap fun item => inDirection forward (f item)) =
      inDirection forward (items.flatMap f) := by
  cases forward with
  | true => rfl
  | false => exact (List.reverse_flatMap ..).symm

/-- The rows of a selection are offered in the direction of the query. -/
theorem scanServed_none (countRows : Bool) (rowGroup : ℕ) (state : σ × ScanStats)
    (served : Served) :
    ((scanServed P sink request part .none countRows rowGroup state served).map Step.state).map
        Prod.fst = (inDirection request.forward served.rows).foldlM
          (scanRow P sink request part rowGroup) state.1 ∧
      ∀ state', scanServed P sink request part .none countRows rowGroup state served ≠
        .ok (.stop state') := by
  cases served with
  | slices bytes rows =>
    rw [scanServed, bytesExceeded_none, if_neg Bool.false_ne_true]
    exact scanBatch_none countRows rowGroup (state.1, state.2.charge bytes) (rows, 0)
  | batches decoded =>
    rw [scanServed, Served.rows, ← List.flatMap_def, ← flatMap_inDirection, Runs.foldlM_flatMap]
    exact Runs.steps_eq_foldlM (fun state batch => (scanBatch_none countRows rowGroup state batch).1)
      (fun state batch => (scanBatch_none countRows rowGroup state batch).2) _ _

variable {decoding : Decoding σ}

theorem scanGroup_eq (evict : ℕ → GroupCache.Eviction) (columns : List DefinitiveColumn)
    (state : σ × GroupCache) (rowGroup : ℕ) :
    scanGroup P sink request evict part columns state rowGroup =
      if spanBeyondFrontier (sink.frontierNs state.1) request.forward
          (part.info.rowGroupMinTs.getD rowGroup Nanos.zero)
          (part.info.rowGroupMaxTs.getD rowGroup Nanos.zero) then .ok state
      else
        let read := (groupScan P request part columns rowGroup).rows (evict rowGroup)
          request.window.isNone state.2
        ((inDirection request.forward read.1).foldlM (scanRow P sink request part rowGroup)
          state.1).map fun s => (s, read.2) := rfl

/-- A row group without limits. -/
theorem scanGroupWithin_none (evict : ℕ → GroupCache.Eviction) (columns : List DefinitiveColumn)
    (state : (σ × GroupCache) × ScanStats) (rowGroup : ℕ) :
    ((scanGroupWithin P sink request part .none decoding evict columns state rowGroup).map
        Step.state).map Prod.fst = scanGroup P sink request evict part columns state.1 rowGroup ∧
      ∀ state', scanGroupWithin P sink request part .none decoding evict columns state rowGroup ≠
        .ok (.stop state') := by
  obtain ⟨⟨s, cache⟩, stats⟩ := state
  rw [scanGroupWithin, scanGroup_eq]
  by_cases hbeyond : spanBeyondFrontier (sink.frontierNs s) request.forward
      (part.info.rowGroupMinTs.getD rowGroup Nanos.zero)
      (part.info.rowGroupMaxTs.getD rowGroup Nanos.zero) = true
  · rw [if_pos hbeyond, if_pos hbeyond]
    exact ⟨rfl, fun _ h => (by cases h)⟩
  rw [if_neg hbeyond, if_neg hbeyond]
  dsimp only
  generalize groupScan P request part columns rowGroup = scan
  rw [GroupScan.rows]
  by_cases hbase : (scan.base.any fun base => !base.any id) = true
  · rw [if_pos hbase, if_pos hbase]
    refine ⟨?_, fun _ h => (by cases h)⟩
    cases request.forward <;> rfl
  rw [if_neg hbase, if_neg hbase]
  dsimp only
  generalize (if scan.columns.isEmpty then some scan.baseKey else scan.narrow cache) = outcome
  generalize (if scan.columns.isEmpty then cache
    else cache.insertNarrow (evict rowGroup) scan.narrowQuery outcome) = narrowed
  cases outcome with
  | none =>
    refine ⟨?_, fun _ h => (by cases h)⟩
    cases request.forward <;> rfl
  | some selection =>
    dsimp only
    set read := stats.add (scan.narrowStats decoding cache) with hread
    rw [← @GroupScan.rows_serve σ decoding scan narrowed (evict rowGroup) request.window.isNone
      ScanLimits.none.rows s read selection]
    obtain ⟨hserved, hnext⟩ := @scanServed_none P σ sink request part scan.columns.isEmpty rowGroup
      (s, read) (scan.serve decoding narrowed ScanLimits.none.rows s read selection)
    rw [← hserved]
    rcases hrun : scanServed P sink request part .none scan.columns.isEmpty rowGroup (s, read)
      (scan.serve decoding narrowed ScanLimits.none.rows s read selection) with e | b | b
    · exact ⟨rfl, fun _ h => (by cases h)⟩
    · exact ⟨rfl, fun _ h => (by cases h)⟩
    · exact absurd hrun (hnext b)

/-- **The scan of a part without limits** is the plain scan. -/
theorem scanIntoWithin_none (evict : ℕ → GroupCache.Eviction) (reader : PartReader) (s : σ) :
    ((scanIntoWithin P sink request .none decoding evict reader s).map Step.state).map Prod.fst =
        scanInto P sink request evict reader s ∧
      ∀ state, scanIntoWithin P sink request .none decoding evict reader s ≠ .ok (.stop state) := by
  rw [scanIntoWithin, scanInto]
  split
  case isTrue => exact ⟨rfl, fun _ h => (by cases h)⟩
  case isFalse =>
    cases definitiveColumns reader.part.metadataKeys reader.part.parsedKeys request.exactFields with
    | none => exact ⟨rfl, fun _ h => (by cases h)⟩
    | some columns =>
      exact Runs.steps_eq_foldlM
        (fun state rowGroup => (scanGroupWithin_none evict columns state rowGroup).1)
        (fun state rowGroup => (scanGroupWithin_none evict columns state rowGroup).2) _ _

/-! ### A scan within limits -/

/-- Where a scan stops, and where it has read too much. -/
def ScanLimits.limit {τ : Type*} (limits : ScanLimits) : Limit (τ × ScanStats) where
  reached state := limits.rowsReached state.2 = true
  exceeded state := limits.bytesExceeded state.2 = true

variable {limits : ScanLimits}

/-- A scan that has read more is no further from its limits. -/
theorem ScanLimits.grows {τ : Type*} {state state' : τ × ScanStats}
    (hrows : state.2.scannedRows ≤ state'.2.scannedRows)
    (hbytes : state.2.scannedBytes ≤ state'.2.scannedBytes) : limits.limit.Grows state state' where
  reached h := by
    obtain ⟨budget, hbudget, hle⟩ := (Option.any_eq_true ..).1 h
    exact (Option.any_eq_true ..).2 ⟨budget, hbudget, decide_eq_true ((of_decide_eq_true hle).trans hrows)⟩
  exceeded h := by
    obtain ⟨budget, hbudget, hlt⟩ := (Option.any_eq_true ..).1 h
    exact (Option.any_eq_true ..).2
      ⟨budget, hbudget, decide_eq_true ((of_decide_eq_true hlt).trans_le hbytes)⟩

theorem ScanLimits.grows_charge (state : σ × ScanStats) (bytes : ℕ) :
    limits.limit.Grows state (state.1, state.2.charge bytes) :=
  ScanLimits.grows le_rfl (Nat.le_add_right _ _)

/-- One row within limits: a limit on bytes changes nothing here. -/
theorem scanRowWithin_follows (countRows : Bool) (rowGroup : ℕ) (state : σ × ScanStats)
    (cells : Cells) (bytes : Option ℕ) :
    limits.limit.Follows state
      (scanRowWithin P sink request part { limits with bytes := bytes } countRows rowGroup state cells)
      (scanRowWithin P sink request part .none countRows rowGroup state cells) := by
  have hself : limits.limit.Follows state
      (scanRowWithin P sink request part .none countRows rowGroup state cells)
      (scanRowWithin P sink request part .none countRows rowGroup state cells) := by
    refine .refl (scanRowWithin_none countRows rowGroup state cells).2 fun state' h => ?_
    -- a row is counted or not, and is charged no bytes
    rw [scanRowWithin] at h
    split at h
    · cases h
    split at h
    · cases h
      exact .refl _
    split at h
    · cases h
    cases hoffer : offerCells P sink request part state.1 cells with
    | error e =>
      rw [hoffer] at h
      cases h
    | ok s' =>
      rw [hoffer] at h
      cases h
      cases countRows with
      | true => exact ScanLimits.grows (Nat.le_succ _) le_rfl
      | false => exact ScanLimits.grows le_rfl le_rfl
  obtain ⟨s, stats⟩ := state
  by_cases hstops : limits.rowsReached stats = true
  · rw [show scanRowWithin P sink request part { limits with bytes := bytes } countRows rowGroup
      (s, stats) cells = if cells.tenant ≠ request.tenant then
        .error ("part " ++ part.info.id ++ " row group " ++ toString rowGroup ++
          " contains rows outside tenant " ++ request.tenant)
      else if beyondFrontier (sink.frontierNs s) request.forward cells.timestampNs then
        .ok (.next (s, stats))
      else .ok (.stop (s, stats)) by
        rw [scanRowWithin, show ({ limits with bytes := bytes } : ScanLimits).rowsReached stats = true
          from hstops, if_pos rfl]]
    split_ifs with htenant hbeyond
    · rwa [scanRowWithin, if_pos htenant] at hself ⊢
    · rwa [scanRowWithin, if_neg htenant, if_pos hbeyond] at hself ⊢
    · exact hself.of_reached hstops
  · rwa [show scanRowWithin P sink request part { limits with bytes := bytes } countRows rowGroup
      (s, stats) cells = scanRowWithin P sink request part .none countRows rowGroup (s, stats) cells by
        rw [scanRowWithin, scanRowWithin, rowsReached_none,
          show ({ limits with bytes := bytes } : ScanLimits).rowsReached stats = false from
            Bool.eq_false_iff.mpr hstops]]

theorem scanRows_follows (bytes : Option ℕ) (countRows : Bool) (rowGroup : ℕ)
    (state : σ × ScanStats) (rows : List Cells) :
    limits.limit.Follows state
      (steps (scanRowWithin P sink request part { limits with bytes := bytes } countRows rowGroup)
        (inDirection request.forward rows) state)
      (steps (scanRowWithin P sink request part .none countRows rowGroup)
        (inDirection request.forward rows) state) :=
  .steps (fun state cells => scanRowWithin_follows countRows rowGroup state cells bytes) _ _

/-- A batch within limits, or of slices, whose memory is not looked at. -/
theorem scanBatch_follows {bytes : Option ℕ} (hbytes : bytes = limits.bytes ∨ bytes = none)
    (countRows : Bool) (rowGroup : ℕ) (state : σ × ScanStats) (batch : List Cells × ℕ) :
    limits.limit.Follows state
      (scanBatch P sink request part { limits with bytes := bytes } countRows rowGroup state batch)
      (scanBatch P sink request part .none countRows rowGroup state batch) := by
  have hrows := @scanRows_follows P σ sink request part limits bytes countRows rowGroup
    (state.1, state.2.charge batch.2) batch.1
  refine Runs.Limit.Follows.mono ?_ (ScanLimits.grows_charge state batch.2)
  rw [scanBatch, scanBatch, bytesExceeded_none, if_neg Bool.false_ne_true]
  split
  case isTrue hexceeded =>
    rcases hbytes with rfl | rfl
    · exact hrows.of_exceeded _ hexceeded
    · cases hexceeded
  case isFalse => exact hrows

/-- The rows of a selection within limits. -/
theorem scanServed_follows (countRows : Bool) (rowGroup : ℕ) (state : σ × ScanStats)
    (served : Served) :
    limits.limit.Follows state
      (scanServed P sink request part limits countRows rowGroup state served)
      (scanServed P sink request part .none countRows rowGroup state served) := by
  cases served with
  | slices bytes rows =>
    refine Runs.Limit.Follows.mono ?_ (ScanLimits.grows_charge state bytes)
    have hbatch := @scanBatch_follows P σ sink request part limits none (.inr rfl) countRows rowGroup
      (state.1, state.2.charge bytes) (rows, 0)
    rw [scanServed, scanServed, bytesExceeded_none, if_neg Bool.false_ne_true]
    split
    case isTrue hexceeded => exact hbatch.of_exceeded _ hexceeded
    case isFalse => exact hbatch
  | batches decoded =>
    exact .steps (fun state batch => scanBatch_follows (.inl rfl) countRows rowGroup state batch) _ _

/-- A row group within limits, against one without whose batches are of the same size. -/
theorem scanGroupWithin_follows (evict : ℕ → GroupCache.Eviction) (columns : List DefinitiveColumn)
    (state : (σ × GroupCache) × ScanStats) (rowGroup : ℕ) :
    limits.limit.Follows state
      (scanGroupWithin P sink request part limits decoding evict columns state rowGroup)
      (scanGroupWithin P sink request part .none (decoding.sized limits.rows) evict columns state
        rowGroup) := by
  obtain ⟨⟨s, cache⟩, stats⟩ := state
  rw [scanGroupWithin, scanGroupWithin]
  by_cases hbeyond : spanBeyondFrontier (sink.frontierNs s) request.forward
      (part.info.rowGroupMinTs.getD rowGroup Nanos.zero)
      (part.info.rowGroupMaxTs.getD rowGroup Nanos.zero) = true
  · rw [if_pos hbeyond, if_pos hbeyond]
    exact .of_next (.refl _)
  rw [if_neg hbeyond, if_neg hbeyond]
  dsimp only
  generalize groupScan P request part columns rowGroup = scan
  by_cases hbase : (scan.base.any fun base => !base.any id) = true
  · rw [if_pos hbase, if_pos hbase]
    exact .of_next (.refl _)
  rw [if_neg hbase, if_neg hbase]
  generalize (if scan.columns.isEmpty then some scan.baseKey else scan.narrow cache) = outcome
  generalize (if scan.columns.isEmpty then cache
    else cache.insertNarrow (evict rowGroup) scan.narrowQuery outcome) = narrowed
  have hgrows : limits.limit.Grows ((s, cache), stats)
      ((s, narrowed), stats.add (scan.narrowStats decoding cache)) :=
    ScanLimits.grows (Nat.le_add_right _ _) (Nat.le_add_right _ _)
  cases outcome with
  | none => exact .of_next hgrows
  | some selection =>
    exact (scanServed_follows scan.columns.isEmpty rowGroup
      (s, stats.add (scan.narrowStats decoding cache)) _).map (fun _ => ⟨Iff.rfl, Iff.rfl⟩)
        (fun _ => Iff.rfl) ⟨hgrows.reached, hgrows.exceeded⟩

/-- **The scan of a part within limits** follows the scan without. -/
theorem scanIntoWithin_follows (evict : ℕ → GroupCache.Eviction) (reader : PartReader) (s : σ) :
    limits.limit.Follows ((s, reader.cache), .zero)
      (scanIntoWithin P sink request limits decoding evict reader s)
      (scanIntoWithin P sink request .none (decoding.sized limits.rows) evict reader s) := by
  rw [scanIntoWithin, scanIntoWithin]
  split
  case isTrue => exact .of_next (.refl _)
  case isFalse =>
    cases definitiveColumns reader.part.metadataKeys reader.part.parsedKeys request.exactFields with
    | none => exact .of_next (.refl _)
    | some columns =>
      exact .steps (fun state rowGroup => scanGroupWithin_follows evict columns state rowGroup) _ _

/-! ### One byte for a batch -/

/-- Every decode is one batch of one byte. -/
def oneByte (σ : Type*) : Decoding σ where
  decoded _ _ _ _ _ rows := [(rows, 1)]
  replayed _ _ rows := [(rows, 1)]
  entryBytes _ _ := 1
  narrowBytes _ _ := 1
  flatten_decoded _ _ _ _ _ _ := List.flatten_singleton
  flatten_replayed _ _ _ := List.flatten_singleton

/-- Without a cache a scan that is charged nothing offers nothing. -/
theorem scanGroupWithin_charged {evict : ℕ → GroupCache.Eviction} {columns : List DefinitiveColumn}
    {state state' : (σ × GroupCache) × ScanStats} {rowGroup : ℕ}
    (hcache : state.1.2.enabled = false)
    (h : scanGroupWithin P sink request part .none (oneByte σ) evict columns state rowGroup
      = .ok (.next state')) :
    state'.1.2.enabled = false ∧ (0 < state'.2.scannedBytes ∨ state'.1.1 = state.1.1) := by
  obtain ⟨⟨s, cache⟩, stats⟩ := state
  rw [scanGroupWithin] at h
  split at h
  · cases h
    exact ⟨hcache, .inr rfl⟩
  dsimp only at h
  generalize groupScan P request part columns rowGroup = scan at h
  split at h
  · cases h
    exact ⟨hcache, .inr rfl⟩
  generalize (if scan.columns.isEmpty then some scan.baseKey else scan.narrow cache) = outcome at h
  have hnarrowed : (if scan.columns.isEmpty then cache
      else cache.insertNarrow (evict rowGroup) scan.narrowQuery outcome) = cache := by
    split
    · rfl
    · rw [GroupCache.insertNarrow, hcache]
      rfl
  rw [hnarrowed] at h
  cases outcome with
  | none =>
    cases h
    exact ⟨hcache, .inr rfl⟩
  | some selection =>
    dsimp only at h
    have hserved : scan.served cache selection = none := by
      rw [GroupScan.served, hcache]
      rfl
    have hfilled : (scan.decode (evict rowGroup) request.window.isNone cache selection).2 = cache := by
      rw [GroupScan.decode, hserved]
      dsimp only
      split
      · rw [GroupCache.insert, hcache]
        rfl
      · rfl
    rw [hfilled] at h
    generalize stats.add (scan.narrowStats (oneByte σ) cache) = stats at h
    rcases hrun : scanServed P sink request part .none scan.columns.isEmpty rowGroup (s, stats)
      (scan.serve (oneByte σ) cache ScanLimits.none.rows s stats selection) with e | b | b <;>
      rw [hrun] at h <;> cases h
    refine ⟨hcache, .inl ?_⟩
    rw [GroupScan.serve, hcache] at hrun
    change steps (scanBatch P sink request part .none scan.columns.isEmpty rowGroup)
      (inDirection request.forward [(selectRows selection (scan.group.map Cells.wide), 1)]) (s, stats)
        = .ok (.next b) at hrun
    have hone : inDirection request.forward [(selectRows selection (scan.group.map Cells.wide), 1)]
        = [(selectRows selection (scan.group.map Cells.wide), 1)] := by
      cases request.forward <;> rfl
    rw [hone, steps, scanBatch, bytesExceeded_none, if_neg Bool.false_ne_true] at hrun
    obtain ⟨step, hrows, hlast⟩ := Runs.exists_of_bind hrun
    cases step with
    | stop b' => cases hlast
    | next b' =>
      cases hlast
      have hgrows := (@scanRows_follows P σ sink request part ⟨none, some 0⟩ none
        scan.columns.isEmpty rowGroup (s, stats.charge 1) _).grows b hrows
      have hcharged : decide (0 < b.2.scannedBytes) = true :=
        hgrows.exceeded (decide_eq_true (Nat.succ_pos stats.scannedBytes))
      exact of_decide_eq_true hcharged

/-- So a part whose rows change the sink is charged something. -/
theorem scanIntoWithin_charged {evict : ℕ → GroupCache.Eviction} {reader : PartReader} {s : σ}
    {state : (σ × GroupCache) × ScanStats} (hcache : reader.cache.enabled = false)
    (h : scanIntoWithin P sink request .none (oneByte σ) evict reader s = .ok (.next state)) :
    0 < state.2.scannedBytes ∨ state.1.1 = s := by
  rw [scanIntoWithin] at h
  split at h
  · cases h
    exact .inr rfl
  split at h
  · cases h
    exact .inr rfl
  next columns _ =>
    have hkept := Runs.steps_invariant
      (fun state : (σ × GroupCache) × ScanStats => state.1.2.enabled = false ∧
        (0 < state.2.scannedBytes ∨ state.1.1 = s)) (fun b rowGroup b' hb hstep => by
        obtain ⟨hdisabled, hcharged⟩ := scanGroupWithin_charged hb.1 hstep
        refine ⟨hdisabled, ?_⟩
        rcases hb.2 with hpos | hsame
        · have hgrows := (@scanGroupWithin_follows P σ sink request reader.part (oneByte σ)
            ⟨none, some 0⟩ evict columns b rowGroup).grows b' hstep
          have hcharged : decide (0 < b'.2.scannedBytes) = true :=
            hgrows.exceeded (decide_eq_true hpos)
          exact .inl (of_decide_eq_true hcharged)
        · exact hcharged.imp_right fun heq => heq.trans hsame) ⟨hcache, .inr rfl⟩ h
    exact hkept.2

end

end Part

end Obsy
