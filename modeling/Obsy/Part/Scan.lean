import Mathlib.Data.List.Perm.Basic
import Obsy.Part.Reader
import Obsy.Runs.Selected

/-!
# What a scan offers

No bound, page, window, column or cached row hides a row that a query accepts.

* `definitiveColumns_satisfied`: the columns answer a predicate as the pipeline does.
* `baseSelection_keeps`: pages and windows leave the rows of a query in.
* `GroupScan.rows_spec`: the rows a scan reads of a row group, with any sound cache.
* `scanGroup_spec`, `scanInto_spec`: what the sink is offered.
-/

namespace Obsy

namespace Part

open Logql (ExactFieldPredicate LineFilter)

variable {P : Platform} {part : LogPart} {groups : List (List ParsedRow)}

/-! ### Columns -/

theorem keyIndex_eq_none {keys : List String} {name : String} :
    keyIndex keys name = none ↔ name ∉ keys := by
  rw [keyIndex, List.findIdx?_eq_none_iff]
  constructor
  · intro h hmem
    simpa using h name hmem
  · intro h key hkey
    have : key ≠ name := fun heq => h (heq ▸ hkey)
    simpa using this

/-- The cell of a key in its column. -/
theorem cellAt_map {keys : List String} {name : String} {key : ℕ}
    (h : keyIndex keys name = some key) (value : String → Option String) :
    cellAt (keys.map value) (some key) = value name := by
  obtain ⟨hlt, heq, -⟩ := List.findIdx?_eq_some_iff_getElem.1 h
  have hname : keys[key] = name := by simpa using heq
  rw [cellAt, Option.bind_some, List.getElem?_map, List.getElem?_eq_getElem hlt, hname]
  rfl

def LogPart.cellsOf (P : Platform) (part : LogPart) (r : ParsedRow) : Cells :=
  rowCells P.text part.metadataKeys part.parsedKeys r.1 r.2

theorem cellAt_metadata {r : ParsedRow} {name : String} {key : ℕ}
    (h : keyIndex part.metadataKeys name = some key) :
    cellAt (part.cellsOf P r).metadata (some key) = r.1.structuredMetadata.lookup name :=
  cellAt_map h _

theorem cellAt_parsed {r : ParsedRow} {name : String} {key : ℕ}
    (h : keyIndex part.parsedKeys name = some key) :
    cellAt (part.cellsOf P r).parsed (some key) = r.2.bind fun fields => fields.lookup name :=
  cellAt_map h _

/-- A metadata key that a row carries has a column, if every key has one. -/
theorem Layout.metadata_mem (h : Layout P part groups) {r : ParsedRow} (hr : r ∈ groups.flatten)
    {name value : String} (hl : r.1.structuredMetadata.lookup name = some value)
    (hroom : part.metadataKeys.length < maxMetadataColumns) : name ∈ part.metadataKeys :=
  h.metadataComplete hroom r hr _ (mem_of_lookup hl)

/-- The columns of a row on which the predicates hold satisfy them, and none of them is proved
absent. -/
theorem definitiveColumns_satisfied (h : Layout P part groups) {r : ParsedRow}
    (hr : r ∈ groups.flatten) {predicates : List ExactFieldPredicate}
    (hp : ∀ p ∈ predicates, p.HoldsOn P.parseJson r.1.structuredMetadata r.1.line) :
    ∃ columns, definitiveColumns part.metadataKeys part.parsedKeys predicates = some columns ∧
      ∀ column ∈ columns, column.satisfied (part.cellsOf P r) = true := by
  induction predicates with
  | nil => exact ⟨[], rfl, by simp⟩
  | cons p predicates ih =>
    obtain ⟨columns, hcolumns, hsat⟩ := ih fun q hq => hp q (List.mem_cons_of_mem _ hq)
    have hfirst := hp p List.mem_cons_self
    simp only [definitiveColumns]
    split
    case isTrue => exact ⟨columns, hcolumns, hsat⟩
    case isFalse hskip =>
      simp only [Bool.or_eq_true, beq_iff_eq, not_or, Bool.not_eq_true] at hskip
      obtain ⟨actual, hsupplied, hform⟩ := hfirst hskip.2
      rw [hskip.1, if_neg Bool.false_ne_true] at hform
      subst hform
      have hcons : ∀ column : DefinitiveColumn, column.satisfied (part.cellsOf P r) = true →
          ∃ columns', (definitiveColumns part.metadataKeys part.parsedKeys predicates).map
            (column :: ·) = some columns' ∧
            ∀ column ∈ columns', column.satisfied (part.cellsOf P r) = true := by
        intro column hcolumn
        exact ⟨column :: columns, by rw [hcolumns]; rfl,
          List.forall_mem_cons.2 ⟨hcolumn, hsat⟩⟩
      split
      case isTrue hpushed =>
        have hl : r.1.structuredMetadata.lookup p.name = some p.value := by
          rcases hsupplied with hl | ⟨hseen, -⟩
          · exact hl
          · rw [hseen] at hpushed
            cases hpushed
        cases hk : keyIndex part.metadataKeys p.name with
        | some key =>
          refine hcons _ ?_
          rw [DefinitiveColumn.satisfied, cellAt_metadata hk, hl]
          simp
        | none =>
          dsimp only
          split
          case isTrue hroom =>
            have := h.metadata_mem hr hl (by simpa using hroom)
            exact absurd this (keyIndex_eq_none.1 hk)
          case isFalse => exact ⟨columns, hcolumns, hsat⟩
      case isFalse =>
        split
        case isTrue => exact ⟨columns, hcolumns, hsat⟩
        case isFalse hjson =>
          split
          case isTrue => exact ⟨columns, hcolumns, hsat⟩
          case isFalse hdecidable =>
            rw [Bool.not_eq_true, Bool.not_eq_false'] at hdecidable
            simp only [Bool.and_eq_true, Bool.or_eq_true, decide_eq_true_eq] at hdecidable
            have hsm : ∀ value, r.1.structuredMetadata.lookup p.name = some value →
                ∃ key, keyIndex part.metadataKeys p.name = some key := by
              intro value hl
              cases hk : keyIndex part.metadataKeys p.name with
              | some key => exact ⟨key, rfl⟩
              | none =>
                have hroom := hdecidable.1.resolve_left (by rw [hk]; simp)
                exact absurd (h.metadata_mem hr hl hroom) (keyIndex_eq_none.1 hk)
            rcases hsupplied with hl | ⟨-, hnone, ⟨fields, hx, hl⟩ | ⟨hnot, -⟩⟩
            · -- the metadata has the value
              obtain ⟨key, hk⟩ := hsm _ hl
              rw [hk]
              refine hcons _ ?_
              rw [DefinitiveColumn.satisfied, cellAt_metadata hk, hl]
              simp
            · -- the line has the value, and the metadata does not name the field
              obtain ⟨key, hk⟩ : ∃ key, keyIndex part.parsedKeys p.name = some key := by
                cases hk : keyIndex part.parsedKeys p.name with
                | some key => exact ⟨key, rfl⟩
                | none =>
                  have hroom := hdecidable.2.resolve_left (by rw [hk]; simp)
                  have := h.parsedComplete hroom r hr fields hx _ (mem_of_lookup hl)
                  exact absurd this (keyIndex_eq_none.1 hk)
              have hfields : r.2 = some fields := by
                rcases h.fields r hr with hf | ⟨hnil, -⟩
                · rw [hf, hx]
                · rw [hnil] at hk
                  cases hk
              rw [hk, Option.isNone_some, Bool.and_false, if_neg Bool.false_ne_true]
              refine hcons _ ?_
              have hmetadata : cellAt (part.cellsOf P r).metadata
                  (keyIndex part.metadataKeys p.name) = none := by
                cases hk' : keyIndex part.metadataKeys p.name with
                | none => rfl
                | some key' => rw [cellAt_metadata hk', hnone]
              rw [DefinitiveColumn.satisfied, hmetadata, if_pos rfl, cellAt_parsed hk, hfields]
              simp [hl]
            · rw [hnot] at hjson
              simp at hjson

/-! ### Pages and windows -/

/-- Every row is on a page. -/
theorem exists_page {pages : List Page} {rows row : ℕ} (hrow : row < rows)
    (hfirst : (pages[0]?).any fun page => page.firstRowIndex ≤ row) :
    ∃ i page, pages[i]? = some page ∧ page.firstRowIndex ≤ row ∧ row < pageEnd pages rows i := by
  induction pages with
  | nil => cases hfirst
  | cons page pages ih =>
    have hle : page.firstRowIndex ≤ row := by simpa using hfirst
    by_cases hnext : (pages[0]?).any fun page => page.firstRowIndex ≤ row
    · obtain ⟨i, found, hget, hstart, hend⟩ := ih hnext
      exact ⟨i + 1, found, by simpa using hget, hstart, by simpa [pageEnd] using hend⟩
    · refine ⟨0, page, rfl, hle, ?_⟩
      cases pages with
      | nil => exact hrow
      | cons next pages => simpa [pageEnd] using hnext

theorem length_timePageSelection {timestamps : List Nanos} {range : QueryTimeRange}
    {selection : Selection} (h : timePageSelection P timestamps range = some selection) :
    selection.length = timestamps.length := by
  obtain ⟨pages, -, rfl⟩ := Option.map_eq_some_iff.1 h
  rw [List.length_map, List.length_range]

/-- The pages leave the rows of the range in. -/
theorem timePageSelection_keeps {timestamps : List Nanos} {range : QueryTimeRange}
    {selection : Selection} (h : timePageSelection P timestamps range = some selection) {row : ℕ}
    {ts : Nanos} (hrow : timestamps[row]? = some ts) (hts : range.contains ts = true) :
    selection[row]? = some true := by
  obtain ⟨pages, hpages, rfl⟩ := Option.map_eq_some_iff.1 h
  have hlt : row < timestamps.length := (List.getElem?_eq_some_iff.1 hrow).1
  have hne : timestamps ≠ [] := List.ne_nil_of_mem (List.mem_of_getElem? hrow)
  have hfirst := P.pageIndex_first timestamps pages hpages hne
  have hzero : (pages[0]?).any fun page => page.firstRowIndex ≤ row := by
    obtain ⟨page, hpage, hzero⟩ := Option.map_eq_some_iff.1 hfirst
    simp [hpage, hzero]
  obtain ⟨i, page, hget, hstart, hend⟩ := exists_page hlt hzero
  rw [List.getElem?_map, List.getElem?_range hlt, Option.map_some]
  congr 1
  refine List.any_eq_true.2 ⟨(page, i), List.mem_zipIdx_iff_getElem?.2 hget, ?_⟩
  have hbounds : (page.bounds.all fun b => range.overlaps b.1 b.2) = true := by
    cases hb : page.bounds with
    | none => rfl
    | some bounds =>
      obtain ⟨hlo, hhi⟩ := P.pageIndex_bounds timestamps pages hpages i page bounds.1 bounds.2
        hget hb row ts hstart hend hrow
      exact QueryTimeRange.overlaps_of_contains hlo hhi hts
  simp [hstart, hend, hbounds]

theorem windowRowSelection_keeps {mask : List Bool} {rows row : ℕ} (hrow : row < rows)
    (h : mask[row / bloomWindowRows]? = some true) :
    (windowRowSelection mask rows)[row]? = some true := by
  rw [windowRowSelection, List.getElem?_map, List.getElem?_range hrow, Option.map_some,
    List.getD_eq_getElem?_getD, h]
  rfl

/-- The base selection has a bit for every row. -/
theorem length_baseSelection {timestamps : List Nanos} {blooms : Option GroupBlooms}
    {exactFields : List ExactFieldPredicate} {range : QueryTimeRange} {selection : Selection}
    (h : baseSelection P timestamps blooms exactFields range = some selection) :
    selection.length = timestamps.length := by
  rw [baseSelection] at h
  cases htime : timePageSelection P timestamps range with
  | some time =>
    have hlen := length_timePageSelection htime
    rw [htime] at h
    cases hmask : blooms.bind fun b => exactFieldWindowMask b.exactFields exactFields with
    | some mask =>
      rw [hmask] at h
      obtain rfl := Option.some.inj h
      simp [bothSelections, windowRowSelection, hlen]
    | none =>
      rw [hmask] at h
      obtain rfl := Option.some.inj h
      exact hlen
  | none =>
    rw [htime] at h
    cases hmask : blooms.bind fun b => exactFieldWindowMask b.exactFields exactFields with
    | some mask =>
      rw [hmask] at h
      obtain rfl := Option.some.inj h
      simp [windowRowSelection]
    | none =>
      rw [hmask] at h
      cases h

/-- The base selection leaves in the rows of the range whose windows are not masked out. -/
theorem baseSelection_keeps {timestamps : List Nanos} {blooms : Option GroupBlooms}
    {exactFields : List ExactFieldPredicate} {range : QueryTimeRange} {selection : Selection}
    (h : baseSelection P timestamps blooms exactFields range = some selection) {row : ℕ}
    {ts : Nanos} (hrow : timestamps[row]? = some ts) (hts : range.contains ts = true)
    (hmask : ∀ b, blooms = some b → ∀ mask, exactFieldWindowMask b.exactFields exactFields =
      some mask → mask[row / bloomWindowRows]? = some true) :
    selection[row]? = some true := by
  have hlt : row < timestamps.length := (List.getElem?_eq_some_iff.1 hrow).1
  have hwindow : ∀ mask, (blooms.bind fun b => exactFieldWindowMask b.exactFields exactFields)
      = some mask → (windowRowSelection mask timestamps.length)[row]? = some true := by
    intro mask hm
    obtain ⟨b, hb, hm⟩ := Option.bind_eq_some_iff.1 hm
    exact windowRowSelection_keeps hlt (hmask b hb mask hm)
  rw [baseSelection] at h
  cases htime : timePageSelection P timestamps range with
  | some time =>
    have hkeep := timePageSelection_keeps htime hrow hts
    rw [htime] at h
    cases hm : blooms.bind fun b => exactFieldWindowMask b.exactFields exactFields with
    | some mask =>
      rw [hm] at h
      obtain rfl := Option.some.inj h
      rw [bothSelections, List.getElem?_zipWith, hkeep, hwindow mask hm]
      rfl
    | none =>
      rw [hm] at h
      obtain rfl := Option.some.inj h
      exact hkeep
  | none =>
    rw [htime] at h
    cases hm : blooms.bind fun b => exactFieldWindowMask b.exactFields exactFields with
    | some mask =>
      rw [hm] at h
      obtain rfl := Option.some.inj h
      exact hwindow mask hm
    | none =>
      rw [hm] at h
      cases h

/-! ### The rows of a row group -/

theorem DefinitiveColumn.satisfied_wide {column : DefinitiveColumn} (h : column.pfKey = none)
    (cells : Cells) : column.satisfied cells.wide = column.satisfied cells := by
  rw [satisfied, satisfied, h]
  rfl

/-- Columns of the metadata are answered by cached rows as by the file. -/
theorem narrowOutcome_wide {query : NarrowQuery} (h : ∀ column ∈ query.columns,
    column.pfKey = none) (group : List Cells) :
    narrowOutcome query (group.map Cells.wide) = narrowOutcome query group := by
  have hsel : narrowSelection query (group.map Cells.wide) = narrowSelection query group := by
    rw [narrowSelection, narrowSelection, List.zip_map_left, List.map_map]
    refine List.map_congr_left fun r _ => ?_
    have hcolumns : query.columns.all (·.satisfied r.1.wide) = query.columns.all (·.satisfied r.1) := by
      rw [Bool.eq_iff_iff, List.all_eq_true, List.all_eq_true]
      refine forall₂_congr fun column hcolumn => ?_
      rw [DefinitiveColumn.satisfied_wide (h column hcolumn)]
    change (r.2 && query.time.contains r.1.timestampNs && query.columns.all (·.satisfied r.1.wide))
      = (r.2 && query.time.contains r.1.timestampNs && query.columns.all (·.satisfied r.1))
    rw [hcolumns]
  rw [narrowOutcome, narrowOutcome, hsel]

theorem length_narrowSelection {query : NarrowQuery} {group : List Cells}
    (h : query.base.length = group.length) : (narrowSelection query group).length = group.length := by
  rw [narrowSelection, List.length_map, List.length_zip, h, Nat.min_self]

namespace GroupScan

/-- A scan of the row group of that ordinal of a part. -/
structure Of (scan : GroupScan) (part : LogPart) : Prop where
  group : part.data[scan.rowGroup]? = some scan.group
  base : ∀ base, scan.base = some base → base.length = scan.group.length

variable {scan : GroupScan} {cache : GroupCache}

theorem Of.length_baseKey (h : scan.Of part) : scan.baseKey.length = scan.group.length := by
  rw [baseKey]
  cases hb : scan.base with
  | none => exact List.length_replicate ..
  | some base => exact h.base base hb

/-- A cached row group is the whole of it. -/
theorem Of.cached (h : scan.Of part) (hcache : cache.Sound part) {rows : List Cells}
    (hrows : scan.cached cache = some rows) : rows = scan.group.map Cells.wide := by
  rw [GroupScan.cached] at hrows
  split at hrows
  case isFalse => cases hrows
  case isTrue =>
    have := hcache.get hrows h.group
    rw [this, ← List.length_map Cells.wide, selectRows_allRows]

/-- The narrow pass is that of the file, wherever it is taken from. -/
theorem Of.narrow_eq (h : scan.Of part) (hcache : cache.Sound part) :
    scan.narrow cache = narrowOutcome scan.narrowQuery scan.group := by
  rw [narrow]
  split
  case h_1 outcome hout =>
    split at hout
    case isTrue => exact hcache.getNarrow hout h.group
    case isFalse => cases hout
  case h_2 =>
    split
    case h_1 rows hrows =>
      split
      case isTrue hpf =>
        rw [h.cached hcache hrows]
        refine narrowOutcome_wide (fun column hcolumn => ?_) _
        simpa using List.all_eq_true.1 hpf column hcolumn
      case isFalse => rfl
    case h_2 => rfl

/-- Rows served from the cache are those of the file. -/
theorem Of.served (h : scan.Of part) (hcache : cache.Sound part) {selection : Selection}
    (hlen : selection.length = scan.group.length) {rows : List Cells}
    (hrows : scan.served cache selection = some rows) :
    rows = selectRows selection (scan.group.map Cells.wide) := by
  rw [GroupScan.served] at hrows
  split at hrows
  case isTrue => cases hrows
  case isFalse =>
    split at hrows
    case h_1 all hall =>
      rw [← Option.some.inj hrows, h.cached hcache hall]
    case h_2 =>
      split at hrows
      case h_1 found hfound =>
        rw [← Option.some.inj hrows]
        exact hcache.get hfound h.group
      case h_2 =>
        split at hrows
        case isTrue => cases hrows
        case isFalse hwithin =>
          obtain ⟨broad, hbroad, rfl⟩ := Option.map_eq_some_iff.1 hrows
          rw [hcache.get hbroad h.group]
          have hboth : bothSelections selection scan.baseKey = selection := by
            simp only [Bool.or_eq_true, bne_iff_ne, ne_eq, not_or, not_not] at hwithin
            exact hwithin.2
          exact selectRows_within (hlen.trans h.length_baseKey.symm)
            (by rw [h.length_baseKey, List.length_map]) hboth

/-- A row of the base selection that the range and the columns admit. -/
def Admitted (scan : GroupScan) (i : ℕ) (cells : Cells) : Prop :=
  scan.baseKey[i]? = some true ∧ scan.range.contains cells.timestampNs = true ∧
    ∀ column ∈ scan.columns, column.satisfied cells = true

theorem narrowSelection_keeps {i : ℕ} {cells : Cells}
    (hcells : scan.group[i]? = some cells) (hadmitted : scan.Admitted i cells) :
    (narrowSelection scan.narrowQuery scan.group)[i]? = some true := by
  obtain ⟨hbase, hrange, hcolumns⟩ := hadmitted
  have hzip : (scan.group.zip scan.baseKey)[i]? = some (cells, true) :=
    List.getElem?_zip_eq_some.2 ⟨hcells, hbase⟩
  have hzip' : (scan.group.zip scan.narrowQuery.base)[i]? = some (cells, true) := hzip
  rw [narrowSelection, List.getElem?_map, hzip', Option.map_some]
  congr 1
  simp only [Bool.and_eq_true, List.all_eq_true]
  exact ⟨⟨trivial, hrange⟩, hcolumns⟩

/-- The rows of a selection, from the cache or from the file, and the cache after it. -/
theorem Of.decode (h : scan.Of part) (hcache : cache.Sound part) {selection : Selection}
    (hlen : selection.length = scan.group.length) (evict : GroupCache.Eviction)
    (fillCache : Bool) :
    (scan.decode evict fillCache cache selection).1
        = selectRows selection (scan.group.map Cells.wide) ∧
      (scan.decode evict fillCache cache selection).2.Sound part := by
  rw [GroupScan.decode]
  split
  case h_1 rows hrows => exact ⟨h.served hcache hlen hrows, hcache⟩
  case h_2 =>
    refine ⟨rfl, ?_⟩
    cases fillCache with
    | false => exact hcache
    | true => exact hcache.insert h.group rfl

/-- A scan reads rows of the row group, all of those its selection and columns admit among
them, and leaves the cache sound. -/
theorem Of.rows_spec (h : scan.Of part) (hcache : cache.Sound part)
    (evict : GroupCache.Eviction) (fillCache : Bool) :
    ∃ selection, (scan.rows evict fillCache cache).1
        = selectRows selection (scan.group.map Cells.wide) ∧
      (∀ i cells, scan.group[i]? = some cells → scan.Admitted i cells →
        selection[i]? = some true) ∧
      (scan.rows evict fillCache cache).2.Sound part := by
  rw [rows]
  split
  case isTrue hnone =>
    -- the base selection is empty
    refine ⟨[], by simp [selectRows], fun i cells _ hadmitted => ?_, hcache⟩
    obtain ⟨base, hbase, hany⟩ := (Option.any_eq_true _ _).1 hnone
    have hbit := hadmitted.1
    rw [baseKey, hbase, Option.getD_some] at hbit
    have : base.any id = true := List.any_eq_true.2 ⟨true, List.mem_of_getElem? hbit, rfl⟩
    rw [this] at hany
    cases hany
  case isFalse =>
    cases hempty : scan.columns.isEmpty with
    | true =>
      obtain ⟨hrows, hsound⟩ := h.decode hcache h.length_baseKey evict fillCache
      exact ⟨scan.baseKey, hrows, fun i cells _ hadmitted => hadmitted.1, hsound⟩
    | false =>
      have hnarrow := h.narrow_eq hcache
      have hcache' : (cache.insertNarrow evict scan.narrowQuery (scan.narrow cache)).Sound part :=
        hcache.insertNarrow h.group hnarrow
      simp only [Bool.false_eq_true, if_false]
      split
      case h_1 hout =>
        -- the narrow pass leaves nothing of the row group
        refine ⟨[], by simp [selectRows], fun i cells hcells hadmitted => ?_, hcache'⟩
        have hbit := narrowSelection_keeps hcells hadmitted
        rw [hnarrow, narrowOutcome] at hout
        have : (narrowSelection scan.narrowQuery scan.group).any id = true :=
          List.any_eq_true.2 ⟨true, List.mem_of_getElem? hbit, rfl⟩
        rw [if_pos this] at hout
        cases hout
      case h_2 selection hout =>
        rw [hnarrow, narrowOutcome] at hout
        split at hout
        case isFalse => cases hout
        case isTrue =>
          obtain rfl := Option.some.inj hout
          have hlen : (narrowSelection scan.narrowQuery scan.group).length = scan.group.length :=
            length_narrowSelection h.length_baseKey
          obtain ⟨hrows, hsound⟩ := h.decode hcache' hlen evict fillCache
          exact ⟨_, hrows, fun i cells hcells hadmitted =>
            narrowSelection_keeps hcells hadmitted, hsound⟩

end GroupScan

/-! ### One row group -/

variable {σ : Type*} (sink : RowSink σ) {request : ScanRequest}

def Row.entry (row : Row) : LogEntry := ⟨row.timestampNs, row.line, row.structuredMetadata⟩

/-- What becomes of a row a scan has read. -/
def offerRow (sink : RowSink σ) (request : ScanRequest) (s : σ) (row : Row) : Except String σ :=
  if beyondFrontier (sink.frontierNs s) request.forward row.timestampNs then .ok s
  else if !request.range.contains row.timestampNs then .ok s
  else if !request.lineFilters.all (fun filter => filter.matches row.line) then .ok s
  else sink.accept s row.entry

def rowsOf (groups : List (List ParsedRow)) (rowGroup : ℕ) : List Row :=
  (groups.getD rowGroup []).map Prod.fst

/-- A row that the exact fields and the range of a request admit. -/
def ScanRequest.Admits (P : Platform) (request : ScanRequest) (row : Row) : Prop :=
  request.range.contains row.timestampNs = true ∧
    ∀ p ∈ request.exactFields, p.HoldsOn P.parseJson row.structuredMetadata row.line

/-- A written row that was read back. -/
theorem scanRow_cells (h : Layout P part groups) {r : ParsedRow} (hr : r ∈ groups.flatten)
    (htenant : r.1.tenant = request.tenant) (rowGroup : ℕ) (s : σ) :
    scanRow P sink request part rowGroup s (part.cellsOf P r).wide = offerRow sink request s r.1 := by
  have hwide : (part.cellsOf P r).wide = rowCells P.text part.metadataKeys [] r.1 r.2 := rfl
  rw [hwide, scanRow, rebuild_columns P.text h.metadataSorted (h.canonical r hr), offerRow]
  simp only [rowCells, htenant, ne_eq, not_true_eq_false, if_false]
  rfl

theorem beyondFrontier_mono {frontier : Option Nanos} {forward : Bool} {lo hi ts : Nanos}
    (hlo : lo ≤ ts) (hhi : ts ≤ hi) (h : spanBeyondFrontier frontier forward lo hi = true) :
    beyondFrontier frontier forward ts = true := by
  cases frontier with
  | none => cases h
  | some frontier =>
    cases forward with
    | true =>
      have hle : frontier ≤ lo := by simpa [spanBeyondFrontier, beyondFrontier] using h
      simpa [beyondFrontier] using hle.trans hlo
    | false =>
      have hle : hi ≤ frontier := by simpa [spanBeyondFrontier, beyondFrontier] using h
      simpa [beyondFrontier] using hhi.trans hle

/-- Rows beyond the frontier leave the sink as it is. -/
theorem foldlM_offerRow_beyond {s : σ} {rows : List Row}
    (h : ∀ row ∈ rows, beyondFrontier (sink.frontierNs s) request.forward row.timestampNs = true) :
    rows.foldlM (offerRow sink request) s = .ok s := by
  induction rows with
  | nil => rfl
  | cons row rows ih =>
    have hrow : offerRow sink request s row = .ok s := by
      rw [offerRow, if_pos (h row List.mem_cons_self)]
    rw [List.foldlM_cons, hrow]
    exact ih fun row' hmem => h row' (List.mem_cons_of_mem _ hmem)

theorem mem_inDirection {α : Type*} {forward : Bool} {rows : List α} {row : α} :
    row ∈ inDirection forward rows ↔ row ∈ rows := by
  cases forward
  · exact List.mem_reverse
  · exact Iff.rfl

theorem map_inDirection {α β : Type*} (f : α → β) (forward : Bool) (rows : List α) :
    (inDirection forward rows).map f = inDirection forward (rows.map f) := by
  cases forward
  · exact List.map_reverse
  · rfl

theorem filter_inDirection {α : Type*} (p : α → Bool) (forward : Bool) (rows : List α) :
    (inDirection forward rows).filter p = inDirection forward (rows.filter p) := by
  cases forward
  · exact List.filter_reverse
  · rfl

/-- What a scan reads of a row group: some of its rows, every one of those it is to find among
them. -/
structure Kept (groups : List (List ParsedRow)) (wanted : Row → Bool) (rowGroup : ℕ)
    (kept : List Row) : Prop where
  sublist : kept.Sublist (rowsOf groups rowGroup)
  wanted : kept.filter wanted = (rowsOf groups rowGroup).filter wanted

/-- A scan of a row group of the tenant offers the rows it keeps of it. -/
theorem scanGroup_spec (h : Layout P part groups) {wanted : Row → Bool}
    (hwanted : ∀ row, wanted row = true → request.Admits P row)
    {columns : List DefinitiveColumn}
    (hcolumns : definitiveColumns part.metadataKeys part.parsedKeys request.exactFields
      = some columns) (evict : ℕ → GroupCache.Eviction) {rowGroup : ℕ} {group : List ParsedRow}
    (hgroup : groups[rowGroup]? = some group)
    (htenant : ∀ r ∈ group, r.1.tenant = request.tenant) {cache : GroupCache}
    (hcache : cache.Sound part) (s : σ) :
    ∃ kept cache', Kept groups wanted rowGroup kept ∧ cache'.Sound part ∧
      scanGroup P sink request evict part columns (s, cache) rowGroup
        = ((inDirection request.forward kept).foldlM (offerRow sink request) s).map (·, cache') := by
  have hflat : ∀ r ∈ group, r ∈ groups.flatten := fun r hr =>
    List.mem_flatten.2 ⟨group, List.mem_of_getElem? hgroup, hr⟩
  have hrows : rowsOf groups rowGroup = group.map Prod.fst := by
    rw [rowsOf, List.getD_eq_getElem?_getD, hgroup, Option.getD_some]
  have hmin : part.info.rowGroupMinTs.getD rowGroup Nanos.zero = minTs group := by
    rw [h.rowGroupMinTs, List.getD_eq_getElem?_getD, List.getElem?_map, hgroup]
    rfl
  have hmax : part.info.rowGroupMaxTs.getD rowGroup Nanos.zero = maxTs group := by
    rw [h.rowGroupMaxTs, List.getD_eq_getElem?_getD, List.getElem?_map, hgroup]
    rfl
  rw [scanGroup, hmin, hmax]
  dsimp only
  split
  case isTrue hbeyond =>
    -- the frontier leaves the whole row group out
    refine ⟨rowsOf groups rowGroup, cache, ⟨.refl _, rfl⟩, hcache, ?_⟩
    rw [foldlM_offerRow_beyond]
    · rfl
    · intro row hrow
      rw [mem_inDirection, hrows] at hrow
      obtain ⟨r, hr, rfl⟩ := List.mem_map.1 hrow
      exact beyondFrontier_mono (minTs_le hr) (le_maxTs hr) hbeyond
  case isFalse =>
    have hdata : part.data[rowGroup]? = some (group.map (part.cellsOf P)) := by
      rw [h.data, List.getElem?_map, hgroup]
      rfl
    rw [List.getD_eq_getElem?_getD, hdata, Option.getD_some]
    set base := baseSelection P ((group.map (part.cellsOf P)).map Cells.timestampNs)
      (if request.exactFields.isEmpty then none else part.index[rowGroup]?) request.exactFields
      request.range with hbase
    have hof : GroupScan.Of ⟨rowGroup, group.map (part.cellsOf P), base, columns, request.range⟩
        part := ⟨hdata, fun b hb => by
          have := length_baseSelection (hbase.symm.trans hb)
          simpa using this⟩
    obtain ⟨selection, hread, hkeeps, hsound⟩ :=
      hof.rows_spec hcache (evict rowGroup) request.window.isNone
    refine ⟨selectRows selection (rowsOf groups rowGroup), _,
      ⟨selectRows_sublist _ _, filter_selectRows fun i row hrow hw => ?_⟩, hsound, ?_⟩
    · -- a row to be found is admitted by the base selection and by the columns
      obtain ⟨r, hr, rfl⟩ : ∃ r, group[i]? = some r ∧ r.1 = row := by
        rw [hrows, List.getElem?_map] at hrow
        exact Option.map_eq_some_iff.1 hrow
      obtain ⟨hrange, hholds⟩ := hwanted _ hw
      have hr' := hflat r (List.mem_of_getElem? hr)
      have hcells : (group.map (part.cellsOf P))[i]? = some (part.cellsOf P r) := by
        rw [List.getElem?_map, hr]
        rfl
      refine hkeeps i _ hcells ⟨?_, hrange, fun column hcolumn => ?_⟩
      · rw [GroupScan.baseKey]
        cases hb : base with
        | none =>
          have hlt := (List.getElem?_eq_some_iff.1 hcells).1
          simp only [Option.getD_none, allRows, List.getElem?_replicate, hlt, if_true]
        | some selected =>
          have hts : ((group.map (part.cellsOf P)).map Cells.timestampNs)[i]?
              = some r.1.timestampNs := by
            rw [List.getElem?_map, hcells]
            rfl
          refine baseSelection_keeps (hbase.symm.trans hb) hts hrange ?_
          intro blooms hblooms mask hmask
          split at hblooms
          case isTrue => cases hblooms
          case isFalse =>
            have hencode : groupBlooms P group = some blooms := by
              have := Runs.getElem?_of_mapM_some h.index rowGroup
              rw [hgroup, Option.bind_some] at this
              rw [this, hblooms]
            exact mem_exactFieldWindowMask P.exactSizing_pos hencode hr (h.fieldsComplete hr')
              hholds hmask
      · obtain ⟨columns', hcolumns', hsat⟩ := definitiveColumns_satisfied h hr' hholds
        rw [hcolumns] at hcolumns'
        exact hsat column (Option.some.inj hcolumns' ▸ hcolumn)
    · have hfold : ∀ (rows : List ParsedRow), (∀ r ∈ rows, r ∈ group) → ∀ s : σ,
          (rows.map fun r => (part.cellsOf P r).wide).foldlM
              (scanRow P sink request part rowGroup) s
            = (rows.map Prod.fst).foldlM (offerRow sink request) s := by
        intro rows hsub s
        induction rows generalizing s with
        | nil => rfl
        | cons r rows ih =>
          have hr : r ∈ group := hsub r List.mem_cons_self
          rw [List.map_cons, List.map_cons, List.foldlM_cons, List.foldlM_cons,
            scanRow_cells sink h (hflat r hr) (htenant r hr)]
          congr 1
          funext s'
          exact ih (fun r' hmem => hsub r' (List.mem_cons_of_mem _ hmem)) s'
      have hmap : selectRows selection ((group.map (part.cellsOf P)).map Cells.wide)
          = (selectRows selection group).map fun r => (part.cellsOf P r).wide := by
        rw [map_selectRows, List.map_map]
        rfl
      rw [hread, hmap, ← map_inDirection, hfold, map_inDirection, map_selectRows, hrows]
      intro r hr
      exact (selectRows_sublist selection group).mem (mem_inDirection.1 hr)

/-- A scan of row groups of the tenant offers what it keeps of each. -/
theorem scanGroups_spec (h : Layout P part groups) {wanted : Row → Bool}
    (hwanted : ∀ row, wanted row = true → request.Admits P row)
    {columns : List DefinitiveColumn}
    (hcolumns : definitiveColumns part.metadataKeys part.parsedKeys request.exactFields
      = some columns) (evict : ℕ → GroupCache.Eviction) {rowGroups : List ℕ}
    (hgroups : ∀ g ∈ rowGroups, ∃ group, groups[g]? = some group ∧
      ∀ r ∈ group, r.1.tenant = request.tenant) {cache : GroupCache}
    (hcache : cache.Sound part) (s : σ) :
    ∃ kepts cache', List.Forall₂ (Kept groups wanted) rowGroups kepts ∧ cache'.Sound part ∧
      rowGroups.foldlM (scanGroup P sink request evict part columns) (s, cache)
        = ((kepts.flatMap (inDirection request.forward)).foldlM (offerRow sink request) s).map
          (·, cache') := by
  induction rowGroups generalizing s cache with
  | nil => exact ⟨[], cache, .nil, hcache, rfl⟩
  | cons g rowGroups ih =>
    have hlater := fun g' hg' => hgroups g' (List.mem_cons_of_mem _ hg')
    obtain ⟨group, hget, htenant⟩ := hgroups g List.mem_cons_self
    obtain ⟨kept, cache₁, hkept, hsound, hscan⟩ :=
      scanGroup_spec sink h hwanted hcolumns evict hget htenant hcache s
    rw [List.foldlM_cons, hscan]
    cases hfold : (inDirection request.forward kept).foldlM (offerRow sink request) s with
    | error e =>
      -- the sink refused a row, and the rest is not read
      obtain ⟨kepts, -, hkepts, -⟩ := ih hlater hsound s
      refine ⟨kept :: kepts, cache₁, .cons hkept hkepts, hsound, ?_⟩
      rw [List.flatMap_cons, List.foldlM_append, hfold]
      rfl
    | ok s' =>
      obtain ⟨kepts, cache', hkepts, hsound', hrest⟩ := ih hlater hsound s'
      refine ⟨kept :: kepts, cache', .cons hkept hkepts, hsound', ?_⟩
      rw [List.flatMap_cons, List.foldlM_append, hfold]
      exact hrest

theorem exists_of_kepts {wanted : Row → Bool} {rowGroups : List ℕ} {kepts : List (List Row)}
    (h : List.Forall₂ (Kept groups wanted) rowGroups kepts) {kept : List Row}
    (hkept : kept ∈ kepts) : ∃ g ∈ rowGroups, Kept groups wanted g kept := by
  induction h with
  | nil => cases hkept
  | cons hfirst _ ih =>
    rcases List.mem_cons.1 hkept with rfl | hkept
    · exact ⟨_, List.mem_cons_self, hfirst⟩
    · obtain ⟨g, hg, hof⟩ := ih hkept
      exact ⟨g, List.mem_cons_of_mem _ hg, hof⟩

/-- What is to be found of row groups is found in their order. -/
theorem filter_kepts {wanted : Row → Bool} {rowGroups : List ℕ} {kepts : List (List Row)}
    (h : List.Forall₂ (Kept groups wanted) rowGroups kepts) (forward : Bool) :
    (kepts.flatMap (inDirection forward)).filter wanted
      = rowGroups.flatMap fun g => inDirection forward ((rowsOf groups g).filter wanted) := by
  induction h with
  | nil => rfl
  | cons hkept _ ih =>
    rw [List.flatMap_cons, List.flatMap_cons, List.filter_append, filter_inDirection,
      hkept.wanted, ih]

/-! ### Row groups -/

/-- A line has the trigrams of every text the filters of the lines are asked for. -/
def ScanRequest.LiteralsIn (P : Platform) (request : ScanRequest) (row : Row) : Prop :=
  ∀ literal ∈ pruneLiterals P request.lineFilters,
    trigrams (P.textLower literal.toList) ⊆ trigrams (row.line.toList.flatMap P.charLower)

/-- The filter of the lines has the trigrams of each. -/
theorem lineBloom_contains {rows : List ParsedRow} {blooms : GroupBlooms}
    (h : groupBlooms P rows = some blooms) {r : ParsedRow} (hr : r ∈ rows) {trigram : List UInt8}
    (ht : trigram ∈ trigrams (r.1.line.toList.flatMap P.charLower)) :
    blooms.line.contains trigram = true := by
  obtain ⟨windows, -, rfl⟩ := Option.map_eq_some_iff.1 h
  refine contains_foldl_insert (P.lineSizing_pos _) (List.length_replicate ..) (.inr ?_)
  rw [List.mem_dedup, List.mem_flatMap]
  exact ⟨r.1.line, List.mem_map_of_mem hr, ht⟩

/-- Whether the filter of the lines of a row group admits the texts that are asked for. -/
def trigramsAdmit (P : Platform) (lineFilters : List LineFilter) (part : LogPart)
    (rowGroup : ℕ) : Bool :=
  (part.index[rowGroup]?).all fun blooms =>
    (pruneLiterals P lineFilters).all (mightContainSubstr P blooms.line)

theorem groupBlooms_of_index (h : Layout P part groups) {rowGroup : ℕ} {group : List ParsedRow}
    (hgroup : groups[rowGroup]? = some group) {blooms : GroupBlooms}
    (hblooms : part.index[rowGroup]? = some blooms) : groupBlooms P group = some blooms := by
  have hencode := Runs.getElem?_of_mapM_some h.index rowGroup
  rwa [hgroup, Option.bind_some, hblooms] at hencode

/-- The trigrams admit a row group with a line that has them. -/
theorem trigramsAdmit_of_row (h : Layout P part groups) {rowGroup : ℕ} {group : List ParsedRow}
    (hgroup : groups[rowGroup]? = some group) {r : ParsedRow} (hr : r ∈ group)
    (hliterals : request.LiteralsIn P r.1) :
    trigramsAdmit P request.lineFilters part rowGroup = true := by
  refine (Option.all_eq_true _ _).2 fun blooms hblooms => ?_
  refine List.all_eq_true.2 fun literal hliteral => List.all_eq_true.2 fun trigram ht => ?_
  exact lineBloom_contains (groupBlooms_of_index h hgroup hblooms) hr
    (hliterals literal hliteral ht)

/-- The filters admit a row group with a row the request is to find, if the trigrams do. -/
theorem admits_of_row (h : Layout P part groups) {rowGroup : ℕ} {group : List ParsedRow}
    (hgroup : groups[rowGroup]? = some group) {r : ParsedRow} (hr : r ∈ group)
    (hadmits : request.Admits P r.1)
    (htrigrams : trigramsAdmit P request.lineFilters part rowGroup = true) :
    (part.index[rowGroup]?).all (admits P request.lineFilters request.exactFields) = true := by
  refine (Option.all_eq_true _ _).2 fun blooms hblooms => ?_
  have hencode := groupBlooms_of_index h hgroup hblooms
  have hline := (Option.all_eq_true _ _).1 htrigrams blooms hblooms
  have hmask : (exactFieldWindowMask blooms.exactFields request.exactFields).all
      (fun mask => mask.any id) = true := by
    refine (Option.all_eq_true _ _).2 fun mask hmask => ?_
    obtain ⟨i, hi⟩ := List.mem_iff_getElem?.1 hr
    have hflat : r ∈ groups.flatten :=
      List.mem_flatten.2 ⟨group, List.mem_of_getElem? hgroup, hr⟩
    have hbit := mem_exactFieldWindowMask P.exactSizing_pos hencode hi (h.fieldsComplete hflat)
      hadmits.2 hmask
    exact List.any_eq_true.2 ⟨true, List.mem_of_getElem? hbit, rfl⟩
  rw [admits, hline, hmask]
  rfl

/-- The row groups selected are some of the tenant's. -/
theorem mem_selectRowGroups (h : Layout P part groups) {rowGroup : ℕ}
    (hmem : rowGroup ∈ selectRowGroups P part request.tenant request.lineFilters
      request.exactFields request.range) :
    ∃ group, groups[rowGroup]? = some group ∧ ∀ r ∈ group, r.1.tenant = request.tenant := by
  have hspec := (tiled_tenantSegments groups).find?_spec
    (h.tenants ▸ h.pairwise_tenants) request.tenant
  rw [selectRowGroups, PartMeta.tenantSegment, h.tenants] at hmem
  split at hmem
  case h_1 => cases hmem
  case h_2 segment hsegment =>
    rw [hsegment] at hspec
    obtain ⟨-, hend, hgroups⟩ := hspec
    have hrange := List.mem_range'_1.1 (List.mem_filter.1 hmem).1
    have hlt : rowGroup < groups.length := by omega
    have hget : groups[rowGroup]? = some groups[rowGroup] := List.getElem?_eq_getElem hlt
    refine ⟨groups[rowGroup], hget, fun r hr => ?_⟩
    have htenant := (hgroups rowGroup _ hget).2 (by omega)
    rw [← htenant]
    exact h.cut.oneTenant _ (List.getElem_mem hlt) r hr

/-- A row group with a row of the tenant that the request is to find is selected, if the trigrams
admit it. -/
theorem selectRowGroups_keeps (h : Layout P part groups) {rowGroup : ℕ}
    {group : List ParsedRow} (hgroup : groups[rowGroup]? = some group) {r : ParsedRow}
    (hr : r ∈ group) (htenant : r.1.tenant = request.tenant) (hadmits : request.Admits P r.1)
    (htrigrams : trigramsAdmit P request.lineFilters part rowGroup = true) :
    rowGroup ∈ selectRowGroups P part request.tenant request.lineFilters request.exactFields
      request.range := by
  have hspec := (tiled_tenantSegments groups).find?_spec
    (h.tenants ▸ h.pairwise_tenants) request.tenant
  have hmine : groupTenant group = request.tenant := by
    rw [← htenant, h.cut.oneTenant group (List.mem_of_getElem? hgroup) r hr]
  rw [selectRowGroups, PartMeta.tenantSegment, h.tenants]
  split
  case h_1 hnone =>
    rw [hnone] at hspec
    exact absurd hmine (hspec group (List.mem_of_getElem? hgroup))
  case h_2 segment hsegment =>
    rw [hsegment] at hspec
    have hrange := (hspec.2.2 rowGroup group hgroup).1 hmine
    refine List.mem_filter.2 ⟨List.mem_range'_1.2 (by omega), ?_⟩
    have hmin : part.info.rowGroupMinTs.getD rowGroup Nanos.zero = minTs group := by
      rw [h.rowGroupMinTs, List.getD_eq_getElem?_getD, List.getElem?_map, hgroup]
      rfl
    have hmax : part.info.rowGroupMaxTs.getD rowGroup Nanos.zero = maxTs group := by
      rw [h.rowGroupMaxTs, List.getD_eq_getElem?_getD, List.getElem?_map, hgroup]
      rfl
    rw [hmin, hmax, admits_of_row h hgroup hr hadmits htrigrams,
      QueryTimeRange.overlaps_of_contains (minTs_le hr) (le_maxTs hr) hadmits.1]
    rfl

theorem trigramsAdmit_of_selected {rowGroup : ℕ}
    (hmem : rowGroup ∈ selectRowGroups P part request.tenant request.lineFilters
      request.exactFields request.range) :
    trigramsAdmit P request.lineFilters part rowGroup = true := by
  rw [selectRowGroups] at hmem
  split at hmem
  case h_1 => cases hmem
  case h_2 =>
    have hadmits := (Bool.and_eq_true_iff.1 (List.mem_filter.1 hmem).2).2
    refine (Option.all_eq_true _ _).2 fun blooms hblooms => ?_
    exact (Bool.and_eq_true_iff.1 ((Option.all_eq_true _ _).1 hadmits blooms hblooms)).1

theorem mem_orderRowGroups {info : PartMeta} {rowGroups : List ℕ} {g : ℕ}
    (h : g ∈ orderRowGroups request info rowGroups) : g ∈ rowGroups := by
  rw [orderRowGroups] at h
  split at h
  · exact List.mem_of_mem_filter h
  · exact List.mem_mergeSort.1 h

/-! ### A part -/

theorem mem_rowsOf {rowGroup : ℕ} {row : Row} :
    row ∈ rowsOf groups rowGroup ↔
      ∃ group, groups[rowGroup]? = some group ∧ ∃ r ∈ group, r.1 = row := by
  rw [rowsOf, List.getD_eq_getElem?_getD]
  cases groups[rowGroup]? <;> simp

/-- A scan offers rows of the tenant, and what it is to find in the order of its row groups. -/
theorem scanInto_spec (h : Layout P part groups) {wanted : Row → Bool}
    (hwanted : ∀ row, wanted row = true → request.Admits P row)
    (evict : ℕ → GroupCache.Eviction) {cache : GroupCache} (hcache : cache.Sound part) {s : σ}
    (hclosed : sink.isClosed s = false) :
    ∃ (offered : List Row) (cache' : GroupCache), cache'.Sound part ∧
      scanInto P sink request evict ⟨part, cache⟩ s
        = (offered.foldlM (offerRow sink request) s).map (·, cache') ∧
      (∀ row ∈ offered, row ∈ groups.flatten.map Prod.fst ∧ row.tenant = request.tenant) ∧
      offered.filter wanted = (orderRowGroups request part.info
        (selectRowGroups P part request.tenant request.lineFilters request.exactFields
          request.range)).flatMap fun g =>
            inDirection request.forward ((rowsOf groups g).filter wanted) := by
  set selected := orderRowGroups request part.info (selectRowGroups P part request.tenant
    request.lineFilters request.exactFields request.range) with hselected
  have hgroups : ∀ g ∈ selected, ∃ group, groups[g]? = some group ∧
      ∀ r ∈ group, r.1.tenant = request.tenant := fun g hg =>
    mem_selectRowGroups h (mem_orderRowGroups hg)
  -- no row is to be found where nothing is read
  have hnothing : (∀ r ∈ groups.flatten, wanted r.1 = false) → (selected.flatMap fun g =>
      inDirection request.forward ((rowsOf groups g).filter wanted)) = [] := by
    intro hnone
    rw [List.flatMap_eq_nil_iff]
    intro g _
    have hempty : (rowsOf groups g).filter wanted = [] := by
      refine List.filter_eq_nil_iff.2 fun row hrow => ?_
      obtain ⟨group, hget, r, hr, rfl⟩ := mem_rowsOf.1 hrow
      simp [hnone r (List.mem_flatten.2 ⟨group, List.mem_of_getElem? hget, hr⟩)]
    rw [hempty]
    cases request.forward <;> rfl
  rw [scanInto, hclosed]
  simp only [Bool.or_false, beq_iff_eq]
  split
  case isTrue hzero =>
    refine ⟨[], cache, hcache, rfl, by simp, ?_⟩
    have hnil : groups = [] := List.length_eq_zero_iff.1 (h.rowGroupCount ▸ hzero)
    rw [hnothing (by rw [hnil]; simp)]
    rfl
  case isFalse =>
    split
    case h_1 hnone =>
      -- a column proves that no row satisfies the predicates
      refine ⟨[], cache, hcache, rfl, by simp, ?_⟩
      rw [hnothing fun r hr => ?_]
      · rfl
      · by_contra hw
        obtain ⟨columns, hsome, -⟩ := definitiveColumns_satisfied h hr
          (hwanted r.1 (by simpa using hw)).2
        rw [hsome] at hnone
        cases hnone
    case h_2 columns hcolumns =>
      obtain ⟨kepts, cache', hkepts, hsound, hscan⟩ :=
        scanGroups_spec sink h hwanted hcolumns evict hgroups hcache s
      refine ⟨_, cache', hsound, hscan, fun row hrow => ?_, filter_kepts hkepts _⟩
      obtain ⟨kept, hkept, hmem⟩ := List.mem_flatMap.1 hrow
      obtain ⟨g, hg, hof⟩ := exists_of_kepts hkepts hkept
      obtain ⟨group, hget, r, hr, rfl⟩ :=
        mem_rowsOf.1 (hof.sublist.mem (mem_inDirection.1 hmem))
      obtain ⟨group', hget', htenant⟩ := hgroups g hg
      obtain rfl := Option.some.inj (hget.symm.trans hget')
      exact ⟨List.mem_map_of_mem (List.mem_flatten.2 ⟨group, List.mem_of_getElem? hget, hr⟩),
        htenant r hr⟩

/-! ### What a query finds -/

theorem rowsOf_eq {g : ℕ} {group : List ParsedRow} (h : groups[g]? = some group) :
    rowsOf groups g = group.map Prod.fst := by
  rw [rowsOf, List.getD_eq_getElem?_getD, h, Option.getD_some]

theorem flatMap_rowsOf (groups : List (List ParsedRow)) :
    (List.range groups.length).flatMap (rowsOf groups) = groups.flatten.map Prod.fst := by
  have hrows : (List.range groups.length).map (rowsOf groups) = groups.map (List.map Prod.fst) := by
    refine List.ext_getElem (by simp) fun g hg hg' => ?_
    have hlt : g < groups.length := by simpa using hg
    rw [List.getElem_map, List.getElem_map, List.getElem_range,
      rowsOf_eq (List.getElem?_eq_getElem hlt)]
  rw [List.flatMap_def, hrows, List.map_flatten]

theorem inDirection_perm {α : Type*} (forward : Bool) (rows : List α) :
    (inDirection forward rows).Perm rows := by
  cases forward
  · exact List.reverse_perm rows
  · exact .refl _

theorem nodup_selectRowGroups (part : LogPart) :
    (selectRowGroups P part request.tenant request.lineFilters request.exactFields
      request.range).Nodup := by
  rw [selectRowGroups]
  split
  · exact List.nodup_nil
  · exact List.Nodup.filter _ List.nodup_range'

def admittedRows (P : Platform) (lineFilters : List LineFilter) (part : LogPart)
    (groups : List (List ParsedRow)) : List Row :=
  ((List.range groups.length).filter (trigramsAdmit P lineFilters part)).flatMap (rowsOf groups)

/-- A query finds every row of the tenant that it is to find, once, in the row groups that the
trigrams admit. -/
theorem admitted_perm (h : Layout P part groups) {wanted : Row → Bool}
    (hwanted : ∀ row, wanted row = true → request.Admits P row)
    (hwindow : request.window = none) :
    ((orderRowGroups request part.info (selectRowGroups P part request.tenant
      request.lineFilters request.exactFields request.range)).flatMap fun g =>
        inDirection request.forward ((rowsOf groups g).filter wanted)).Perm
      ((admittedRows P request.lineFilters part groups).filter fun row =>
        row.tenant == request.tenant && wanted row) := by
  set selected := selectRowGroups P part request.tenant request.lineFilters request.exactFields
    request.range with hselected
  set admitted := (List.range groups.length).filter (trigramsAdmit P request.lineFilters part)
    with hadmitted
  set mine := fun row : Row => row.tenant == request.tenant && wanted row with hmine
  have horder : (orderRowGroups request part.info selected).Perm selected := by
    rw [orderRowGroups, hwindow]
    exact List.mergeSort_perm _ _
  -- every row of a selected row group is the tenant's
  have hgroup : ∀ g ∈ selected, (inDirection request.forward ((rowsOf groups g).filter wanted)).Perm
      ((rowsOf groups g).filter mine) := by
    intro g hg
    have heq : (rowsOf groups g).filter wanted = (rowsOf groups g).filter mine := by
      refine List.filter_congr fun row hrow => ?_
      obtain ⟨group, hget, r, hr, rfl⟩ := mem_rowsOf.1 hrow
      obtain ⟨group', hget', htenant⟩ := mem_selectRowGroups h hg
      obtain rfl := Option.some.inj (hget.symm.trans hget')
      simp [hmine, htenant r hr]
    rw [heq]
    exact inDirection_perm _ _
  -- a row group that is admitted and not selected has nothing to find
  have hempty : ∀ g ∈ admitted, decide (g ∈ selected) = false →
      (rowsOf groups g).filter mine = [] := by
    intro g hg hnot
    refine List.filter_eq_nil_iff.2 fun row hrow => ?_
    obtain ⟨group, hget, r, hr, rfl⟩ := mem_rowsOf.1 hrow
    intro hm
    obtain ⟨htenant, hw⟩ : r.1.tenant = request.tenant ∧ wanted r.1 = true := by
      simpa [hmine] using hm
    have := selectRowGroups_keeps h hget hr htenant (hwanted _ hw) (List.mem_filter.1 hg).2
    exact of_decide_eq_false hnot this
  have hrange : selected.Perm (admitted.filter (· ∈ selected)) := by
    refine (List.perm_ext_iff_of_nodup (nodup_selectRowGroups part)
      ((List.nodup_range.filter _).filter _)).2 fun g => ?_
    simp only [List.mem_filter, List.mem_range, decide_eq_true_eq]
    refine ⟨fun hg => ⟨⟨?_, trigramsAdmit_of_selected hg⟩, hg⟩, fun hg => hg.2⟩
    obtain ⟨group, hget, -⟩ := mem_selectRowGroups h hg
    exact (List.getElem?_eq_some_iff.1 hget).1
  refine (horder.flatMap_right _).trans ((List.Perm.flatMap_left _ hgroup).trans
    ((hrange.flatMap_right _).trans ?_))
  rw [Runs.flatMap_filter_of_nil hempty, admittedRows, List.filter_flatMap]

/-- It finds every row of the tenant that it is to find, if the trigrams admit those. -/
theorem found_perm (h : Layout P part groups) {wanted : Row → Bool}
    (hwanted : ∀ row, wanted row = true → request.Admits P row)
    (hliterals : ∀ row, wanted row = true → request.LiteralsIn P row)
    (hwindow : request.window = none) :
    ((orderRowGroups request part.info (selectRowGroups P part request.tenant
      request.lineFilters request.exactFields request.range)).flatMap fun g =>
        inDirection request.forward ((rowsOf groups g).filter wanted)).Perm
      ((groups.flatten.map Prod.fst).filter fun row => row.tenant == request.tenant && wanted row) := by
  refine (admitted_perm h hwanted hwindow).trans ?_
  rw [admittedRows, List.filter_flatMap, Runs.flatMap_filter_of_nil, ← flatMap_rowsOf,
    List.filter_flatMap]
  intro g _ hrejected
  refine List.filter_eq_nil_iff.2 fun row hrow => ?_
  obtain ⟨group, hget, r, hr, rfl⟩ := mem_rowsOf.1 hrow
  intro hm
  have hadmitted := trigramsAdmit_of_row h hget hr
    (hliterals _ (Bool.and_eq_true_iff.1 hm).2)
  rw [hrejected] at hadmitted
  cases hadmitted

end Part

end Obsy
