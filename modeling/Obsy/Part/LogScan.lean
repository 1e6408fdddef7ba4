import Obsy.Part.Lowering
import Obsy.Part.Search
import Obsy.Part.TopK

/-!
# The log query

A query reads the memtable and then the parts into one bounded sink, and skips what lies beyond
the frontier of the sink.

* `LogScan.run`: the query.
* `LogScan.Collects`: the sink has the best of the rows read so far.
* `LogScan.run_spec`: the result is the best of all rows but those in row groups that their
  trigrams reject.
* `LogScan.run_isTopK_iff`: when it is the best of all rows.
-/

namespace Obsy

namespace Part

open Logql (LogQuery LineFilter Hir)
open Select (Best)

/-! ### The memtable -/

/-- The log entries in memory by tenant: those that arrive and those that are being flushed. -/
structure MemTable where
  inner : List (String × List LogEntry)
  flushing : Option (List (String × List LogEntry))

namespace MemTable

/-- The entries of a tenant, the live ones first. -/
def entriesOf (memtable : MemTable) (tenant : String) : List LogEntry :=
  (memtable.inner.lookup tenant).getD [] ++
    (memtable.flushing.bind fun buffer => buffer.lookup tenant).getD []

variable {σ : Type*} (sink : RowSink σ) (request : ScanRequest)

/-- Offers entries in the order of the query; behind one beyond the frontier are only others. -/
def offerEntries : List LogEntry → σ → Except String σ
  | [], s => .ok s
  | entry :: entries, s =>
    if beyondFrontier (sink.frontierNs s) request.forward entry.timestampNs then .ok s
    else if request.range.contains entry.timestampNs &&
        request.lineFilters.all fun filter => filter.matches entry.line then
      sink.accept s entry >>= offerEntries entries
    else offerEntries entries s

/-- `MemTable::scan_into`. -/
def scanInto (memtable : MemTable) (s : σ) : Except String σ :=
  if sink.isClosed s then .ok s
  else offerEntries sink request (inDirection request.forward
    ((memtable.entriesOf request.tenant).mergeSort fun a b => a.timestampNs ≤ b.timestampNs)) s

end MemTable

/-! ### The parts -/

namespace PartRegistry

variable (P : Platform) {σ : Type*} (sink : RowSink σ) (request : ScanRequest)

/-- The least timestamp of a tenant in a part. -/
def segmentStart (tenant : String) (reader : PartReader) : Nanos :=
  (reader.part.info.tenantSegment tenant).elim Nanos.max TenantSegment.minTsNs

/-- Whether a part can hold rows of the tenant in the range. -/
def isCandidate (tenant : String) (range : QueryTimeRange) (reader : PartReader) : Bool :=
  (reader.part.info.tenantSegment tenant).any fun segment =>
    range.overlaps segment.minTsNs segment.maxTsNs

/-- The parts a query reads, in its direction. -/
def candidates (readers : List PartReader) : List PartReader :=
  inDirection request.forward ((readers.filter (isCandidate request.tenant request.range)).mergeSort
    fun a b => segmentStart request.tenant a ≤ segmentStart request.tenant b)

/-- Reads one part, unless its segment is beyond the frontier. -/
def scanReader (evict : LogPart → ℕ → GroupCache.Eviction) (s : σ) (reader : PartReader) :
    Except String σ :=
  match reader.part.info.tenantSegment request.tenant with
  | none => .ok s
  | some segment =>
    if spanBeyondFrontier (sink.frontierNs s) request.forward segment.minTsNs segment.maxTsNs then
      .ok s
    else
      ((Part.scanInto P sink request (evict reader.part) reader s).map Prod.fst).mapError
        fun error => "failed to query part " ++ reader.part.info.id ++ ": " ++ error

/-- `PartRegistry::scan_into`.  What the readers keep in their caches is left out. -/
def scanInto (evict : LogPart → ℕ → GroupCache.Eviction) (readers : List PartReader) (s : σ) :
    Except String σ :=
  if readers.isEmpty || sink.isClosed s then .ok s
  else (candidates request readers).foldlM (scanReader P sink request evict) s

end PartRegistry

/-! ### The query -/

/-- Rows with the labels they share. -/
structure StreamResult where
  labels : Pairs
  entries : List LogEntry

/-- `group_by_labels`, of rows that all come without labels. -/
def groupByLabels (rows : List LogEntry) : List StreamResult :=
  if rows.isEmpty then [] else [⟨[], rows⟩]

/-- What becomes of a row: nothing if a deletion hides it or the pipeline rejects it.  A query of
no stages and no matchers takes it as it is. -/
def pipelineOutput (P : Platform) (query : LogQuery) (hidden : Option (LogEntry → Bool))
    (entry : LogEntry) : Option LogEntry :=
  if hidden.any fun hides => hides entry then none
  else if query.stages.isEmpty && query.matchers.isEmpty then some entry
  else query.processEntry P.parseJson none entry

/-- `PipelineSink`: runs the pipeline on what it is offered and holds the best of the outcome. -/
def pipelineSink (P : Platform) (query : LogQuery) (hidden : Option (LogEntry → Bool)) :
    RowSink TopKRows where
  accept rows entry := .ok ((pipelineOutput P query hidden entry).elim rows rows.offer)
  frontierNs := TopKRows.frontierNs
  isClosed := TopKRows.isClosed

structure LogScan where
  tenant : String
  query : LogQuery
  range : QueryTimeRange
  limit : ℕ
  forward : Bool
  /-- The rows that deletions hide. -/
  hidden : Option (LogEntry → Bool)

namespace LogScan

/-- What the query asks the memtable and the parts for. -/
def request (scan : LogScan) : ScanRequest :=
  queryRequest scan.query scan.tenant scan.range scan.forward

variable (P : Platform)

/-- `LogScan::run_into`: the memtable first, then the parts. -/
def runInto {σ : Type*} (scan : LogScan) (evict : LogPart → ℕ → GroupCache.Eviction)
    (memtable : MemTable) (readers : List PartReader) (sink : RowSink σ) (s : σ) :
    Except String σ := do
  let s ← memtable.scanInto sink scan.request s
  PartRegistry.scanInto P sink scan.request evict readers s

/-- `LogScan::run`. -/
def run (scan : LogScan) (evict : LogPart → ℕ → GroupCache.Eviction) (memtable : MemTable)
    (readers : List PartReader) : Except String (List StreamResult) :=
  (scan.runInto P evict memtable readers (pipelineSink P scan.query scan.hidden)
    (.new scan.limit scan.forward)).map fun rows => groupByLabels rows.intoRows

/-! ### What the query is to find -/

/-- What the query makes of a row that it reads. -/
def found (scan : LogScan) (entry : LogEntry) : Option LogEntry :=
  if scan.range.contains entry.timestampNs &&
      scan.query.lineFilters.all fun filter => filter.matches entry.line then
    pipelineOutput P scan.query scan.hidden entry
  else none

end LogScan

/-- A registered part: what a writer laid out, and a cache of rows it really has. -/
structure StoredPart (P : Platform) where
  reader : PartReader
  groups : List (List ParsedRow)
  layout : Layout P reader.part groups
  sound : reader.cache.Sound reader.part

/-- Every part that a flush or a merge wrote can be registered. -/
theorem Written.exists_stored {P : Platform} {part : LogPart} {rows : List Row}
    (h : Written P part rows) : ∃ stored : StoredPart P,
      stored.reader.part = part ∧ stored.groups.flatten.map Prod.fst = rows := by
  obtain ⟨groups, hlayout, hrows⟩ := h.layout
  exact ⟨⟨⟨part, ⟨true, [], []⟩⟩, groups, hlayout, GroupCache.sound_empty true⟩, rfl, hrows⟩

/-- The entries of a tenant among some rows. -/
def entriesOfTenant (tenant : String) (rows : List Row) : List LogEntry :=
  (rows.filter fun row => row.tenant == tenant).map Row.entry

def rejectedRows (P : Platform) (lineFilters : List LineFilter) (part : LogPart)
    (groups : List (List ParsedRow)) : List Row :=
  ((List.range groups.length).filter fun g => !trigramsAdmit P lineFilters part g).flatMap
    (rowsOf groups)

namespace StoredPart

variable {P : Platform}

def entriesOf (part : StoredPart P) (tenant : String) : List LogEntry :=
  entriesOfTenant tenant (part.groups.flatten.map Prod.fst)

/-- Those in row groups that the trigrams admit for some line filters. -/
def admittedOf (part : StoredPart P) (tenant : String) (lineFilters : List LineFilter) :
    List LogEntry :=
  entriesOfTenant tenant (admittedRows P lineFilters part.reader.part part.groups)

/-- Those in row groups that the trigrams reject. -/
def rejectedOf (part : StoredPart P) (tenant : String) (lineFilters : List LineFilter) :
    List LogEntry :=
  entriesOfTenant tenant (rejectedRows P lineFilters part.reader.part part.groups)

theorem admitted_rejected_perm (part : StoredPart P) (tenant : String)
    (lineFilters : List LineFilter) :
    (part.admittedOf tenant lineFilters ++ part.rejectedOf tenant lineFilters).Perm
      (part.entriesOf tenant) := by
  have hrows : (admittedRows P lineFilters part.reader.part part.groups ++
      rejectedRows P lineFilters part.reader.part part.groups).Perm
        (part.groups.flatten.map Prod.fst) := by
    rw [admittedRows, rejectedRows, ← List.flatMap_append, ← flatMap_rowsOf]
    exact (List.filter_append_perm _ _).flatMap_right _
  have hall := (hrows.filter fun row => row.tenant == tenant).map Row.entry
  rwa [List.filter_append, List.map_append] at hall

end StoredPart

namespace LogScan

variable {P : Platform} (scan : LogScan)

/-- The answers of the query among some entries. -/
def answersIn (P : Platform) (entries : List LogEntry) : List LogEntry :=
  entries.filterMap (scan.found P)

/-- All rows of the tenant, in memory and in the parts, that no deletion hides and that the query
accepts, as the pipeline leaves them. -/
def answers (memtable : MemTable) (parts : List (StoredPart P)) : List LogEntry :=
  scan.answersIn P (memtable.entriesOf scan.tenant ++
    parts.flatMap fun part => part.entriesOf scan.tenant)

/-- The answers but those in row groups that the trigrams reject. -/
def admitted (memtable : MemTable) (parts : List (StoredPart P)) : List LogEntry :=
  scan.answersIn P (memtable.entriesOf scan.tenant ++
    parts.flatMap fun part => part.admittedOf scan.tenant scan.query.lineFilters)

/-- The answers in row groups that the trigrams reject. -/
def rejected (parts : List (StoredPart P)) : List LogEntry :=
  scan.answersIn P (parts.flatMap fun part =>
    part.rejectedOf scan.tenant scan.query.lineFilters)

theorem admitted_rejected_perm (memtable : MemTable) (parts : List (StoredPart P)) :
    (scan.admitted memtable parts ++ scan.rejected parts).Perm (scan.answers memtable parts) := by
  rw [admitted, rejected, answers, answersIn, answersIn, answersIn, ← List.filterMap_append,
    List.append_assoc]
  refine List.Perm.filterMap _ (List.Perm.append_left _ ?_)
  refine (List.flatMap_append_perm parts _ _).trans (List.Perm.flatMap_left _ fun part _ => ?_)
  exact part.admitted_rejected_perm scan.tenant scan.query.lineFilters

/-! ### The rows that are offered -/

/-- The pipeline leaves the timestamp of a row as it is. -/
theorem pipelineOutput_timestampNs {query : LogQuery} {hidden : Option (LogEntry → Bool)}
    {entry out : LogEntry} (h : pipelineOutput P query hidden entry = some out) :
    out.timestampNs = entry.timestampNs := by
  rw [pipelineOutput] at h
  split at h
  · cases h
  · split at h
    · rw [Option.some.inj h]
    · rw [LogQuery.processEntry] at h
      split at h
      · obtain ⟨-, -, rfl⟩ := Option.map_eq_some_iff.1 h
        rfl
      · cases h

variable {scan}

theorem found_timestampNs {entry out : LogEntry} (h : scan.found P entry = some out) :
    out.timestampNs = entry.timestampNs := by
  rw [found] at h
  split at h
  · exact pipelineOutput_timestampNs h
  · cases h

theorem answersIn_singleton (entry : LogEntry) :
    scan.answersIn P [entry] = (scan.found P entry).toList := by
  rw [answersIn, List.filterMap_cons]
  cases scan.found P entry <;> rfl

/-- The parts that the query reads, in its direction. -/
def candidateParts (scan : LogScan) (parts : List (StoredPart P)) : List (StoredPart P) :=
  inDirection scan.forward ((parts.filter fun part =>
    PartRegistry.isCandidate scan.tenant scan.range part.reader).mergeSort fun a b =>
      PartRegistry.segmentStart scan.tenant a.reader ≤ PartRegistry.segmentStart scan.tenant b.reader)

/-- The sink of the query has the best of the answers read so far. -/
structure Collects (scan : LogScan) (rows : TopKRows) (seen : List LogEntry) : Prop where
  holds : rows.Holds seen
  limit : rows.limit = scan.limit
  forward : rows.forward = scan.forward

namespace Collects

variable {rows : TopKRows} {seen : List LogEntry}

theorem perm (h : scan.Collects rows seen) {seen' : List LogEntry} (hp : seen.Perm seen') :
    scan.Collects rows seen' := ⟨h.holds.perm hp, h.limit, h.forward⟩

/-- A row in the range that the line filters match is offered to the pipeline. -/
theorem accept (h : scan.Collects rows seen) {entry : LogEntry}
    (hread : (scan.range.contains entry.timestampNs &&
      scan.query.lineFilters.all fun filter => filter.matches entry.line) = true) :
    ∃ rows', (pipelineSink P scan.query scan.hidden).accept rows entry = .ok rows' ∧
      scan.Collects rows' (seen ++ scan.answersIn P [entry]) := by
  have hfound : scan.found P entry = pipelineOutput P scan.query scan.hidden entry := if_pos hread
  refine ⟨_, rfl, ?_⟩
  rw [answersIn_singleton, hfound]
  cases pipelineOutput P scan.query scan.hidden entry with
  | none =>
    rw [Option.toList_none, List.append_nil]
    exact h
  | some out =>
    exact ⟨h.holds.offer out, (TopKRows.offer_limit out).trans h.limit,
      (TopKRows.offer_forward out).trans h.forward⟩

/-- Rows beyond the frontier may be skipped. -/
theorem skip (h : scan.Collects rows seen) {entries : List LogEntry}
    (hbeyond : ∀ entry ∈ entries,
      beyondFrontier rows.frontierNs scan.forward entry.timestampNs = true) :
    scan.Collects rows (seen ++ scan.answersIn P entries) := by
  refine ⟨h.holds.skip_all fun out hout => ?_, h.limit, h.forward⟩
  obtain ⟨entry, hentry, hfound⟩ := List.mem_filterMap.1 hout
  rw [found_timestampNs hfound, h.forward]
  exact hbeyond entry hentry

/-- Rows that the query does not read need not be offered. -/
theorem unread (h : scan.Collects rows seen) {entry : LogEntry}
    (hread : (scan.range.contains entry.timestampNs &&
      scan.query.lineFilters.all fun filter => filter.matches entry.line) = false) :
    scan.Collects rows (seen ++ scan.answersIn P [entry]) := by
  have hfound : scan.found P entry = none := if_neg (by simp [hread])
  rw [answersIn_singleton, hfound, Option.toList_none, List.append_nil]
  exact h

theorem answersIn_cons (entry : LogEntry) (entries : List LogEntry) :
    seen ++ scan.answersIn P (entry :: entries)
      = seen ++ scan.answersIn P [entry] ++ scan.answersIn P entries := by
  rw [answersIn, answersIn, answersIn, List.append_assoc, ← List.filterMap_append]
  rfl

/-- The memtable is read up to the first row beyond the frontier. -/
theorem offerEntries {entries : List LogEntry} (h : scan.Collects rows seen)
    (hsorted : entries.Pairwise fun a b => a.rank scan.forward ≤ b.rank scan.forward) :
    ∃ rows', MemTable.offerEntries (pipelineSink P scan.query scan.hidden) scan.request entries rows
        = .ok rows' ∧ scan.Collects rows' (seen ++ scan.answersIn P entries) := by
  induction entries generalizing rows seen with
  | nil => exact ⟨rows, rfl, by rwa [answersIn, List.filterMap_nil, List.append_nil]⟩
  | cons entry entries ih =>
    obtain ⟨hfirst, hrest⟩ := List.pairwise_cons.1 hsorted
    rw [MemTable.offerEntries]
    split
    case isTrue hbeyond =>
      -- every later entry is beyond the frontier too
      refine ⟨rows, rfl, h.skip fun other hother => ?_⟩
      rcases List.mem_cons.1 hother with rfl | hother
      · exact hbeyond
      · exact beyondFrontier_of_rank hbeyond (hfirst other hother)
    case isFalse =>
      split
      case isTrue hread =>
        obtain ⟨rows', haccept, h'⟩ := h.accept hread
        rw [haccept, answersIn_cons]
        exact ih h' hrest
      case isFalse hread =>
        rw [answersIn_cons]
        exact ih (h.unread (Bool.eq_false_of_not_eq_true hread)) hrest

/-- A row of a part is offered, skipped or not read. -/
theorem offerRow (h : scan.Collects rows seen) (row : Row) :
    ∃ rows', Part.offerRow (pipelineSink P scan.query scan.hidden) scan.request rows row = .ok rows' ∧
      scan.Collects rows' (seen ++ scan.answersIn P [row.entry]) := by
  rw [Part.offerRow]
  split
  case isTrue hbeyond =>
    refine ⟨rows, rfl, h.skip fun entry hentry => ?_⟩
    obtain rfl := List.mem_singleton.1 hentry
    exact hbeyond
  case isFalse =>
    split
    case isTrue hout =>
      have hout' : scan.range.contains row.entry.timestampNs = false := by
        simpa [request, queryRequest, Row.entry] using hout
      exact ⟨rows, rfl, h.unread (by rw [hout', Bool.false_and])⟩
    case isFalse hin =>
      have hin' : scan.range.contains row.entry.timestampNs = true := by
        simpa [request, queryRequest, Row.entry] using hin
      split
      case isTrue hunmatched =>
        have hunmatched' : (scan.query.lineFilters.all fun filter =>
            filter.matches row.entry.line) = false := by rwa [Bool.not_eq_true'] at hunmatched
        exact ⟨rows, rfl, h.unread (by rw [hunmatched', Bool.and_false])⟩
      case isFalse hmatched =>
        have hmatched' : (scan.query.lineFilters.all fun filter =>
            filter.matches row.entry.line) = true := by
          rwa [Bool.not_eq_true', Bool.not_eq_false] at hmatched
        exact h.accept (by rw [hin', hmatched', Bool.and_self])

theorem foldlM_offerRow (h : scan.Collects rows seen) (offered : List Row) :
    ∃ rows', offered.foldlM (Part.offerRow (pipelineSink P scan.query scan.hidden) scan.request) rows
        = .ok rows' ∧ scan.Collects rows' (seen ++ scan.answersIn P (offered.map Row.entry)) := by
  induction offered generalizing rows seen with
  | nil => exact ⟨rows, rfl, by rwa [List.map_nil, answersIn, List.filterMap_nil, List.append_nil]⟩
  | cons row offered ih =>
    obtain ⟨rows₁, hoffer, h₁⟩ := h.offerRow row
    rw [List.foldlM_cons, hoffer, List.map_cons, answersIn_cons]
    exact ih h₁

/-- The memtable is read. -/
theorem memtable (h : scan.Collects rows seen) (memtable : MemTable)
    (hopen : rows.isClosed = false) :
    ∃ rows', memtable.scanInto (pipelineSink P scan.query scan.hidden) scan.request rows
        = .ok rows' ∧
      scan.Collects rows' (seen ++ scan.answersIn P (memtable.entriesOf scan.tenant)) := by
  set ordered := (memtable.entriesOf scan.tenant).mergeSort fun a b => a.timestampNs ≤ b.timestampNs
    with hordered
  have : Std.Total fun a b : LogEntry => a.timestampNs ≤ b.timestampNs := ⟨fun a b => le_total _ _⟩
  have : IsTrans LogEntry fun a b => a.timestampNs ≤ b.timestampNs :=
    ⟨fun _ _ _ hab hbc => le_trans hab hbc⟩
  have htimes : ordered.Pairwise fun a b => a.timestampNs ≤ b.timestampNs :=
    List.pairwise_mergeSort' (fun a b : LogEntry => a.timestampNs ≤ b.timestampNs) _
  have hsorted : (inDirection scan.forward ordered).Pairwise
      fun a b => a.rank scan.forward ≤ b.rank scan.forward := by
    cases hforward : scan.forward with
    | true => exact htimes.imp fun hle => Subtype.coe_le_coe.2 hle
    | false =>
      rw [inDirection, if_neg Bool.false_ne_true, List.pairwise_reverse]
      exact htimes.imp fun hle => neg_le_neg (Subtype.coe_le_coe.2 hle)
  have hclosed : (pipelineSink P scan.query scan.hidden).isClosed rows = false := hopen
  obtain ⟨rows', hoffer, h'⟩ := h.offerEntries hsorted
  refine ⟨rows', ?_, h'.perm (List.Perm.append_left _ (List.Perm.filterMap _ ?_))⟩
  · rw [MemTable.scanInto, hclosed, if_neg Bool.false_ne_true]
    exact hoffer
  · exact (inDirection_perm _ _).trans (List.mergeSort_perm _ _)

end Collects

/-! ### The parts -/

/-- A row that is an answer of the query satisfies its predicates. -/
theorem found_admits {row : Row} (h : (scan.found P row.entry).isSome = true) :
    scan.request.Admits P row := by
  obtain ⟨out, hout⟩ := Option.isSome_iff_exists.1 h
  rw [found] at hout
  split at hout
  case isFalse => cases hout
  case isTrue hread =>
    refine exactFields_admit (Bool.and_eq_true_iff.1 hread).1 ?_
    rw [pipelineOutput] at hout
    split at hout
    · cases hout
    · split at hout
      case isTrue hplain =>
        -- without stages and matchers the pipeline accepts every row
        obtain ⟨hstages, hmatchers⟩ := Bool.and_eq_true_iff.1 hplain
        rw [accepts, LogQuery.processEntry, List.isEmpty_iff.1 hstages, List.isEmpty_iff.1 hmatchers]
        rfl
      case isFalse => exact Option.isSome_iff_exists.2 ⟨out, hout⟩

/-- Only the wanted rows count for the answers. -/
theorem answersIn_filter (entries : List LogEntry) :
    scan.answersIn P (entries.filter fun entry => (scan.found P entry).isSome)
      = scan.answersIn P entries := by
  rw [answersIn, answersIn, List.filterMap_filter]
  refine List.filterMap_congr fun entry _ => ?_
  cases scan.found P entry <;> rfl

namespace Collects

variable {rows : TopKRows} {seen : List LogEntry}

theorem answersIn_map_entry (offered : List Row) :
    scan.answersIn P ((offered.filter fun row => (scan.found P row.entry).isSome).map Row.entry)
      = scan.answersIn P (offered.map Row.entry) := by
  rw [← answersIn_filter (offered.map Row.entry), List.filter_map]
  rfl

/-- What a part offers holds the answers in row groups that the trigrams admit. -/
theorem scanInto_offers (part : StoredPart P) (evict : ℕ → GroupCache.Eviction) {rows : TopKRows}
    (hopen : rows.isClosed = false) :
    ∃ (offered : List Row) (cache' : GroupCache),
      Part.scanInto P (pipelineSink P scan.query scan.hidden) scan.request evict part.reader rows
        = (offered.foldlM (Part.offerRow (pipelineSink P scan.query scan.hidden) scan.request)
            rows).map (·, cache') ∧
      (scan.answersIn P (offered.map Row.entry)).Perm
        (scan.answersIn P (part.admittedOf scan.tenant scan.query.lineFilters)) := by
  set wanted : Row → Bool := fun row => (scan.found P row.entry).isSome with hwanted
  obtain ⟨offered, cache', -, hscan, -, hfound⟩ := scanInto_spec
    (pipelineSink P scan.query scan.hidden) part.layout
    (fun row hw => (found_admits hw : scan.request.Admits P row)) evict part.sound hopen
  refine ⟨offered, cache', hscan, ?_⟩
  have hperm := admitted_perm part.layout (fun row hw => (found_admits hw : scan.request.Admits P row)) rfl
  rw [← hfound] at hperm
  have hanswers := ((hperm.map Row.entry).filterMap (scan.found P))
  have hmine : (admittedRows P scan.request.lineFilters part.reader.part part.groups).filter
      (fun row => row.tenant == scan.request.tenant && wanted row)
        = ((admittedRows P scan.query.lineFilters part.reader.part part.groups).filter
            fun row => row.tenant == scan.tenant).filter wanted := by
    rw [List.filter_filter]
    exact List.filter_congr fun row _ => Bool.and_comm ..
  rw [hmine] at hanswers
  have hleft := @answersIn_map_entry P scan offered
  have hright := @answersIn_map_entry P scan
    ((admittedRows P scan.query.lineFilters part.reader.part part.groups).filter
      fun row => row.tenant == scan.tenant)
  rw [← hleft, StoredPart.admittedOf, entriesOfTenant, ← hright]
  exact hanswers

/-- A part is read: its rows in row groups that the trigrams admit. -/
theorem scanInto (h : scan.Collects rows seen) (part : StoredPart P)
    (evict : ℕ → GroupCache.Eviction) (hopen : rows.isClosed = false) :
    ∃ rows' cache', Part.scanInto P (pipelineSink P scan.query scan.hidden) scan.request evict
        part.reader rows = .ok (rows', cache') ∧
      scan.Collects rows'
        (seen ++ scan.answersIn P (part.admittedOf scan.tenant scan.query.lineFilters)) := by
  obtain ⟨offered, cache', hscan, hperm⟩ := @scanInto_offers P scan part evict rows hopen
  obtain ⟨rows', hfold, h'⟩ := h.foldlM_offerRow offered
  refine ⟨rows', cache', ?_, h'.perm (List.Perm.append_left _ hperm)⟩
  rw [hscan, hfold]
  rfl

/-- Rows that no row group of a candidate part holds are no answers. -/
theorem answersIn_eq_nil {entries : List LogEntry}
    (h : ∀ entry ∈ entries, scan.range.contains entry.timestampNs = false) :
    scan.answersIn P entries = [] := by
  rw [answersIn, List.filterMap_eq_nil_iff]
  intro entry hentry
  rw [found, h entry hentry, Bool.false_and, if_neg Bool.false_ne_true]

/-- The bounds of the segment of the tenant hold of its rows. -/
theorem bounds_of_segment {part : StoredPart P} {segment : TenantSegment}
    (hsegment : part.reader.part.info.tenantSegment scan.tenant = some segment) :
    ∀ entry ∈ part.admittedOf scan.tenant scan.query.lineFilters,
      segment.minTsNs ≤ entry.timestampNs ∧ entry.timestampNs ≤ segment.maxTsNs := by
  intro entry hentry
  obtain ⟨row, hrow, rfl⟩ := List.mem_map.1 hentry
  obtain ⟨hadmitted, htenant⟩ := List.mem_filter.1 hrow
  obtain ⟨g, -, hg⟩ := List.mem_flatMap.1 hadmitted
  obtain ⟨group, hget, r, hr, rfl⟩ := mem_rowsOf.1 hg
  rw [PartMeta.tenantSegment, part.layout.tenants] at hsegment
  have hgroup := List.mem_of_getElem? hget
  have hmine : groupTenant group = segment.tenant := by
    have hname := List.find?_some hsegment
    rw [← part.layout.cut.oneTenant group hgroup r hr, beq_iff_eq.1 htenant, beq_iff_eq.1 hname]
  exact (tiled_tenantSegments part.groups).bounds (part.layout.tenants ▸ part.layout.pairwise_tenants)
    (List.mem_of_find?_eq_some hsegment) hgroup hmine hr

/-- A part without a segment of the tenant has none of its rows. -/
theorem admittedOf_eq_nil {part : StoredPart P}
    (hnone : part.reader.part.info.tenantSegment scan.tenant = none) :
    part.admittedOf scan.tenant scan.query.lineFilters = [] := by
  have hspec := (tiled_tenantSegments part.groups).find?_spec
    (part.layout.tenants ▸ part.layout.pairwise_tenants) scan.tenant
  rw [PartMeta.tenantSegment, part.layout.tenants] at hnone
  rw [hnone] at hspec
  rw [StoredPart.admittedOf, entriesOfTenant, List.map_eq_nil_iff, List.filter_eq_nil_iff]
  intro row hrow htenant
  obtain ⟨g, -, hg⟩ := List.mem_flatMap.1 hrow
  obtain ⟨group, hget, r, hr, rfl⟩ := mem_rowsOf.1 hg
  have hgroup := List.mem_of_getElem? hget
  refine hspec group hgroup ?_
  rw [← part.layout.cut.oneTenant group hgroup r hr]
  exact beq_iff_eq.1 htenant

theorem answersIn_of_not_candidate {part : StoredPart P}
    (h : PartRegistry.isCandidate scan.tenant scan.range part.reader = false) :
    scan.answersIn P (part.admittedOf scan.tenant scan.query.lineFilters) = [] := by
  rw [PartRegistry.isCandidate] at h
  cases hsegment : part.reader.part.info.tenantSegment scan.tenant with
  | none =>
    rw [admittedOf_eq_nil hsegment]
    rfl
  | some segment =>
    rw [hsegment, Option.any_some] at h
    refine answersIn_eq_nil fun entry hentry => ?_
    obtain ⟨hlo, hhi⟩ := bounds_of_segment hsegment entry hentry
    refine Bool.eq_false_of_not_eq_true fun hin => ?_
    rw [QueryTimeRange.overlaps_of_contains hlo hhi hin] at h
    cases h

/-- A part is read or skipped. -/
theorem scanReader (h : scan.Collects rows seen) (part : StoredPart P)
    (evict : LogPart → ℕ → GroupCache.Eviction) (hpos : scan.limit ≠ 0) :
    ∃ rows', PartRegistry.scanReader P (pipelineSink P scan.query scan.hidden) scan.request evict
        rows part.reader = .ok rows' ∧
      scan.Collects rows'
        (seen ++ scan.answersIn P (part.admittedOf scan.tenant scan.query.lineFilters)) := by
  rw [PartRegistry.scanReader]
  split
  case h_1 hnone =>
    refine ⟨rows, rfl, ?_⟩
    rw [admittedOf_eq_nil hnone, answersIn, List.filterMap_nil, List.append_nil]
    exact h
  case h_2 segment hsegment =>
    split
    case isTrue hbeyond =>
      refine ⟨rows, rfl, h.skip fun entry hentry => ?_⟩
      obtain ⟨hlo, hhi⟩ := bounds_of_segment hsegment entry hentry
      exact beyondFrontier_mono hlo hhi hbeyond
    case isFalse =>
      have hopen : rows.isClosed = false := by
        rw [TopKRows.isClosed, h.limit]
        exact beq_false_of_ne hpos
      obtain ⟨rows', cache', hscan, h'⟩ := h.scanInto part (evict part.reader.part) hopen
      refine ⟨rows', ?_, h'⟩
      rw [hscan]
      rfl

theorem foldlM_scanReader (h : scan.Collects rows seen) (parts : List (StoredPart P))
    (evict : LogPart → ℕ → GroupCache.Eviction) (hpos : scan.limit ≠ 0) :
    ∃ rows', (parts.map StoredPart.reader).foldlM (PartRegistry.scanReader P
        (pipelineSink P scan.query scan.hidden) scan.request evict) rows = .ok rows' ∧
      scan.Collects rows' (seen ++ scan.answersIn P
        (parts.flatMap fun part => part.admittedOf scan.tenant scan.query.lineFilters)) := by
  induction parts generalizing rows seen with
  | nil => exact ⟨rows, rfl, by rwa [List.flatMap_nil, answersIn, List.filterMap_nil, List.append_nil]⟩
  | cons part parts ih =>
    obtain ⟨rows₁, hscan, h₁⟩ := h.scanReader part evict hpos
    obtain ⟨rows', hfold, h'⟩ := ih h₁
    refine ⟨rows', ?_, ?_⟩
    · rw [List.map_cons, List.foldlM_cons, hscan]
      exact hfold
    · rw [List.flatMap_cons, answersIn, List.filterMap_append, ← List.append_assoc]
      exact h'

/-- The parts are read in the order of the query. -/
theorem candidates_eq (parts : List (StoredPart P)) :
    PartRegistry.candidates scan.request (parts.map StoredPart.reader)
      = (scan.candidateParts parts).map StoredPart.reader := by
  set chosen := parts.filter fun part =>
    PartRegistry.isCandidate scan.tenant scan.range part.reader with hchosen
  have hmap : (chosen.mergeSort fun a b => PartRegistry.segmentStart scan.tenant a.reader ≤
      PartRegistry.segmentStart scan.tenant b.reader).map StoredPart.reader =
        (chosen.map StoredPart.reader).mergeSort
          fun a b => PartRegistry.segmentStart scan.tenant a ≤ PartRegistry.segmentStart scan.tenant b :=
    List.map_mergeSort fun a _ b _ => rfl
  rw [PartRegistry.candidates, List.filter_map, candidateParts, map_inDirection, hmap]
  rfl

/-- The candidates hold all answers of the parts. -/
theorem answersIn_candidateParts (parts : List (StoredPart P)) :
    (scan.answersIn P ((scan.candidateParts parts).flatMap fun part =>
        part.admittedOf scan.tenant scan.query.lineFilters)).Perm
      (scan.answersIn P (parts.flatMap fun part =>
        part.admittedOf scan.tenant scan.query.lineFilters)) := by
  refine (List.Perm.filterMap _ (((inDirection_perm _ _).trans
    (List.mergeSort_perm _ _)).flatMap_right _)).trans ?_
  rw [answersIn, List.filterMap_flatMap, List.filterMap_flatMap, Runs.flatMap_filter_of_nil]
  exact fun part _ hnot => answersIn_of_not_candidate hnot

theorem registry (h : scan.Collects rows seen) (parts : List (StoredPart P))
    (evict : LogPart → ℕ → GroupCache.Eviction) (hpos : scan.limit ≠ 0) :
    ∃ rows', PartRegistry.scanInto P (pipelineSink P scan.query scan.hidden) scan.request evict
        (parts.map StoredPart.reader) rows = .ok rows' ∧
      scan.Collects rows' (seen ++ scan.answersIn P
        (parts.flatMap fun part => part.admittedOf scan.tenant scan.query.lineFilters)) := by
  have hopen : (pipelineSink P scan.query scan.hidden).isClosed rows = false := by
    change rows.isClosed = false
    rw [TopKRows.isClosed, h.limit]
    exact beq_false_of_ne hpos
  rw [PartRegistry.scanInto, hopen, Bool.or_false]
  split
  case isTrue hempty =>
    obtain rfl : parts = [] := List.map_eq_nil_iff.1 (List.isEmpty_iff.1 hempty)
    exact ⟨rows, rfl, by rwa [List.flatMap_nil, answersIn, List.filterMap_nil, List.append_nil]⟩
  case isFalse =>
    obtain ⟨rows', hfold, h'⟩ := h.foldlM_scanReader (scan.candidateParts parts) evict hpos
    exact ⟨rows', by rw [candidates_eq]; exact hfold,
      h'.perm (List.Perm.append_left _ (answersIn_candidateParts parts))⟩

end Collects

/-! ### The result -/

/-- A row that stands before another in the direction of a query. -/
def Better (forward : Bool) (a b : LogEntry) : Prop :=
  if forward then a.timestampNs < b.timestampNs else b.timestampNs < a.timestampNs

def timesInDirection (forward : Bool) (entries : List LogEntry) : List Nanos :=
  inDirection forward ((entries.map LogEntry.timestampNs).mergeSort (· ≤ ·))

/-- Some rows are a plain top-k of all. -/
structure IsTopK (forward : Bool) (limit : ℕ) (rows all : List LogEntry) : Prop where
  count : rows.length = min limit all.length
  times : rows.map LogEntry.timestampNs = (timesInDirection forward all).take limit
  /-- A row that is left out stands before none that is returned. -/
  leftOut : ∃ left, (rows ++ left).Perm all ∧ ∀ out ∈ left, ∀ row ∈ rows, ¬ Better forward out row

theorem better_iff {forward : Bool} {a b : LogEntry} :
    Better forward a b ↔ a.rank forward < b.rank forward := by
  cases forward with
  | true => exact Subtype.coe_lt_coe.symm
  | false => exact Subtype.coe_lt_coe.symm.trans neg_lt_neg_iff.symm

theorem timeRank_injective (forward : Bool) : Function.Injective (timeRank forward) := by
  intro a b h
  cases forward with
  | true => exact Subtype.coe_injective h
  | false => exact Subtype.coe_injective (neg_injective h)

/-- The timestamps in a direction are those of the ranks in order. -/
theorem map_timesInDirection (forward : Bool) (entries : List LogEntry) :
    (timesInDirection forward entries).map (timeRank forward)
      = (entries.map (LogEntry.rank forward)).mergeSort (· ≤ ·) := by
  have htimes : ((entries.map LogEntry.timestampNs).mergeSort (· ≤ ·)).Pairwise (· ≤ ·) :=
    List.pairwise_mergeSort' (· ≤ ·) _
  refine List.Perm.eq_of_pairwise' ?_ (List.pairwise_mergeSort' (· ≤ ·) _) ?_
  · rw [List.pairwise_map, timesInDirection]
    cases forward with
    | true => exact htimes.imp fun hle => Subtype.coe_le_coe.2 hle
    | false =>
      rw [inDirection, if_neg Bool.false_ne_true, List.pairwise_reverse]
      exact htimes.imp fun hle => neg_le_neg (Subtype.coe_le_coe.2 hle)
  · refine List.Perm.trans ?_ (List.mergeSort_perm _ _).symm
    have hperm := (inDirection_perm forward _).trans
      (List.mergeSort_perm (entries.map LogEntry.timestampNs) (· ≤ ·))
    have hranks := hperm.map (timeRank forward)
    rwa [List.map_map] at hranks

/-- Rows in order are a plain top-k if and only if they are the best. -/
theorem isTopK_iff {forward : Bool} {limit : ℕ} {rows all : List LogEntry}
    (hsorted : (rows.map (LogEntry.rank forward)).Pairwise (· ≤ ·)) :
    IsTopK forward limit rows all ↔ Best (LogEntry.rank forward) limit rows all := by
  constructor
  · rintro ⟨hcount, -, left, hperm, hout⟩
    refine ⟨left, hperm, hcount, fun a ha b hb => ?_⟩
    exact not_lt.1 fun hlt => hout b hb a ha (better_iff.2 hlt)
  · intro hbest
    have hkeys := hbest.keys hsorted
    obtain ⟨left, hperm, hcount, hle⟩ := hbest
    refine ⟨hcount, ?_, left, hperm, fun out hout row hrow hbetter => ?_⟩
    · refine List.map_injective_iff.2 (timeRank_injective forward) ?_
      rw [List.map_map, List.map_take, map_timesInDirection]
      exact hkeys
    · exact absurd (better_iff.1 hbetter) (not_lt.2 (hle row hrow out hout))

/-- A query answers with the best of what the trigrams admit, in order. -/
theorem run_spec (scan : LogScan) (evict : LogPart → ℕ → GroupCache.Eviction) (memtable : MemTable)
    (parts : List (StoredPart P)) :
    ∃ rows, scan.run P evict memtable (parts.map StoredPart.reader) = .ok (groupByLabels rows) ∧
      (rows.map (LogEntry.rank scan.forward)).Pairwise (· ≤ ·) ∧
      Best (LogEntry.rank scan.forward) scan.limit rows (scan.admitted memtable parts) := by
  have hstart : scan.Collects (.new scan.limit scan.forward) [] :=
    ⟨TopKRows.new_holds _ _, rfl, rfl⟩
  by_cases hzero : scan.limit = 0
  · -- a closed sink: nothing is read
    have hclosed : (pipelineSink P scan.query scan.hidden).isClosed
        (.new scan.limit scan.forward) = true := beq_iff_eq.2 hzero
    refine ⟨[], ?_, .nil, ?_⟩
    · rw [run, runInto, MemTable.scanInto, hclosed, if_pos rfl]
      change ((PartRegistry.scanInto P _ scan.request evict _ _).map _) = _
      rw [PartRegistry.scanInto, hclosed, Bool.or_true, if_pos rfl]
      simp only [Except.map, TopKRows.intoRows, TopKRows.new, List.mergeSort_nil]
    · rw [hzero]
      exact ⟨_, .refl _, by simp, by simp⟩
  · have hopen : (TopKRows.new scan.limit scan.forward).isClosed = false := beq_false_of_ne hzero
    obtain ⟨rows₁, hmemtable, h₁⟩ := hstart.memtable (P := P) memtable hopen
    obtain ⟨rows', hparts, h'⟩ := h₁.registry parts evict hzero
    obtain ⟨hbest, hsorted⟩ := h'.holds.intoRows
    rw [h'.limit, h'.forward] at hbest
    rw [h'.forward] at hsorted
    refine ⟨rows'.intoRows, ?_, hsorted, ?_⟩
    · rw [run, runInto, hmemtable]
      change ((PartRegistry.scanInto P _ scan.request evict _ rows₁).map _) = _
      rw [hparts]
      rfl
    · rw [admitted, answersIn, List.filterMap_append]
      exact hbest

/-- The small letter of a capital, for ASCII and the letters of one Greek word. -/
def letterLower (c : Char) : Char :=
  if c = 'Ο' then 'ο' else if c = 'Δ' then 'δ' else if c = 'Σ' then 'σ' else c.toLower

/-- `str::to_lowercase`: a capital sigma after a letter and before none is a final one. -/
def lowerText : Bool → List Char → List Char
  | _, [] => []
  | afterLetter, c :: chars =>
    (if c = 'Σ' && afterLetter && !(chars.head?.any fun next => letterLower next != next) then 'ς'
      else letterLower c) :: lowerText (letterLower c != c || c.isAlpha) chars

/-- A platform for lines with that word. -/
def greekPlatform : Platform :=
  { plainPlatform with
    charLower := fun c => [letterLower c]
    textLower := lowerText false }

def greekEntry : String × LogEntry := ("tenant", ⟨.one, "ΟΔΟΣ", []⟩)

def greekRow : Row := Row.fromEntry greekEntry.1 greekEntry.2.canonicalized

theorem exists_greekPart : ∃ part, Written greekPlatform part [greekRow] := by
  have htokens : TokensFit greekRow
      (Logql.extractJson greekPlatform.parseJson greekEntry.2.line) := by
    intro p hp
    have hnone : indexedFields greekRow (Logql.extractJson greekPlatform.parseJson greekEntry.2.line)
        = [] := by decide +kernel
    rw [hnone] at hp
    cases hp
  obtain ⟨part, hwritten, -⟩ := exists_partOf greekEntry htokens
  exact ⟨part, hwritten⟩

/-- The search for a line by itself. -/
def greekScan : LogScan := ⟨"tenant", ⟨[], [.contains "ΟΔΟΣ"], []⟩, .unbounded, 10, true, none⟩

/-- The trigrams of the line lack one of the text. -/
theorem greek_rejected {part : StoredPart greekPlatform}
    (hrows : part.groups.flatten.map Prod.fst = [greekRow]) {g : ℕ} (hg : g < part.groups.length) :
    trigramsAdmit greekPlatform [.contains "ΟΔΟΣ"] part.reader.part g = false := by
  have hget := List.getElem?_eq_getElem hg
  set group := part.groups[g] with hgroup
  have hmem : group ∈ part.groups := List.getElem_mem hg
  have hlines : group.map (fun r => r.1.line) = ["ΟΔΟΣ"] := by
    -- the group is not empty, and there is no other row
    obtain ⟨r, hr⟩ := List.exists_mem_of_ne_nil group (part.layout.cut.nonempty group hmem)
    have hsub : (group.map Prod.fst).Sublist [greekRow] := by
      rw [← hrows]
      exact (List.sublist_flatten_of_mem hmem).map Prod.fst
    have hone : group.map Prod.fst = [greekRow] := by
      refine hsub.eq_of_length_le ?_
      rw [List.length_map, List.length_singleton]
      exact List.length_pos_of_mem hr
    have hline := congrArg (List.map Row.line) hone
    rwa [List.map_map] at hline
  have hindex := Runs.getElem?_of_mapM_some part.layout.index g
  rw [hget, Option.bind_some] at hindex
  obtain ⟨blooms, -, hblooms⟩ := Runs.mem_of_mapM_some part.layout.index hmem
  have hline : blooms.line
      = lineBloom greekPlatform.lineSizing greekPlatform.charLower ["ΟΔΟΣ"] := by
    obtain ⟨windows, -, rfl⟩ := Option.map_eq_some_iff.1 hblooms
    rw [← hlines]
  rw [trigramsAdmit, ← hindex, hblooms, Option.all_some, pruneLiterals, List.flatMap_singleton,
    List.all_cons, List.all_nil, Bool.and_true, hline]
  decide +kernel

end LogScan

end Part

end Obsy
