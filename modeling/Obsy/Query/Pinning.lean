import Obsy.Query.Bodies

/-!
# Pinning

Before a query reads, it asks the catalogs which parts it will need and restores the bodies that are
gone.  This is a reading of the request of its own: nothing but the agreement of the two keeps the
query off a part that was not restored.

* `Query.required`, `Query.reads`: what the pin step restores, and what the query reads.
* `Query.Covered`: when the first has all of the second.
* `Query.reads_required_iff`: it does so exactly then.
-/

namespace Obsy

namespace Query

open Metrics (Floats Layout MetricLimits MetricScanRequest DiscoveryRequest MetricFilter SeriesLabels
  SeriesMemTable SeriesPartReader SeriesRow catalogRows metricNameLabel scanMetricSeries
  discoverSeries)
open Part (GroupCache LogPart MemTable Nanos PartReader Platform QueryTimeRange RowSink ScanRequest
  TopKRows)

variable {ν : Type}

/-! ### The server -/

/-- A registered metric part: what a writer laid out. -/
structure StoredSeries (ν : Type) where
  reader : SeriesPartReader ν
  rows : List (SeriesRow ν)
  layout : Layout reader.part rows
  bloom : reader.bloom = reader.part.bloomFile
  body : reader.part.data = some (rows.map SeriesRow.payload)

def StoredSeries.id (part : StoredSeries ν) : String := part.reader.part.info.id

/-- The data of a server.  The parts are whole in the object store; the lists of bodies say of which
parts the disk has them too. -/
structure Server (ν : Type) where
  memtable : MemTable
  seriesMemtable : SeriesMemTable ν
  logs : List PartReader
  series : List (StoredSeries ν)
  nodup : (series.map StoredSeries.id).Nodup
  logBodies : List String
  seriesBodies : List String

namespace Server

def readers (server : Server ν) : List (SeriesPartReader ν) :=
  server.series.map StoredSeries.reader

/-- Every body is there. -/
def full (server : Server ν) : Server ν :=
  { server with
    logBodies := server.logs.map (·.part.info.id)
    seriesBodies := server.series.map StoredSeries.id }

end Server

/-! ### Requests -/

/-- The sink of the sampled metadata. -/
def sampleSink : RowSink TopKRows where
  accept rows entry := .ok (rows.offer entry)
  frontierNs := TopKRows.frontierNs
  isClosed := TopKRows.isClosed

/-- `METADATA_SAMPLE_ROWS`. -/
def metadataSampleRows : ℕ := 1000

/-- The scan of `sample_metadata`: the newest rows of a window, both ends of it included. -/
def sampleRequest (tenant : String) (startNs endNs : Nanos) : ScanRequest :=
  ⟨tenant, [], [], ⟨startNs, endNs, true⟩, false, none⟩

end Query

/-- A request for logs or metrics.  A log query, a count and a tail differ in their sinks. -/
inductive Query where
  | logs (σ : Type) (sink : Part.RowSink σ) (start : σ) (request : Part.ScanRequest)
  | attributeValues (tenant : String) (startNs endNs : Part.Nanos)
  | metrics (tenant : String) (request : Metrics.MetricScanRequest)
  | discovery (tenant : String) (request : Metrics.DiscoveryRequest)

namespace Query

open Metrics (Floats Layout MetricLimits MetricScanRequest DiscoveryRequest MetricFilter SeriesLabels
  SeriesMemTable SeriesPartReader SeriesRow catalogRows metricNameLabel scanMetricSeries
  discoverSeries)
open Part (GroupCache LogPart MemTable Nanos PartReader Platform QueryTimeRange RowSink ScanRequest
  TopKRows)

variable {ν : Type}

/-- The equalities among the filters. -/
def equalities (filters : List MetricFilter) : List (String × String) :=
  filters.filterMap fun filter =>
    match filter with
    | .eq key value => some (key, value)
    | _ => none

/-- Every pair of a label and a value that a request states, the name of the metric too. -/
def statedPairs (request : MetricScanRequest) : List (String × String) :=
  request.metric.toList.map (fun name => (metricNameLabel, name)) ++ equalities request.filters

section

variable (P : Platform)

/-- `candidate_part_ids_with_exact_fields`. -/
def pinQueryParts (readers : List PartReader) (request : ScanRequest) : List String :=
  (readers.filter (Part.mayMatch P request)).map (·.part.info.id)

/-- The parts that `pin_metric_parts` asks for. -/
def pinMetricParts (readers : List (SeriesPartReader ν)) (tenant : String)
    (request : MetricScanRequest) : List String :=
  (readers.filter fun reader =>
    (reader.part.info.tenantSegment tenant).isSome &&
      reader.part.info.overlapsRange request.decodeStartNs request.endNs &&
      request.metric.all (fun name => reader.mayMatchPair metricNameLabel name) &&
      (equalities request.filters).all fun pair => reader.mayMatchPair pair.1 pair.2).map
    (·.part.info.id)

/-- The parts that `pin_discovery_parts` asks for. -/
def pinDiscoveryParts (readers : List (SeriesPartReader ν)) (tenant : String)
    (request : DiscoveryRequest) : List String :=
  ((readers.filter fun reader =>
    (reader.part.info.tenantSegment tenant).isSome &&
      reader.part.info.overlapsRange request.startNs request.endNs).filter fun reader =>
    (reader.tenantCatalog tenant).any fun row =>
      row.overlaps (reader.window request.startNs request.endNs) && row.kind == .histogram).map
    (·.part.info.id)

/-- The parts that a request has pinned.  The attribute values pin none. -/
def required (server : Server ν) : Query → List String
  | .logs _ _ _ request => pinQueryParts P server.logs request
  | .attributeValues .. => []
  | .metrics tenant request => pinMetricParts server.readers tenant request
  | .discovery tenant request => pinDiscoveryParts server.readers tenant request

/-- The parts that a request reads from, if no limit and no error ends it before. -/
def reads (server : Server ν) : Query → List String
  | .logs _ _ _ request => (Part.readParts P request server.logs).map (·.part.info.id)
  | .attributeValues tenant startNs endNs =>
    (Part.readParts P (sampleRequest tenant startNs endNs) server.logs).map (·.part.info.id)
  | .metrics tenant request =>
    (catalogRows server.readers tenant request.decodeStartNs request.endNs request.wants).map
      (·.1.part.info.id)
  | .discovery tenant request =>
    (catalogRows server.readers tenant request.startNs request.endNs
      fun row => row.kind == .histogram).map (·.1.part.info.id)

/-- `pin_remote_parts`, which restores what is missing of the required parts. -/
def pin (query : Query) (server : Server ν) : Server ν :=
  match query with
  | .logs .. =>
    { server with logBodies := server.logBodies ++
        (query.required P server).filter fun id => id ∉ server.logBodies }
  | .attributeValues .. => server
  | .metrics .. | .discovery .. =>
    { server with seriesBodies := server.seriesBodies ++
        (query.required P server).filter fun id => id ∉ server.seriesBodies }

/-- What a request answers with. -/
def Answer (ν : Type) : Query → Type
  | .logs σ .. => σ
  | .attributeValues .. => TopKRows
  | .metrics .. => List (SeriesLabels × List (Nanos × ν))
  | .discovery .. => List SeriesLabels

/-- The answer to a request, with the bodies that are there. -/
def answer (F : Floats ν) (limits : MetricLimits) (evict : LogPart → ℕ → GroupCache.Eviction)
    (server : Server ν) : (query : Query) → Except String (query.Answer ν)
  | .logs _ sink start request => do
    let s ← server.memtable.scanInto sink request start
    Part.scanRegistry P sink request evict server.logBodies server.logs s
  | .attributeValues tenant startNs endNs =>
    Part.scanRegistry P sampleSink (sampleRequest tenant startNs endNs) evict server.logBodies
      server.logs (.new metadataSampleRows false)
  | .metrics tenant request =>
    scanMetricSeries F limits server.seriesMemtable
      (server.readers.map (SeriesPartReader.keep server.seriesBodies)) tenant request
  | .discovery tenant request =>
    discoverSeries F server.seriesMemtable
      (server.readers.map (SeriesPartReader.keep server.seriesBodies)) tenant request

/-- The request pins all it reads: the attribute values have nothing to read, and where a metric
query picks a series that does not have a pair it states, the filter of the part admits the pair
all the same. -/
def Covered (server : Server ν) : Query → Prop
  | .logs .. | .discovery .. => True
  | .attributeValues tenant startNs endNs =>
    ∀ reader ∈ server.logs,
      Part.PartRegistry.isCandidate tenant ⟨startNs, endNs, true⟩ reader = true →
        Part.mayMatch P (sampleRequest tenant startNs endNs) reader = false
  | .metrics tenant request =>
    ∀ picked ∈ catalogRows server.readers tenant request.decodeStartNs request.endNs request.wants,
      ∀ pair ∈ statedPairs request, picked.2.labels.value pair.1 ≠ some pair.2 →
        picked.1.mayMatchPair pair.1 pair.2 = true

end

/-! ### Agreement -/

variable {P : Platform} {server : Server ν}

/-- A row of a part comes from a tenant with a segment, and from a part of the window. -/
theorem mem_catalogRows {readers : List (SeriesPartReader ν)} {tenant : String}
    {startNs endNs : Nanos} {wanted : Metrics.CatalogRow → Bool}
    {picked : SeriesPartReader ν × Metrics.CatalogRow} :
    picked ∈ catalogRows readers tenant startNs endNs wanted ↔
      picked.1 ∈ readers ∧ picked.1.part.info.overlapsRange startNs endNs = true ∧
        picked.2 ∈ picked.1.tenantCatalog tenant ∧
        picked.2.overlaps (picked.1.window startNs endNs) = true ∧ wanted picked.2 = true := by
  simp only [catalogRows, List.mem_flatMap, List.mem_filter, List.mem_map, Bool.and_eq_true]
  constructor
  · rintro ⟨reader, ⟨hreader, hrange⟩, row, ⟨hrow, hwindow, hwanted⟩, rfl⟩
    exact ⟨hreader, hrange, hrow, hwindow, hwanted⟩
  · rintro ⟨hreader, hrange, hrow, hwindow, hwanted⟩
    exact ⟨picked.1, ⟨hreader, hrange⟩, picked.2, ⟨hrow, hwindow, hwanted⟩, rfl⟩

theorem tenantSegment_isSome {reader : SeriesPartReader ν} {tenant : String}
    {row : Metrics.CatalogRow} (h : row ∈ reader.tenantCatalog tenant) :
    (reader.part.info.tenantSegment tenant).isSome = true := by
  rw [SeriesPartReader.tenantCatalog] at h
  split at h
  · rename_i hsegment
    rw [hsegment]
    rfl
  · cases h

/-- The filter of a part admits the pairs of its series. -/
theorem StoredSeries.mayMatchPair (part : StoredSeries ν) {tenant key value : String}
    {row : Metrics.CatalogRow} (hrow : row ∈ part.reader.tenantCatalog tenant)
    (hvalue : row.labels.value key = some value) :
    part.reader.mayMatchPair key value = true := by
  have hindex : row ∈ part.reader.part.index := by
    rw [SeriesPartReader.tenantCatalog] at hrow
    split at hrow
    · exact List.mem_of_mem_drop (List.mem_of_mem_take hrow)
    · cases hrow
  rw [part.layout.index] at hindex
  obtain ⟨entry, hentry, rfl⟩ := List.mem_map.1 hindex
  have hseries : entry.1 ∈ part.rows :=
    List.mem_of_getElem? (List.mk_mem_zipIdx_iff_getElem?.1 hentry)
  obtain ⟨pairs, hpairs, hhas⟩ := part.layout.pairs entry.1 hseries
  have hfind : (pairs.find? fun pair => pair.1 == key).map Prod.snd = some value :=
    (SeriesLabels.value_eq hpairs key).symm.trans hvalue
  obtain ⟨pair, hpair, rfl⟩ := Option.map_eq_some_iff.1 hfind
  have hkey : (pair.1 == key) = true := 
    List.find?_some (p := fun pair : String × String => pair.1 == key) hpair
  rw [SeriesPartReader.mayMatchPair, part.bloom, ← beq_iff_eq.1 hkey]
  exact hhas pair (List.mem_of_find?_eq_some hpair)

theorem mem_statedPairs {request : MetricScanRequest} {pair : String × String} :
    pair ∈ statedPairs request ↔
      (∃ name, request.metric = some name ∧ pair = (metricNameLabel, name)) ∨
        pair ∈ equalities request.filters := by
  rw [statedPairs, List.mem_append, List.mem_map]
  simp only [Option.mem_toList]
  constructor
  · rintro (⟨name, hname, rfl⟩ | h)
    · exact .inl ⟨name, hname, rfl⟩
    · exact .inr h
  · rintro (⟨name, hname, rfl⟩ | h)
    · exact .inl ⟨name, hname, rfl⟩
    · exact .inr h

/-- What `pin_metric_parts` asks of a part: a segment, the window, and every stated pair. -/
theorem mem_pinMetricParts {readers : List (SeriesPartReader ν)} {tenant id : String}
    {request : MetricScanRequest} :
    id ∈ pinMetricParts readers tenant request ↔
      ∃ reader ∈ readers, reader.part.info.id = id ∧
        (reader.part.info.tenantSegment tenant).isSome = true ∧
        reader.part.info.overlapsRange request.decodeStartNs request.endNs = true ∧
        ∀ pair ∈ statedPairs request, reader.mayMatchPair pair.1 pair.2 = true := by
  have hpairs : ∀ reader : SeriesPartReader ν,
      ((request.metric.all (fun name => reader.mayMatchPair metricNameLabel name) &&
        (equalities request.filters).all fun pair => reader.mayMatchPair pair.1 pair.2) = true ↔
        ∀ pair ∈ statedPairs request, reader.mayMatchPair pair.1 pair.2 = true) := by
    intro reader
    rw [Bool.and_eq_true, List.all_eq_true]
    simp only [mem_statedPairs]
    constructor
    · rintro ⟨hname, heq⟩ pair (⟨name, hmetric, rfl⟩ | hpair)
      · rw [hmetric] at hname
        exact hname
      · exact heq pair hpair
    · refine fun h => ⟨?_, fun pair hpair => h pair (.inr hpair)⟩
      cases hmetric : request.metric with
      | none => rfl
      | some name => exact h _ (.inl ⟨name, hmetric, rfl⟩)
  simp only [pinMetricParts, List.mem_map, List.mem_filter, Bool.and_eq_true, and_assoc]
  constructor
  · rintro ⟨reader, hreader, hsegment, hrange, hname, heq, hid⟩
    exact ⟨reader, hreader, hid, hsegment, hrange,
      (hpairs reader).1 (Bool.and_eq_true _ _ ▸ ⟨hname, heq⟩)⟩
  · rintro ⟨reader, hreader, hid, hsegment, hrange, hall⟩
    have hboth := (hpairs reader).2 hall
    rw [Bool.and_eq_true] at hboth
    exact ⟨reader, hreader, hsegment, hrange, hboth.1, hboth.2, hid⟩

theorem Server.reader_unique {a b : SeriesPartReader ν} (ha : a ∈ server.readers)
    (hb : b ∈ server.readers) (h : a.part.info.id = b.part.info.id) : a = b := by
  obtain ⟨pa, hpa, rfl⟩ := List.mem_map.1 ha
  obtain ⟨pb, hpb, rfl⟩ := List.mem_map.1 hb
  rw [List.inj_on_of_nodup_map server.nodup hpa hpb h]

/-- A metric query pins what it reads exactly if the filters admit what its series do not state. -/
theorem reads_required_metrics {tenant : String} {request : MetricScanRequest} :
    (∀ id ∈ (metrics tenant request).reads P server, id ∈ (metrics tenant request).required P server)
      ↔ (metrics tenant request).Covered P server := by
  constructor
  · intro h picked hpicked pair hpair hother
    have hid := h _ (List.mem_map_of_mem hpicked)
    obtain ⟨reader, hreader, hsame, -, -, hall⟩ := mem_pinMetricParts.1 hid
    rw [← Server.reader_unique hreader (mem_catalogRows.1 hpicked).1 hsame]
    exact hall pair hpair
  · intro h id hid
    obtain ⟨picked, hpicked, rfl⟩ := List.mem_map.1 hid
    obtain ⟨hreader, hrange, hrow, -, -⟩ := mem_catalogRows.1 hpicked
    refine mem_pinMetricParts.2 ⟨picked.1, hreader, rfl, tenantSegment_isSome hrow, hrange, ?_⟩
    intro pair hpair
    by_cases hvalue : picked.2.labels.value pair.1 = some pair.2
    · obtain ⟨part, -, hpart⟩ := List.mem_map.1 hreader
      rw [← hpart] at hrow ⊢
      exact part.mayMatchPair hrow hvalue
    · exact h picked hpicked pair hpair hvalue

/-- A discovery reads from the parts with a histogram in its window, and pins them. -/
theorem reads_required_discovery {tenant : String} {request : DiscoveryRequest} :
    ∀ id ∈ (discovery tenant request).reads P server,
      id ∈ (discovery tenant request).required P server := by
  intro id hid
  obtain ⟨picked, hpicked, rfl⟩ := List.mem_map.1 hid
  obtain ⟨hreader, hrange, hrow, hwindow, hkind⟩ := mem_catalogRows.1 hpicked
  refine List.mem_map_of_mem (List.mem_filter.2 ⟨List.mem_filter.2 ⟨hreader, ?_⟩, ?_⟩)
  · rw [tenantSegment_isSome hrow, hrange]
    rfl
  · exact List.any_eq_true.2 ⟨picked.2, hrow, Bool.and_eq_true _ _ ▸ ⟨hwindow, hkind⟩⟩

/-- The parts a log scan reads from are candidates, and their catalogs may match. -/
theorem mem_readParts {request : ScanRequest} {readers : List PartReader} {reader : PartReader} :
    reader ∈ Part.readParts P request readers ↔ reader ∈ readers ∧
      Part.PartRegistry.isCandidate request.tenant request.range reader = true ∧
        Part.mayMatch P request reader = true := by
  rw [Part.readParts, List.mem_filter, Part.PartRegistry.candidates, Part.mem_inDirection,
    List.mem_mergeSort, List.mem_filter, and_assoc]

theorem reads_required_logs {σ : Type} {sink : RowSink σ} {start : σ} {request : ScanRequest} :
    ∀ id ∈ (logs σ sink start request).reads P server,
      id ∈ (logs σ sink start request).required P server := by
  intro id hid
  obtain ⟨reader, hreader, rfl⟩ := List.mem_map.1 hid
  obtain ⟨hmem, -, hmatch⟩ := mem_readParts.1 hreader
  exact List.mem_map_of_mem (List.mem_filter.2 ⟨hmem, hmatch⟩)

theorem reads_attributeValues {tenant : String} {startNs endNs : Nanos} :
    (∀ id ∈ (attributeValues tenant startNs endNs).reads P server,
      id ∈ (attributeValues tenant startNs endNs).required P server) ↔
      (attributeValues tenant startNs endNs).Covered P server := by
  constructor
  · intro h reader hreader hcandidate
    by_contra hmatch
    have hread := mem_readParts.2 ⟨hreader, hcandidate, Bool.of_not_eq_false hmatch⟩
    exact List.not_mem_nil (h _ (List.mem_map_of_mem hread))
  · intro h id hid
    obtain ⟨reader, hreader, rfl⟩ := List.mem_map.1 hid
    obtain ⟨hmem, hcandidate, hmatch⟩ := mem_readParts.1 hreader
    rw [h reader hmem hcandidate] at hmatch
    cases hmatch

/-- What was required is there once it is pinned. -/
theorem mem_pinned {bodies required : List String} {id : String} (h : id ∈ required) :
    id ∈ bodies ++ required.filter fun id => id ∉ bodies := by
  by_cases hid : id ∈ bodies
  · exact List.mem_append_left _ hid
  · exact List.mem_append_right _ (List.mem_filter.2 ⟨h, decide_eq_true hid⟩)

/-- A query that pins all it reads answers as if every body were there. -/
theorem answer_pin (F : Floats ν) (limits : MetricLimits) (evict : LogPart → ℕ → GroupCache.Eviction)
    {query : Query} (h : ∀ id ∈ query.reads P server, id ∈ query.required P server) :
    query.answer P F limits evict (query.pin P server) =
      query.answer P F limits evict server.full := by
  cases query with
  | logs σ sink start request =>
    refine congrArg _ (funext fun s => Part.scanRegistry_congr (fun reader hreader => ?_) s)
    exact iff_of_true (mem_pinned (h _ (List.mem_map_of_mem hreader)))
      (List.mem_map_of_mem (mem_readParts.1 hreader).1)
  | attributeValues tenant startNs endNs =>
    refine Part.scanRegistry_congr (fun reader hreader => ?_) _
    exact absurd (h _ (List.mem_map_of_mem hreader)) List.not_mem_nil
  | metrics tenant request =>
    refine Metrics.scanMetricSeries_congr fun picked hpicked => ?_
    obtain ⟨part, hpart, hreader⟩ := List.mem_map.1 (mem_catalogRows.1 hpicked).1
    exact iff_of_true (mem_pinned (h _ (List.mem_map_of_mem hpicked)))
      (hreader ▸ List.mem_map_of_mem hpart)
  | discovery tenant request =>
    refine Metrics.discoverSeries_congr fun picked hpicked => ?_
    obtain ⟨part, hpart, hreader⟩ := List.mem_map.1 (mem_catalogRows.1 hpicked).1
    exact iff_of_true (mem_pinned (h _ (List.mem_map_of_mem hpicked)))
      (hreader ▸ List.mem_map_of_mem hpart)

/-- **Pinning.**  A request pins every part it reads from exactly if it is `Covered`, and then it
answers as if no body were gone. -/
theorem reads_required_iff (P : Platform) (server : Server ν) (query : Query) :
    ((∀ id ∈ query.reads P server, id ∈ query.required P server) ↔ query.Covered P server) ∧
      (query.Covered P server → ∀ (F : Floats ν) (limits : MetricLimits)
        (evict : LogPart → ℕ → GroupCache.Eviction),
        query.answer P F limits evict (query.pin P server) =
          query.answer P F limits evict server.full) := by
  have hiff : (∀ id ∈ query.reads P server, id ∈ query.required P server) ↔
      query.Covered P server := by
    cases query with
    | logs => exact iff_of_true reads_required_logs trivial
    | attributeValues => exact reads_attributeValues
    | metrics => exact reads_required_metrics
    | discovery => exact iff_of_true reads_required_discovery trivial
  exact ⟨hiff, fun h F limits evict => answer_pin F limits evict (hiff.2 h)⟩

/-! ### Series that do not state what they are asked for -/

/-- A server with one metric part, whose body is gone. -/
def evicted (part : StoredSeries ν) : Server ν :=
  ⟨⟨[], none⟩, .new, [], [part], List.nodup_singleton _, [], []⟩

/-- A metric query that picks a series of a part and does not ask for the part fails. -/
theorem evicted_fails {part : StoredSeries ν} {tenant : String} {request : MetricScanRequest}
    (hpin : pinMetricParts [part.reader] tenant request = [])
    (hpick : catalogRows [part.reader] tenant request.decodeStartNs request.endNs request.wants ≠ []) :
    (¬ ∀ id ∈ (metrics tenant request).reads P (evicted part),
      id ∈ (metrics tenant request).required P (evicted part)) ∧
    ∀ F limits evict series, (metrics tenant request).answer P F limits evict
      ((metrics tenant request).pin P (evicted part)) ≠ .ok series := by
  obtain ⟨picked, hpicked⟩ := List.exists_mem_of_ne_nil _ hpick
  have hrequired : (metrics tenant request).required P (evicted part) = [] := hpin
  refine ⟨fun h => ?_, fun F limits evict series h => ?_⟩
  · have hid := h _ (List.mem_map_of_mem hpicked)
    rw [hrequired] at hid
    cases hid
  · have hbodies : ((metrics tenant request).pin P (evicted part)).seriesBodies = [] := by
      rw [pin, hrequired]
      rfl
    have hid := Metrics.mem_of_scanMetricSeries h hpicked
    rw [hbodies] at hid
    cases hid

/-- A stored histogram, by its own name. -/
def oneHistogram : List (SeriesRow Unit) :=
  [⟨"acme", .fromPairs [(metricNameLabel, "h")], .histogram [(Nanos.zero, ⟨[], [], none, 1⟩)]⟩]

/-- A query for one of the series that it answers as. -/
def countRequest : MetricScanRequest := ⟨some "h_count", [], Nanos.zero, Nanos.zero, 1, Nanos.zero⟩

/-- A gauge without labels. -/
def oneGauge : List (SeriesRow Unit) :=
  [⟨"acme", .fromPairs [(metricNameLabel, "g")], .scalar [(Nanos.zero, ())]⟩]

/-- A query for a gauge that has no host. -/
def noHostRequest : MetricScanRequest :=
  ⟨some "g", [.eq "host" ""], Nanos.zero, Nanos.zero, 1, Nanos.zero⟩

/-- The parts of the two, whose filters reject the two requests. -/
theorem exists_part (rows : List (SeriesRow Unit)) (request : MetricScanRequest)
    (good : SeriesPartReader Unit → Bool)
    (h : (match Metrics.writeSeriesPart (fun _ => (64, 2)) "uuid" 0 1 rows with
      | .error _ => false
      | .ok part =>
        (pinMetricParts [⟨part, part.bloomFile⟩] "acme" request).isEmpty &&
        !(catalogRows [⟨part, part.bloomFile⟩] "acme" request.decodeStartNs request.endNs
          request.wants).isEmpty && good ⟨part, part.bloomFile⟩) = true) :
    ∃ part : StoredSeries Unit, pinMetricParts [part.reader] "acme" request = [] ∧
      catalogRows [part.reader] "acme" request.decodeStartNs request.endNs request.wants ≠ [] ∧
      good part.reader = true := by
  split at h
  · cases h
  · rename_i part hpart
    obtain ⟨hlayout, hbody⟩ := Metrics.layout_writeSeriesPart (fun _ => Nat.succ_pos 63) hpart
    simp only [Bool.and_eq_true, List.isEmpty_iff, Bool.not_eq_true', List.isEmpty_eq_false_iff] at h
    exact ⟨⟨⟨part, part.bloomFile⟩, rows, hlayout, rfl, hbody⟩, h.1.1, h.1.2, h.2⟩

theorem pinning_misses_parts :
    (∃ part : StoredSeries Unit,
      (¬ ∀ id ∈ (metrics "acme" countRequest).reads Part.plainPlatform (evicted part),
        id ∈ (metrics "acme" countRequest).required Part.plainPlatform (evicted part)) ∧
      ∀ F limits evict series, (metrics "acme" countRequest).answer Part.plainPlatform F limits evict
        ((metrics "acme" countRequest).pin Part.plainPlatform (evicted part)) ≠ .ok series) ∧
    ∃ part : StoredSeries Unit,
      (¬ ∀ id ∈ (metrics "acme" noHostRequest).reads Part.plainPlatform (evicted part),
        id ∈ (metrics "acme" noHostRequest).required Part.plainPlatform (evicted part)) ∧
      (∀ F limits evict series,
        (metrics "acme" noHostRequest).answer Part.plainPlatform F limits evict
          ((metrics "acme" noHostRequest).pin Part.plainPlatform (evicted part)) ≠ .ok series) ∧
      ∃ F limits, ∀ evict, ∃ series,
        (metrics "acme" noHostRequest).answer Part.plainPlatform F limits evict
          (evicted part).full = .ok series := by
  obtain ⟨histogram, hpin, hpick, -⟩ := exists_part oneHistogram countRequest (fun _ => true)
    (by decide +kernel)
  obtain ⟨gauge, hpinGauge, hpickGauge, hfull⟩ := exists_part oneGauge noHostRequest
    (fun reader =>
      (scanMetricSeries ⟨fun _ => (), fun _ _ => (), fun _ => ""⟩ ⟨1, 1, fun _ => .ok ()⟩ .new
        ([reader].map (SeriesPartReader.keep [reader.part.info.id])) "acme" noHostRequest).isOk)
    (by decide +kernel)
  refine ⟨⟨histogram, evicted_fails hpin hpick⟩, gauge, (evicted_fails hpinGauge hpickGauge).1,
    (evicted_fails hpinGauge hpickGauge).2, ?_⟩
  refine ⟨⟨fun _ => (), fun _ _ => (), fun _ => ""⟩, ⟨1, 1, fun _ => .ok ()⟩, fun evict => ?_⟩
  exact Runs.exists_of_isOk hfull

end Query

end Obsy
