import Obsy.Metrics.Layout
import Obsy.Metrics.Scan
import Obsy.Part.LogScan

/-!
# Bodies that may be gone

The cache may have dropped the body of a registered part; its catalog is in memory still.  A query
goes through the catalogs and opens the bodies of the parts it reads from.

* `scanRegistry`: a scan of the log parts whose bodies are there.
* `SeriesPartReader.keep`: a metric part whose body is there or not.
* `scanRegistry_congr`, `scanMetricSeries_congr`, `discoverSeries_congr`: a query depends on no other
  body than those it opens.
-/

namespace Obsy

namespace Part

/-! ### Log parts -/

section

variable (P : Platform) {σ : Type} (sink : RowSink σ) (request : ScanRequest)

/-- `may_match_exact_fields`. -/
def mayMatch (reader : PartReader) : Bool :=
  !(selectRowGroups P reader.part request.tenant request.lineFilters request.exactFields
    request.range).isEmpty

/-- Whether a scan of a part comes to where it opens the body. -/
def opensBody (s : σ) (reader : PartReader) : Bool :=
  ((reader.part.info.tenantSegment request.tenant).any fun segment =>
    !spanBeyondFrontier (sink.frontierNs s) request.forward segment.minTsNs segment.maxTsNs) &&
  !(reader.part.info.rowGroupCount == 0 || sink.isClosed s) &&
  (definitiveColumns reader.part.metadataKeys reader.part.parsedKeys request.exactFields).isSome &&
  !(orderRowGroups request reader.part.info (selectRowGroups P reader.part request.tenant
    request.lineFilters request.exactFields request.range)).isEmpty

def scanResident (evict : LogPart → ℕ → GroupCache.Eviction) (resident : List String) (s : σ)
    (reader : PartReader) : Except String σ :=
  if opensBody P sink request s reader && reader.part.info.id ∉ resident then
    .error ("failed to query part " ++ reader.part.info.id ++ ": No such file or directory")
  else PartRegistry.scanReader P sink request evict s reader

/-- `PartRegistry::scan_into`, over parts some of whose bodies are there. -/
def scanRegistry (evict : LogPart → ℕ → GroupCache.Eviction) (resident : List String)
    (readers : List PartReader) (s : σ) : Except String σ :=
  if readers.isEmpty || sink.isClosed s then .ok s
  else (PartRegistry.candidates request readers).foldlM
    (scanResident P sink request evict resident) s

/-- The parts whose bodies a scan may open. -/
def readParts (readers : List PartReader) : List PartReader :=
  (PartRegistry.candidates request readers).filter (mayMatch P request)

variable {P sink request}

theorem mayMatch_of_opensBody {s : σ} {reader : PartReader}
    (h : opensBody P sink request s reader = true) : mayMatch P request reader = true := by
  simp only [opensBody, Bool.and_eq_true, Bool.not_eq_true', List.isEmpty_eq_false_iff] at h
  obtain ⟨g, hg⟩ := List.exists_mem_of_ne_nil _ h.2
  have hselected := mem_orderRowGroups hg
  simp only [mayMatch, Bool.not_eq_true', List.isEmpty_eq_false_iff]
  exact List.ne_nil_of_mem hselected

/-- **A log scan** depends on no other body than those it may open. -/
theorem scanRegistry_congr {evict : LogPart → ℕ → GroupCache.Eviction} {readers : List PartReader}
    {here there : List String}
    (h : ∀ reader ∈ readParts P request readers,
      reader.part.info.id ∈ here ↔ reader.part.info.id ∈ there) (s : σ) :
    scanRegistry P sink request evict here readers s =
      scanRegistry P sink request evict there readers s := by
  have hstep : ∀ reader ∈ PartRegistry.candidates request readers, ∀ s,
      scanResident P sink request evict here s reader =
        scanResident P sink request evict there s reader := by
    intro reader hreader s
    rw [scanResident, scanResident]
    cases hopens : opensBody P sink request s reader with
    | false => simp
    | true =>
      have hread := List.mem_filter.2 ⟨hreader, mayMatch_of_opensBody hopens⟩
      simp only [Bool.true_and, decide_not, h reader hread]
  have hfold : ∀ (candidates : List PartReader), (∀ reader ∈ candidates, ∀ s,
      scanResident P sink request evict here s reader =
        scanResident P sink request evict there s reader) → ∀ s,
      candidates.foldlM (scanResident P sink request evict here) s =
        candidates.foldlM (scanResident P sink request evict there) s := by
    intro candidates
    induction candidates with
    | nil => exact fun _ _ => rfl
    | cons reader rest ih =>
      intro hall s
      rw [List.foldlM_cons, List.foldlM_cons, hall reader List.mem_cons_self]
      exact congrArg _ (funext fun s => ih (fun r hr => hall r (List.mem_cons_of_mem _ hr)) s)
  rw [scanRegistry, scanRegistry]
  split
  · rfl
  · exact hfold _ hstep s

end

end Part

namespace Metrics

open Part (Nanos)

variable {ν : Type}

/-! ### Metric parts -/

/-- A part whose body is gone, unless it is among some. -/
def SeriesPartReader.keep (resident : List String) (reader : SeriesPartReader ν) :
    SeriesPartReader ν :=
  { reader with
    part := { reader.part with
      data := if reader.part.info.id ∈ resident then reader.part.data else none } }

theorem catalogRows_keep (resident : List String) (readers : List (SeriesPartReader ν))
    (tenant : String) (startNs endNs : Nanos) (wanted : CatalogRow → Bool) :
    catalogRows (readers.map (SeriesPartReader.keep resident)) tenant startNs endNs wanted =
      (catalogRows readers tenant startNs endNs wanted).map
        (Prod.map (SeriesPartReader.keep resident) id) := by
  rw [catalogRows, catalogRows, List.filter_map, List.flatMap_map, List.map_flatMap]
  refine List.flatMap_congr fun reader _ => ?_
  rw [List.map_map]
  rfl

namespace Sources

def keep (resident : List String) (sources : Sources ν) : Sources ν :=
  { sources with parts := sources.parts.map (Prod.map (SeriesPartReader.keep resident) id) }

end Sources

namespace Selection

/-- The selection over parts some of whose bodies are gone. -/
def keep (resident : List String) (selection : Selection ν) : Selection ν where
  selected := selection.selected.map fun entry => (entry.1, entry.2.keep resident)
  histograms := selection.histograms.map fun entry => (entry.1, entry.2.keep resident)

def chunks (selection : Selection ν) : List (SeriesPartReader ν × ℕ) :=
  (selection.selected.flatMap fun entry => entry.2.parts) ++
    selection.histograms.flatMap fun entry => entry.2.parts

end Selection

theorem selectLive_keep (resident : List String) (request : MetricScanRequest)
    (memtable : SeriesMemTable ν) (tenant : String) (selection : Selection ν)
    (labels : SeriesLabels) :
    selectLive request memtable tenant (selection.keep resident) labels =
      (selectLive request memtable tenant selection labels).keep resident := by
  have hlive : ∀ old : Option (Sources ν), (Sources.live old).keep resident =
      Sources.live (old.map (Sources.keep resident)) := by
    intro old
    cases old <;> rfl
  rw [selectLive, selectLive]
  split
  · simp only [Selection.keep, Runs.map_upsert hlive]
  · split
    · simp only [Selection.keep, Runs.map_upsert hlive]
    · rfl

theorem selectRow_keep (resident : List String) (selection : Selection ν)
    (picked : SeriesPartReader ν × CatalogRow) :
    selectRow (selection.keep resident) (Prod.map (SeriesPartReader.keep resident) id picked) =
      (selectRow selection picked).keep resident := by
  obtain ⟨reader, row⟩ := picked
  have hstored : ∀ old : Option (Sources ν),
      (Sources.stored (reader, row.chunk) old).keep resident =
        Sources.stored (reader.keep resident, row.chunk) (old.map (Sources.keep resident)) := by
    intro old
    cases old <;> simp [Sources.keep, Sources.stored]
  rw [selectRow, selectRow]
  dsimp only [Prod.map, id]
  split <;> simp only [Selection.keep, Runs.map_upsert hstored]

/-- Selection does not look at bodies. -/
theorem selectSeries_keep (resident : List String) (memtable : SeriesMemTable ν)
    (readers : List (SeriesPartReader ν)) (tenant : String) (request : MetricScanRequest) :
    selectSeries memtable (readers.map (SeriesPartReader.keep resident)) tenant request =
      (selectSeries memtable readers tenant request).keep resident := by
  have hlive : ∀ (labels : List SeriesLabels) (selection : Selection ν),
      labels.foldl (selectLive request memtable tenant) (selection.keep resident) =
        (labels.foldl (selectLive request memtable tenant) selection).keep resident := by
    intro labels
    induction labels with
    | nil => exact fun _ => rfl
    | cons first labels ih =>
      intro selection
      rw [List.foldl_cons, List.foldl_cons, selectLive_keep, ih]
  have hrows : ∀ (picked : List (SeriesPartReader ν × CatalogRow)) (selection : Selection ν),
      (picked.map (Prod.map (SeriesPartReader.keep resident) id)).foldl selectRow
          (selection.keep resident) = (picked.foldl selectRow selection).keep resident := by
    intro picked
    induction picked with
    | nil => exact fun _ => rfl
    | cons first picked ih =>
      intro selection
      rw [List.map_cons, List.foldl_cons, List.foldl_cons, selectRow_keep, ih]
  rw [selectSeries, selectSeries, catalogRows_keep, ← hrows, ← hlive]
  rfl

/-- A selection is to read the chunks of the rows that were picked for it, each of them once. -/
theorem chunks_selectSeries (memtable : SeriesMemTable ν) (readers : List (SeriesPartReader ν))
    (tenant : String) (request : MetricScanRequest) :
    (selectSeries memtable readers tenant request).chunks.Perm
      ((catalogRows readers tenant request.decodeStartNs request.endNs request.wants).map
        fun picked => (picked.1, picked.2.chunk)) := by
  have hlive : ∀ (labels : List SeriesLabels) (selection : Selection ν),
      (labels.foldl (selectLive request memtable tenant) selection).chunks.Perm
        selection.chunks := by
    intro labels
    induction labels with
    | nil => exact fun _ => .refl _
    | cons first labels ih =>
      refine fun selection => (ih _).trans ?_
      have hup : ∀ entries : List (SeriesLabels × Sources ν),
          ((Runs.upsert first Sources.live entries).flatMap fun entry => entry.2.parts).Perm
            (entries.flatMap fun entry => entry.2.parts) := by
        intro entries
        have h : ((Runs.upsert first Sources.live entries).flatMap fun entry =>
            entry.2.parts).Perm ((entries.flatMap fun entry => entry.2.parts) ++ []) :=
          Runs.flatMap_upsert rfl (fun value => by simp [Sources.live]) entries
        rwa [List.append_nil] at h
      rw [selectLive]
      split
      · exact (hup _).append_right _
      · split
        · exact (hup _).append_left _
        · exact .refl _
  have hrow : ∀ (selection : Selection ν) (picked : SeriesPartReader ν × CatalogRow),
      (selectRow selection picked).chunks.Perm
        (selection.chunks ++ [(picked.1, picked.2.chunk)]) := by
    intro selection picked
    have hup : ∀ entries : List (SeriesLabels × Sources ν),
        ((Runs.upsert picked.2.labels (Sources.stored (picked.1, picked.2.chunk))
          entries).flatMap fun entry => entry.2.parts).Perm
          ((entries.flatMap fun entry => entry.2.parts) ++ [(picked.1, picked.2.chunk)]) :=
      Runs.flatMap_upsert rfl fun value => .refl _
    rw [selectRow]
    split
    · simp only [Selection.chunks, List.append_assoc]
      refine ((hup _).append_right _).trans ?_
      rw [List.append_assoc]
      exact List.perm_append_comm.append_left _
    · simp only [Selection.chunks, List.append_assoc]
      exact (hup _).append_left _
  have hrows : ∀ (picked : List (SeriesPartReader ν × CatalogRow)) (selection : Selection ν),
      (picked.foldl selectRow selection).chunks.Perm
        (selection.chunks ++ picked.map fun p => (p.1, p.2.chunk)) := by
    intro picked
    induction picked with
    | nil =>
      intro selection
      rw [List.foldl_nil, List.map_nil, List.append_nil]
    | cons first picked ih =>
      intro selection
      refine (ih _).trans (((hrow selection first).append_right _).trans ?_)
      rw [List.append_assoc]
      rfl
  refine (hrows _ _).trans ((hlive _ _).append_right _)

/-! ### What a read depends on -/

/-- Two states of a part that agree on its body. -/
theorem keep_congr {here there : List String} {reader : SeriesPartReader ν}
    (h : reader.part.info.id ∈ here ↔ reader.part.info.id ∈ there) :
    reader.keep here = reader.keep there := by
  simp only [SeriesPartReader.keep, h]

theorem Sources.keep_congr {here there : List String} {sources : Sources ν}
    (h : ∀ chunk ∈ sources.parts,
      chunk.1.part.info.id ∈ here ↔ chunk.1.part.info.id ∈ there) :
    sources.keep here = sources.keep there := by
  rw [Sources.keep, Sources.keep]
  congr 1
  refine List.map_congr_left fun chunk hchunk => ?_
  rw [Prod.map, Prod.map, Metrics.keep_congr (h chunk hchunk)]

/-- **A metric scan** depends on no other body than those of the parts it picks rows of. -/
theorem scanMetricSeries_congr {F : Floats ν} {limits : MetricLimits} {memtable : SeriesMemTable ν}
    {readers : List (SeriesPartReader ν)} {tenant : String} {request : MetricScanRequest}
    {here there : List String}
    (h : ∀ picked ∈ catalogRows readers tenant request.decodeStartNs request.endNs request.wants,
      picked.1.part.info.id ∈ here ↔ picked.1.part.info.id ∈ there) :
    scanMetricSeries F limits memtable (readers.map (SeriesPartReader.keep here)) tenant request =
      scanMetricSeries F limits memtable (readers.map (SeriesPartReader.keep there)) tenant
        request := by
  have hchunks : ∀ chunk ∈ (selectSeries memtable readers tenant request).chunks,
      chunk.1.part.info.id ∈ here ↔ chunk.1.part.info.id ∈ there := by
    intro chunk hchunk
    obtain ⟨picked, hpicked, rfl⟩ := List.mem_map.1
      ((chunks_selectSeries memtable readers tenant request).mem_iff.1 hchunk)
    exact h picked hpicked
  rw [scanMetricSeries, scanMetricSeries, selectSeries_keep, selectSeries_keep]
  congr 1
  rw [Selection.keep, Selection.keep]
  congr 1
  · refine List.map_congr_left fun entry hentry => ?_
    rw [Sources.keep_congr fun chunk hchunk => hchunks chunk
      (List.mem_append_left _ (List.mem_flatMap_of_mem hentry hchunk))]
  · refine List.map_congr_left fun entry hentry => ?_
    rw [Sources.keep_congr fun chunk hchunk => hchunks chunk
      (List.mem_append_right _ (List.mem_flatMap_of_mem hentry hchunk))]

/-- A chunk is read from a body that is there. -/
theorem mem_of_readChunk {resident : List String} {reader : SeriesPartReader ν} {chunk : ℕ}
    {payload : SeriesPayload ν} (h : (reader.keep resident).readChunk chunk = .ok payload) :
    reader.part.info.id ∈ resident := by
  by_contra hgone
  rw [SeriesPartReader.readChunk, SeriesPartReader.keep, if_neg hgone] at h
  cases h

/-- A metric scan that succeeds has found the body of every part it picks a row of. -/
theorem mem_of_scanMetricSeries {F : Floats ν} {limits : MetricLimits} {memtable : SeriesMemTable ν}
    {readers : List (SeriesPartReader ν)} {tenant : String} {request : MetricScanRequest}
    {resident : List String} {series : List (SeriesLabels × List (Nanos × ν))}
    (h : scanMetricSeries F limits memtable (readers.map (SeriesPartReader.keep resident)) tenant
      request = .ok series)
    {picked : SeriesPartReader ν × CatalogRow}
    (hpicked : picked ∈ catalogRows readers tenant request.decodeStartNs request.endNs
      request.wants) : picked.1.part.info.id ∈ resident := by
  have hchunk : (picked.1, picked.2.chunk) ∈
      (selectSeries memtable readers tenant request).chunks :=
    (chunks_selectSeries memtable readers tenant request).mem_iff.2 (List.mem_map_of_mem hpicked)
  have hkept : ∀ {entry : SeriesLabels × Sources ν}, (picked.1, picked.2.chunk) ∈ entry.2.parts →
      (picked.1.keep resident, picked.2.chunk) ∈ (entry.2.keep resident).parts :=
    fun hmem => List.mem_map_of_mem (f := Prod.map (SeriesPartReader.keep resident) id) hmem
  rw [scanMetricSeries, selectSeries_keep] at h
  obtain ⟨-, -, h⟩ := Runs.exists_of_bind h
  obtain ⟨scalars, hscalars, h⟩ := Runs.exists_of_bind h
  rcases List.mem_append.1 hchunk with hchunk | hchunk
  · obtain ⟨entry, hentry, hparts⟩ := List.mem_flatMap.1 hchunk
    obtain ⟨found, -, hread⟩ := Runs.exists_of_mapM hscalars (List.mem_map_of_mem
      (f := fun entry => (entry.1, entry.2.keep resident)) hentry)
    obtain ⟨samples, hsamples, -⟩ := Runs.exists_of_bind hread
    rw [readSelected] at hsamples
    obtain ⟨live, -, hsamples⟩ := Runs.exists_of_bind hsamples
    obtain ⟨stored, hstored, -⟩ := Runs.exists_of_bind hsamples
    obtain ⟨values, -, hvalues⟩ := Runs.exists_of_mapM hstored (hkept hparts)
    rw [SeriesPartReader.readSeries] at hvalues
    obtain ⟨payload, hpayload, -⟩ := Runs.exists_of_bind hvalues
    exact mem_of_readChunk hpayload
  · obtain ⟨entry, hentry, hparts⟩ := List.mem_flatMap.1 hchunk
    obtain ⟨before, after, hstep⟩ := Runs.exists_of_foldlM h (List.mem_map_of_mem
      (f := fun entry => (entry.1, entry.2.keep resident)) hentry)
    obtain ⟨points, hpoints, -⟩ := Runs.exists_of_bind hstep
    rw [readHistogram] at hpoints
    obtain ⟨stored, hstored, -⟩ := Runs.exists_of_bind hpoints
    obtain ⟨values, -, hvalues⟩ := Runs.exists_of_mapM hstored (hkept hparts)
    rw [SeriesPartReader.readHistogramPoints] at hvalues
    obtain ⟨payload, hpayload, -⟩ := Runs.exists_of_bind hvalues
    exact mem_of_readChunk hpayload

/-- **A discovery** depends on no other body than those of the parts with a histogram in its
window. -/
theorem discoverSeries_congr {F : Floats ν} {memtable : SeriesMemTable ν}
    {readers : List (SeriesPartReader ν)} {tenant : String} {request : DiscoveryRequest}
    {here there : List String}
    (h : ∀ picked ∈ catalogRows readers tenant request.startNs request.endNs
        (fun row => row.kind == .histogram),
      picked.1.part.info.id ∈ here ↔ picked.1.part.info.id ∈ there) :
    discoverSeries F memtable (readers.map (SeriesPartReader.keep here)) tenant request =
      discoverSeries F memtable (readers.map (SeriesPartReader.keep there)) tenant request := by
  have hrow : ∀ picked ∈ catalogRows readers tenant request.startNs request.endNs (fun _ => true),
      ∀ series, discoverRow F request series
          (Prod.map (SeriesPartReader.keep here) id picked) =
        discoverRow F request series (Prod.map (SeriesPartReader.keep there) id picked) := by
    intro picked hpicked series
    obtain ⟨reader, row⟩ := picked
    cases hkind : row.kind with
    | scalar => simp only [discoverRow, Prod.map, id, hkind]
    | histogram =>
      have hmem : (reader, row) ∈ catalogRows readers tenant request.startNs request.endNs
          (fun row => row.kind == .histogram) := by
        simp only [catalogRows, List.mem_flatMap, List.mem_map, List.mem_filter] at hpicked ⊢
        obtain ⟨r, hr, other, ⟨hcatalog, hwanted⟩, hsame⟩ := hpicked
        obtain ⟨rfl, rfl⟩ := Prod.mk.inj hsame
        exact ⟨r, hr, other, ⟨hcatalog, by simpa [hkind] using hwanted⟩, rfl⟩
      rw [Prod.map, Prod.map, keep_congr (h (reader, row) hmem)]
  have hfold : ∀ (picked : List (SeriesPartReader ν × CatalogRow)),
      (∀ p ∈ picked, ∀ series, discoverRow F request series
          (Prod.map (SeriesPartReader.keep here) id p) =
        discoverRow F request series (Prod.map (SeriesPartReader.keep there) id p)) → ∀ series,
      (picked.map (Prod.map (SeriesPartReader.keep here) id)).foldlM (discoverRow F request) series =
        (picked.map (Prod.map (SeriesPartReader.keep there) id)).foldlM (discoverRow F request)
          series := by
    intro picked
    induction picked with
    | nil => exact fun _ _ => rfl
    | cons first picked ih =>
      intro hall series
      rw [List.map_cons, List.map_cons, List.foldlM_cons, List.foldlM_cons,
        hall first List.mem_cons_self]
      exact congrArg _ (funext fun series => ih
        (fun p hp => hall p (List.mem_cons_of_mem _ hp)) series)
  rw [discoverSeries, discoverSeries, catalogRows_keep, catalogRows_keep]
  refine congrArg _ (funext fun live => ?_)
  rw [hfold _ hrow live]

end Metrics

end Obsy
