import Obsy.Metrics.Identity
import Obsy.Metrics.Layout
import Obsy.Metrics.Memtable
import Obsy.Runs.Heads
import Mathlib.Data.Prod.Lex

/-!
# The catalogs of metric parts

A flush gathers the series of a day in sorted maps, and a compaction merges the catalogs of its parts
with a heap.  Both hand the series to the same writer, tenant by tenant and in the order of their
bytes.

* `flushSeriesSnapshotChunked`: the flush of a snapshot, batch by batch.
* `compactSeriesPartsWithId`: the compaction of some parts into one.
* `Written`: the parts that come of flushes, and of compactions of such parts.
* `sortedCatalog_of_written`: their catalogs are in the order of the bytes, each series once.
* `identities_canonical`: the bytes of a series are its identity, unless a text is too long for them.
-/

namespace Obsy

namespace Metrics

open Part (Nanos partitionOf)
open Runs (Ascending Head Heads advance exists_of_bind mergedGroups upsert)

variable {ν : Type}

/-- What the environment of a flush or of a compaction decides. -/
structure PartSurroundings where
  /-- The bits and the hashes of a filter, of which no filter is without the former. -/
  sizing : ℕ → ℕ × ℕ
  sizing_pos : ∀ items, 0 < (sizing items).1
  /-- A day without its dashes, and a dash behind it. -/
  idPrefix : ℤ → String
  uuid : ℕ → String
  /-- What the file system answers to the part of an id. -/
  disk : String → Except String Unit

variable (env : PartSurroundings)

/-! ### The flush -/

/-- `PartitionSeries`: the series of a part. -/
abbrev PartitionSeries (ν : Type) := List (String × List (SeriesLabels × SeriesPayload ν))

/-- Samples behind those that a series has. -/
def SeriesPayload.extend : SeriesPayload ν → SeriesPayload ν → Except String (SeriesPayload ν)
  | .scalar into, .scalar samples => .ok (.scalar (into ++ samples))
  | .histogram into, .histogram points => .ok (.histogram (into ++ points))
  | _, _ => .error "one series cannot be scalar and histogram in one part"

def byDay {β : Type} (items : List (Nanos × β)) : List (ℤ × List (Nanos × β)) :=
  items.foldl (fun days item =>
    upsert (partitionOf item.1) (fun old => old.getD [] ++ [item]) days) []

/-- What a series brings to each day. -/
def SnapshotSeries.payloads (series : SnapshotSeries ν) :
    Except String (List (ℤ × SeriesPayload ν)) :=
  if series.isHistogram then
    .ok ((byDay series.points).map fun day => (day.1, .histogram day.2))
  else do
    let samples ← series.sortedSamples
    .ok ((byDay samples).map fun day => (day.1, .scalar day.2))

/-- Adds samples to the series of a part. -/
def addPayload (tenant : String) (labels : SeriesLabels) (payload : SeriesPayload ν)
    (tenants : PartitionSeries ν) : Except String (PartitionSeries ν) := do
  let slot := (tenants.lookup tenant).bind fun series => series.lookup labels
  let payload ← slot.elim (.ok payload) fun into => into.extend payload
  .ok (upsert tenant (fun series => upsert labels (fun _ => payload) (series.getD [])) tenants)

/-- The series of a part in the order in which they are written. -/
def rowsOf (tenants : PartitionSeries ν) : List (SeriesRow ν) :=
  tenants.flatMap fun tenant => tenant.2.map fun series => ⟨tenant.1, series.1, series.2⟩

/-- `write_streaming_partition_series`. -/
def writePartitionSeries (id : String) (partition : ℤ) (tenants : PartitionSeries ν) :
    Except String (SeriesPart ν) := do
  let items ← (rowsOf tenants).foldlM (fun items row => do
    let pairs ← row.labels.pairs
    checkedAdd 64 items pairs.length "bloom item count") 0
  writeSeriesPart env.sizing id partition items (rowsOf tenants)

/-- A flush between two series. -/
structure SeriesFlushing (ν : Type) where
  batches : List (ℤ × PartitionSeries ν)
  batchBytes : ℕ
  parts : List (SeriesPart ν)

/-- The part of a day is written and loaded. -/
def commitPart (parts : List (SeriesPart ν)) (batch : ℤ × PartitionSeries ν) :
    Except String (List (SeriesPart ν)) := do
  let id := env.idPrefix batch.1 ++ env.uuid parts.length
  env.disk id
  let part ← writePartitionSeries env id batch.1 batch.2
  let part ← loadSeriesPart part
  .ok (parts ++ [part])

/-- `commit_snapshot_batch`. -/
def commitSnapshotBatch (s : SeriesFlushing ν) : Except String (SeriesFlushing ν) := do
  let parts ← s.batches.foldlM (commitPart env) s.parts
  .ok { s with batches := [], parts }

/-- What a series brings to a day goes to the batch of the day. -/
def batchPayload (tenant : String) (labels : SeriesLabels) (s : SeriesFlushing ν)
    (day : ℤ × SeriesPayload ν) : Except String (SeriesFlushing ν) :=
  if day.2.timestamps.isEmpty then .ok s
  else do
    let tenants ← addPayload tenant labels day.2 ((s.batches.lookup day.1).getD [])
    .ok { s with
      batches := upsert day.1 (fun _ => tenants) s.batches
      batchBytes := min (s.batchBytes +
        min (min (day.2.timestamps.length * 16) (2 ^ 64 - 1) + labels.bytes.length) (2 ^ 64 - 1))
        (2 ^ 64 - 1) }

/-- A series goes to the batches of its days, and a batch that is large enough to the disk. -/
def flushSeries (chunkBytes : ℕ) (s : SeriesFlushing ν) (series : String × SnapshotSeries ν) :
    Except String (SeriesFlushing ν) := do
  let days ← series.2.payloads
  let s ← days.foldlM (batchPayload series.1 series.2.labels) s
  if chunkBytes ≤ s.batchBytes then do
    let s ← commitSnapshotBatch env s
    .ok { s with batchBytes := 0 }
  else .ok s

/-- `flush_series_snapshot_chunked`, which leaves no part where it fails. -/
def flushSeriesSnapshotChunked (chunkBytes : ℕ)
    (snapshot : List (String × List (SnapshotSeries ν))) : Except String (List (SeriesPart ν)) :=
  if snapshot.all fun tenant => tenant.2.isEmpty then .ok []
  else do
    let s ← (snapshot.flatMap fun tenant => tenant.2.map fun series => (tenant.1, series)).foldlM
      (flushSeries env (max chunkBytes 1)) ⟨[], 0, []⟩
    if s.batches.isEmpty then .ok s.parts
    else do
      let s ← commitSnapshotBatch env s
      .ok s.parts

/-! ### The compaction -/

/-- A catalog row of a tenant, in a part that is merged. -/
structure CatalogEntry (ν : Type) where
  reader : SeriesPartReader ν
  tenant : String
  row : CatalogRow

/-- The order of the catalogs. -/
def CatalogEntry.key (entry : CatalogEntry ν) : String ×ₗ SeriesLabels :=
  toLex (entry.tenant, entry.row.labels)

/-- What a `CatalogCursor` passes. -/
def catalogEntries (reader : SeriesPartReader ν) : List (CatalogEntry ν) :=
  reader.part.info.tenants.flatMap fun segment =>
    (reader.tenantCatalog segment.tenant).map fun row => ⟨reader, segment.tenant, row⟩

/-- `merged_series_points`: of one timestamp the points of an earlier part are first. -/
def mergedSeriesPoints (heads : List (Head (CatalogEntry ν))) :
    Except String (List (Nanos × HistogramPoint ν)) := do
  let points ← heads.mapM fun head => do
    let points ← head.item.reader.readHistogramPoints head.item.row.chunk
    .ok (points.map fun point => (head.stream, point))
  .ok ((points.flatten.mergeSort fun a b => toLex (a.2.1, a.1) ≤ toLex (b.2.1, b.1)).map Prod.snd)

/-- `next_sample` until the heap is empty. -/
def nextSamples : ℕ → Heads (Nanos × ν) → List (Nanos × ν)
  | 0, _ => []
  | fuel + 1, heads =>
    match heads.2 with
    | [] => []
    | head :: heap =>
      head.item :: nextSamples fuel (advance Prod.fst (heads.1, heap) head.stream)

/-- `MergedSeriesSamples`: of one timestamp the samples of an earlier part are first. -/
def mergedSeriesSamples (heads : List (Head (CatalogEntry ν))) :
    Except String (List (Nanos × ν)) := do
  let streams ← heads.mapM fun head => do
    let samples ← head.item.reader.readSeries head.item.row.chunk
    if samples.isEmpty then .error "metric catalog entry has no samples" else .ok samples
  .ok (nextSamples (streams.map List.length).sum
    ((List.range streams.length).foldl (advance Prod.fst) (streams, [])))

def mergedPayload (heads : List (Head (CatalogEntry ν))) : Except String (SeriesPayload ν) :=
  if heads.any fun head => head.item.row.kind = .histogram then
    if heads.all fun head => head.item.row.kind = .histogram then
      (mergedSeriesPoints heads).map .histogram
    else .error "one series is scalar in one input part and histogram in another"
  else (mergedSeriesSamples heads).map .scalar

def writeMerged (writer : StreamingSeriesPartWriter ν)
    (group : Head (CatalogEntry ν) × List (Head (CatalogEntry ν))) :
    Except String (StreamingSeriesPartWriter ν) := do
  let payload ← mergedPayload (group.1 :: group.2)
  writer.writeRow group.1.item.tenant group.1.item.row.labels payload

/-- `write_streaming_series_part_files`. -/
def writeStreamingSeriesPartFiles (id : String) (partition : ℤ)
    (readers : List (SeriesPartReader ν)) : Except String (SeriesPart ν) := do
  let items ← (readers.flatMap catalogEntries).foldlM (fun items entry =>
    checkedAdd 64 items entry.row.labels.canonicalPairs.length "bloom item count") 0
  let writer ← StreamingSeriesPartWriter.create env.sizing partition items
  let writer ← (mergedGroups CatalogEntry.key (readers.map catalogEntries)).foldlM writeMerged writer
  if writer.seriesCount = 0 then .error "metric compaction produced an empty part"
  else .ok (writer.finish id partition)

/-- `compact_series_parts_with_id`. -/
def compactSeriesPartsWithId (readers : List (SeriesPartReader ν)) (id : String) :
    Except String (List (SeriesPart ν)) :=
  match readers with
  | [] => .ok []
  | first :: _ =>
    let partition := first.part.info.partition
    if readers.any fun reader => reader.part.info.partition ≠ partition then
      .error "metric compaction group spans partitions"
    else if !(env.idPrefix partition).isPrefixOf id then
      .error "metric compaction output id does not match its partition"
    else do
      env.disk id
      let part ← writeStreamingSeriesPartFiles env id partition readers
      let part ← loadSeriesPart part
      .ok [part]

/-- The parts that come of flushes, and of compactions of parts, whose bodies the cache may have
dropped. -/
inductive Written : SeriesPart ν → Prop
  | flushed {chunkBytes snapshot parts part} :
    flushSeriesSnapshotChunked env chunkBytes snapshot = .ok parts → part ∈ parts → Written part
  | compacted {readers id parts part} : (∀ reader ∈ readers, Written reader.part) →
    compactSeriesPartsWithId env readers id = .ok parts → part ∈ parts → Written part
  | evicted {part} : Written part → Written { part with data := none }

/-! ### Sorted catalogs -/

/-- Tenants in order, and of each the series in the order of their bytes, each once. -/
structure SortedCatalog (part : SeriesPart ν) : Prop where
  tenants : (part.info.tenants.map SeriesTenantSegment.tenant).Pairwise (· < ·)
  labels : ∀ bloom tenant, ((⟨part, bloom⟩ : SeriesPartReader ν).tenantCatalog tenant).Pairwise
    fun a b => a.labels < b.labels

/-- The order in which series are written. -/
def SeriesRow.key (row : SeriesRow ν) : String ×ₗ SeriesLabels := toLex (row.tenant, row.labels)

variable {env} {part : SeriesPart ν} {rows : List (SeriesRow ν)}

theorem pairwise_tenants_of_go {info : SeriesPartMeta} {segments : List SeriesTenantSegment}
    {start : ℕ} {previous : Option String}
    (h : validateSeriesTenantSegments.go info start previous segments = .ok ()) :
    (∀ p ∈ previous, ∀ segment ∈ segments, p < segment.tenant) ∧
      (segments.map SeriesTenantSegment.tenant).Pairwise (· < ·) := by
  induction segments generalizing start previous with
  | nil => exact ⟨fun _ _ _ hmem => (by cases hmem), .nil⟩
  | cons segment segments ih =>
    rw [validateSeriesTenantSegments.go] at h
    split at h
    · cases h
    · rename_i hprevious
      split at h
      · cases h
      · split at h
        · cases h
        · obtain ⟨hlater, hsorted⟩ := ih h
          have hafter : ∀ later ∈ segments, segment.tenant < later.tenant :=
            hlater segment.tenant rfl
          refine ⟨fun p hp later hmem => ?_, List.pairwise_cons.2 ⟨?_, hsorted⟩⟩
          · have hlt : p < segment.tenant := by
              rw [Option.mem_def.1 hp] at hprevious
              simpa using hprevious
            rcases List.mem_cons.1 hmem with rfl | hmem
            · exact hlt
            · exact hlt.trans (hafter later hmem)
          · intro tenant htenant
            obtain ⟨later, hmem, rfl⟩ := List.mem_map.1 htenant
            exact hafter later hmem

theorem eq_of_loadSeriesPart {loaded : SeriesPart ν} (h : loadSeriesPart part = .ok loaded) :
    loaded = part ∧ (part.info.tenants.map SeriesTenantSegment.tenant).Pairwise (· < ·) := by
  obtain ⟨_, hvalid, h⟩ := exists_of_bind h
  refine ⟨(Except.ok.inj h).symm, ?_⟩
  rw [validateSeriesTenantSegments] at hvalid
  split at hvalid
  · cases hvalid
  · obtain ⟨_, hgo, -⟩ := exists_of_bind hvalid
    exact (pairwise_tenants_of_go hgo).2

/-- Series that are written in order are found in order. -/
theorem Layout.sortedCatalog (h : Layout part rows)
    (hrows : rows.Pairwise fun a b => a.key < b.key)
    (htenants : (part.info.tenants.map SeriesTenantSegment.tenant).Pairwise (· < ·)) :
    SortedCatalog part := by
  refine ⟨htenants, fun bloom tenant => ?_⟩
  rw [SeriesPartReader.tenantCatalog]
  split
  case h_2 => exact .nil
  case h_1 segment hsegment =>
    obtain ⟨-, -, hmine⟩ := h.tiles.of_find?_eq_some htenants hsegment
    have hzip : rows.zipIdx.Pairwise fun a b => a.1.key < b.1.key := by
      rw [← List.pairwise_map (f := Prod.fst) (R := fun a b : SeriesRow ν => a.key < b.key),
        List.zipIdx_map_fst]
      exact hrows
    rw [h.index, ← List.map_drop, ← List.map_take, List.pairwise_map]
    refine (hzip.sublist ((List.take_sublist _ _).trans (List.drop_sublist _ _))).imp_of_mem ?_
    -- the rows of the segment are of one tenant, so their labels tell which is first
    have howner : ∀ entry ∈ (rows.zipIdx.drop segment.seriesStart).take
        (segment.seriesEnd - segment.seriesStart), entry.1.tenant = tenant := by
      intro entry hentry
      obtain ⟨i, hi, hget⟩ := List.mem_take_iff_getElem.1 hentry
      rw [List.length_drop, List.length_zipIdx] at hi
      rw [List.getElem_drop, List.getElem_zipIdx] at hget
      have hrow : rows[segment.seriesStart + i]? = some entry.1 := by
        rw [List.getElem?_eq_getElem (by omega), ← hget]
      refine (hmine _ _ hrow).2 ⟨?_, ?_⟩
      · change segment.seriesStart ≤ 0 + (segment.seriesStart + i)
        omega
      · change 0 + (segment.seriesStart + i) < segment.seriesEnd
        omega
    intro a b ha hb hlt
    rcases Prod.Lex.toLex_lt_toLex.1 hlt with hlt | ⟨-, hlt⟩
    · rw [howner a ha, howner b hb] at hlt
      exact absurd hlt (lt_irrefl _)
    · exact hlt

/-! ### Batches -/

/-- Tenants in order, and of each the series in the order of their bytes. -/
def SortedBatch (tenants : PartitionSeries ν) : Prop :=
  Ascending tenants ∧ ∀ tenant ∈ tenants, Ascending tenant.2

theorem SortedBatch.rowsOf {tenants : PartitionSeries ν} (h : SortedBatch tenants) :
    (rowsOf tenants).Pairwise fun a b => a.key < b.key := by
  refine List.pairwise_flatMap.2 ⟨fun tenant htenant => ?_, h.1.imp fun hlt a ha b hb => ?_⟩
  · rw [List.pairwise_map]
    have hseries : tenant.2.Pairwise fun a b => a.1 < b.1 := h.2 tenant htenant
    refine hseries.imp fun hlt => ?_
    exact Prod.Lex.toLex_lt_toLex.2 (.inr ⟨rfl, hlt⟩)
  · obtain ⟨x, -, rfl⟩ := List.mem_map.1 ha
    obtain ⟨y, -, rfl⟩ := List.mem_map.1 hb
    exact Prod.Lex.toLex_lt_toLex.2 (.inl hlt)

theorem SortedBatch.addPayload {tenant : String} {labels : SeriesLabels} {payload : SeriesPayload ν}
    {tenants tenants' : PartitionSeries ν} (h : SortedBatch tenants)
    (hadd : addPayload tenant labels payload tenants = .ok tenants') : SortedBatch tenants' := by
  obtain ⟨merged, -, hadd⟩ := exists_of_bind hadd
  obtain rfl := Except.ok.inj hadd
  have hsorted := h.1.upsert tenant fun series => upsert labels (fun _ => merged) (series.getD [])
  refine ⟨hsorted, fun entry hentry => ?_⟩
  have hlookup := hsorted.lookup_eq_some.2 hentry
  rw [Runs.lookup_upsert h.1] at hlookup
  split at hlookup
  case isTrue =>
    rw [← Option.some.inj hlookup]
    refine Ascending.upsert ?_ labels _
    cases hheld : tenants.lookup tenant with
    | none => exact .nil
    | some series => exact h.2 _ (h.1.lookup_eq_some.1 hheld)
  case isFalse => exact h.2 entry (h.1.lookup_eq_some.1 hlookup)

/-- What a flush keeps to between two series. -/
structure SeriesFlushing.Sorted (s : SeriesFlushing ν) : Prop where
  days : Ascending s.batches
  batches : ∀ batch ∈ s.batches, SortedBatch batch.2
  parts : ∀ part ∈ s.parts, SortedCatalog part

theorem sortedCatalog_of_writePartitionSeries {id : String} {partition : ℤ}
    {tenants : PartitionSeries ν} {loaded : SeriesPart ν} (h : SortedBatch tenants)
    (hwrite : writePartitionSeries env id partition tenants = .ok part)
    (hload : loadSeriesPart part = .ok loaded) : SortedCatalog loaded := by
  obtain ⟨items, -, hwrite⟩ := exists_of_bind hwrite
  obtain ⟨rfl, htenants⟩ := eq_of_loadSeriesPart hload
  exact (layout_writeSeriesPart env.sizing_pos hwrite).1.sortedCatalog h.rowsOf htenants

theorem commitPart_sorted {parts parts' : List (SeriesPart ν)} {batch : ℤ × PartitionSeries ν}
    (hbatch : SortedBatch batch.2) (h : ∀ part ∈ parts, SortedCatalog part)
    (hcommit : commitPart env parts batch = .ok parts') : ∀ part ∈ parts', SortedCatalog part := by
  obtain ⟨_, -, hcommit⟩ := exists_of_bind hcommit
  obtain ⟨written, hwrite, hcommit⟩ := exists_of_bind hcommit
  obtain ⟨loaded, hload, hcommit⟩ := exists_of_bind hcommit
  obtain rfl := Except.ok.inj hcommit
  intro part hpart
  rcases List.mem_append.1 hpart with hpart | hpart
  · exact h part hpart
  · rw [List.mem_singleton.1 hpart]
    exact sortedCatalog_of_writePartitionSeries hbatch hwrite hload

theorem SeriesFlushing.Sorted.commit {s s' : SeriesFlushing ν} (h : s.Sorted)
    (hcommit : commitSnapshotBatch env s = .ok s') : s'.Sorted := by
  obtain ⟨parts, hparts, hcommit⟩ := exists_of_bind hcommit
  obtain rfl := Except.ok.inj hcommit
  refine ⟨.nil, fun _ hbatch => (by cases hbatch), ?_⟩
  exact Runs.foldlM_induction (P := fun parts => ∀ part ∈ parts, SortedCatalog part)
    (fun _ batch hbatch _ hheld hstep => commitPart_sorted (h.batches batch hbatch) hheld hstep)
    h.parts hparts

theorem SeriesFlushing.Sorted.batchPayload {s s' : SeriesFlushing ν} (h : s.Sorted) {tenant : String}
    {labels : SeriesLabels} {day : ℤ × SeriesPayload ν}
    (hbatch : batchPayload tenant labels s day = .ok s') : s'.Sorted := by
  rw [Metrics.batchPayload] at hbatch
  split at hbatch
  · obtain rfl := Except.ok.inj hbatch
    exact h
  · obtain ⟨tenants, hadd, hbatch⟩ := exists_of_bind hbatch
    obtain rfl := Except.ok.inj hbatch
    have hdays := h.days.upsert day.1 fun _ => tenants
    refine ⟨hdays, fun batch hmem => ?_, h.parts⟩
    have hlookup := hdays.lookup_eq_some.2 hmem
    rw [Runs.lookup_upsert h.days] at hlookup
    split at hlookup
    case isTrue =>
      rw [← Option.some.inj hlookup]
      refine SortedBatch.addPayload ?_ hadd
      cases hheld : s.batches.lookup day.1 with
      | none => exact ⟨.nil, fun _ hmem => (by cases hmem)⟩
      | some held => exact h.batches _ (h.days.lookup_eq_some.1 hheld)
    case isFalse => exact h.batches batch (h.days.lookup_eq_some.1 hlookup)

theorem SeriesFlushing.Sorted.flushSeries {chunkBytes : ℕ} {s s' : SeriesFlushing ν} (h : s.Sorted)
    {series : String × SnapshotSeries ν} (hflush : flushSeries env chunkBytes s series = .ok s') :
    s'.Sorted := by
  obtain ⟨days, -, hflush⟩ := exists_of_bind hflush
  obtain ⟨filled, hfilled, hflush⟩ := exists_of_bind hflush
  have hsorted : filled.Sorted := Runs.foldlM_induction (P := SeriesFlushing.Sorted)
    (fun _ _ _ _ h hstep => h.batchPayload hstep) h hfilled
  split at hflush
  · obtain ⟨committed, hcommit, hflush⟩ := exists_of_bind hflush
    obtain rfl := Except.ok.inj hflush
    have := hsorted.commit hcommit
    exact ⟨this.days, this.batches, this.parts⟩
  · obtain rfl := Except.ok.inj hflush
    exact hsorted

theorem sortedCatalog_of_flush {chunkBytes : ℕ} {snapshot : List (String × List (SnapshotSeries ν))}
    {parts : List (SeriesPart ν)} (h : flushSeriesSnapshotChunked env chunkBytes snapshot = .ok parts) :
    ∀ part ∈ parts, SortedCatalog part := by
  rw [flushSeriesSnapshotChunked] at h
  split at h
  · obtain rfl := Except.ok.inj h
    exact fun _ hmem => (by cases hmem)
  · obtain ⟨s, hfold, h⟩ := exists_of_bind h
    have hnew : (⟨[], 0, []⟩ : SeriesFlushing ν).Sorted :=
      ⟨.nil, fun _ hmem => (by cases hmem), fun _ hmem => (by cases hmem)⟩
    have hsorted : s.Sorted := Runs.foldlM_induction (P := SeriesFlushing.Sorted)
      (fun _ _ _ _ h hstep => h.flushSeries hstep) hnew hfold
    split at h
    · obtain rfl := Except.ok.inj h
      exact hsorted.parts
    · obtain ⟨committed, hcommit, h⟩ := exists_of_bind h
      obtain rfl := Except.ok.inj h
      exact (hsorted.commit hcommit).parts

/-! ### Merges -/

theorem SortedCatalog.catalogEntries {reader : SeriesPartReader ν} (h : SortedCatalog reader.part) :
    (catalogEntries reader).Pairwise fun a b => a.key < b.key := by
  have htenants := List.pairwise_map.1 h.tenants
  refine List.pairwise_flatMap.2 ⟨fun segment _ => ?_, htenants.imp fun hlt a ha b hb => ?_⟩
  · rw [List.pairwise_map]
    refine (h.labels reader.bloom segment.tenant).imp fun hlt => ?_
    exact Prod.Lex.toLex_lt_toLex.2 (.inr ⟨rfl, hlt⟩)
  · obtain ⟨x, -, rfl⟩ := List.mem_map.1 ha
    obtain ⟨y, -, rfl⟩ := List.mem_map.1 hb
    exact Prod.Lex.toLex_lt_toLex.2 (.inl hlt)

/-- Each group of a merge becomes a series. -/
theorem exists_rows_of_writeMerged {partition : ℤ} {items : ℕ}
    {groups : List (Head (CatalogEntry ν) × List (Head (CatalogEntry ν)))}
    {first last : StreamingSeriesPartWriter ν}
    (hcreate : StreamingSeriesPartWriter.create env.sizing partition items = .ok first)
    (h : groups.foldlM writeMerged first = .ok last) :
    ∃ rows, Filing last rows ∧ partitionBaseNs partition = .ok last.baseTsNs ∧
      rows.map SeriesRow.key = groups.map fun group => group.1.item.key := by
  obtain ⟨hnew, hbase⟩ := filing_create env.sizing_pos hcreate
  have hstep : ∀ (writer : StreamingSeriesPartWriter ν) written group writer',
      (∃ rows, Filing writer rows ∧ partitionBaseNs partition = .ok writer.baseTsNs ∧
        rows.map SeriesRow.key = written.map fun group => group.1.item.key) →
      writeMerged writer group = .ok writer' →
      ∃ rows, Filing writer' rows ∧ partitionBaseNs partition = .ok writer'.baseTsNs ∧
        rows.map SeriesRow.key = (written ++ [group]).map fun group => group.1.item.key := by
    rintro writer written group writer' ⟨rows, hfiling, hb, hkeys⟩ hwrite
    obtain ⟨payload, -, hwrite⟩ := exists_of_bind hwrite
    obtain ⟨hfiling', hb'⟩ := @Filing.writeRow _ _ _ _ hfiling
      ⟨group.1.item.tenant, group.1.item.row.labels, payload⟩ hwrite
    refine ⟨_, hfiling', hb' ▸ hb, ?_⟩
    rw [List.map_append, List.map_append, hkeys]
    rfl
  have hstart : ∃ rows, Filing first rows ∧ partitionBaseNs partition = .ok first.baseTsNs ∧
      rows.map SeriesRow.key =
        ([] : List (Head (CatalogEntry ν) × List (Head (CatalogEntry ν)))).map
          fun group => group.1.item.key := ⟨[], hnew, hbase, rfl⟩
  exact Runs.foldlM_invariant hstep hstart h

theorem sortedCatalog_of_compact {readers : List (SeriesPartReader ν)} {id : String}
    {parts : List (SeriesPart ν)} (hreaders : ∀ reader ∈ readers, SortedCatalog reader.part)
    (h : compactSeriesPartsWithId env readers id = .ok parts) :
    ∀ part ∈ parts, SortedCatalog part := by
  cases readers with
  | nil =>
    obtain rfl := Except.ok.inj h
    exact fun _ hmem => (by cases hmem)
  | cons first others =>
    unfold compactSeriesPartsWithId at h
    dsimp only at h
    split at h
    · cases h
    · split at h
      · cases h
      · obtain ⟨_, -, h⟩ := exists_of_bind h
        obtain ⟨written, hwritten, h⟩ := exists_of_bind h
        obtain ⟨loaded, hload, h⟩ := exists_of_bind h
        obtain rfl := Except.ok.inj h
        obtain ⟨rfl, htenants⟩ := eq_of_loadSeriesPart hload
        obtain ⟨items, -, hwritten⟩ := exists_of_bind hwritten
        obtain ⟨new, hcreate, hwritten⟩ := exists_of_bind hwritten
        obtain ⟨last, hfold, hwritten⟩ := exists_of_bind hwritten
        split at hwritten
        · cases hwritten
        · obtain rfl := Except.ok.inj hwritten
          obtain ⟨rows, hfiling, hbase, hkeys⟩ := exists_rows_of_writeMerged hcreate hfold
          have hmerge := @Runs.pairwise_mergedGroups _ _ _ CatalogEntry.key
            ((first :: others).map catalogEntries) fun stream hstream => by
              obtain ⟨reader, hreader, rfl⟩ := List.mem_map.1 hstream
              exact (hreaders reader hreader).catalogEntries
          have hrows : rows.Pairwise fun a b => a.key < b.key := by
            have hlt := List.pairwise_map.2 hmerge
            rw [← hkeys, List.pairwise_map] at hlt
            exact hlt
          intro part hpart
          rw [List.mem_singleton.1 hpart]
          exact (hfiling.finish hbase id).1.sortedCatalog hrows htenants

/-- **Every catalog** is in the order of the bytes. -/
theorem sortedCatalog_of_written (h : Written env part) : SortedCatalog part := by
  induction h with
  | flushed hflush hmem => exact sortedCatalog_of_flush hflush _ hmem
  | compacted _ hcompact hmem ih => exact sortedCatalog_of_compact ih hcompact _ hmem
  | evicted _ ih => exact ⟨ih.tenants, ih.labels⟩

/-- **Identities of series.**  The bytes are what they promise to be exactly where no text is too long
for its length field; their order is total, and every catalog is in it. -/
theorem identities_canonical (env : PartSurroundings) (ν : Type) :
    (∀ ps, SeriesLabels.Canonical ps ↔ SeriesLabels.Fits (SeriesLabels.canonical ps)) ∧
      (∀ a b : SeriesLabels, (a < b ↔ a.byteKey < b.byteKey) ∧ (a < b ∨ a = b ∨ b < a)) ∧
      (∀ a b c : SeriesLabels, a < b → b < c → a < c) ∧
      ∀ part : SeriesPart ν, Written env part → SortedCatalog part :=
  ⟨SeriesLabels.canonical_iff_fits, fun a b => ⟨Iff.rfl, lt_trichotomy a b⟩,
    fun _ _ _ => lt_trans, fun _ => sortedCatalog_of_written⟩

end Metrics

end Obsy
