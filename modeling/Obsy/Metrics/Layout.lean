import Obsy.Metrics.Part
import Obsy.Runs.Fallible
import Obsy.Runs.Tiles

/-!
# The layout of a metric part

* `Layout`: a part has given series, their catalog rows, segments, filter and bounds.
* `layout_writeSeriesPart`: the writer lays out the series it is given, every one of them.
-/

namespace Obsy

namespace Metrics

open Part (Nanos BloomFilter)
open Runs (exists_of_bind)

variable {ν : Type} {part : SeriesPart ν} {rows : List (SeriesRow ν)}

/-! ### Layouts -/

def catalogRow (base : Nanos) (row : SeriesRow ν) (chunk : ℕ) : CatalogRow where
  kind := row.payload.kind
  labels := row.labels
  chunk := chunk
  minDeltaMs := deltaFloorMs base (row.payload.timestamps.min?.getD Nanos.zero)
  maxDeltaMs := deltaCeilMs base (row.payload.timestamps.max?.getD Nanos.zero)

/-- What a segment says of the series it covers. -/
def segmentView : Runs.View SeriesTenantSegment String :=
  ⟨SeriesTenantSegment.tenant, SeriesTenantSegment.seriesStart, SeriesTenantSegment.seriesEnd⟩

def HasPairs (bloom : BloomFilter) (labels : SeriesLabels) : Prop :=
  ∃ pairs, labels.pairs = .ok pairs ∧
    ∀ pair ∈ pairs, bloom.contains (pairToken pair.1 pair.2) = true

/-- A part has the given series.  The body itself may be gone. -/
structure Layout (part : SeriesPart ν) (rows : List (SeriesRow ν)) : Prop where
  index : part.index = rows.zipIdx.map fun r => catalogRow part.baseTsNs r.1 r.2
  base : partitionBaseNs part.info.partition = .ok part.baseTsNs
  pairs : ∀ row ∈ rows, HasPairs part.bloomFile row.labels
  nonempty : ∀ row ∈ rows, row.payload.timestamps ≠ []
  seriesCount : part.info.seriesCount = rows.length
  tiles : Runs.Tiles segmentView SeriesRow.tenant 0 part.info.tenants rows
  bounds : ∀ row ∈ rows, ∀ ts ∈ row.payload.timestamps,
    part.info.minTsNs ≤ ts ∧ ts ≤ part.info.maxTsNs

/-! ### The writer -/

structure Filing (writer : StreamingSeriesPartWriter ν) (rows : List (SeriesRow ν)) : Prop where
  data : writer.data = rows.map SeriesRow.payload
  index : writer.index = rows.zipIdx.map fun r => catalogRow writer.baseTsNs r.1 r.2
  sized : 0 < writer.bloom.numBits ∧ writer.bloom.bits.length = writer.bloom.numBits
  pairs : ∀ row ∈ rows, HasPairs writer.bloom row.labels
  nonempty : ∀ row ∈ rows, row.payload.timestamps ≠ []
  seriesCount : writer.seriesCount = rows.length
  tiles : Runs.Tiles segmentView SeriesRow.tenant 0 writer.finishTenant.segments rows
  bounds : ∀ row ∈ rows, ∀ ts ∈ row.payload.timestamps, writer.partMin ≤ ts ∧ ts ≤ writer.partMax

variable {writer writer' : StreamingSeriesPartWriter ν}

theorem filing_create {sizing : ℕ → ℕ × ℕ} (hsizing : ∀ n, 0 < (sizing n).1) {partition : ℤ}
    {bloomItems : ℕ} (h : StreamingSeriesPartWriter.create sizing partition bloomItems = .ok writer) :
    Filing writer [] ∧ partitionBaseNs partition = .ok writer.baseTsNs := by
  obtain ⟨base, hbase, hwriter⟩ := exists_of_bind h
  obtain rfl := Except.ok.inj hwriter
  exact ⟨⟨rfl, rfl, ⟨hsizing _, List.length_replicate⟩, nofun, nofun, rfl, rfl, nofun⟩, hbase⟩

/-- What a filter has it has after any insertions. -/
theorem HasPairs.foldl_insert {bloom : BloomFilter} {labels : SeriesLabels} (h : HasPairs bloom labels)
    (hsized : 0 < bloom.numBits ∧ bloom.bits.length = bloom.numBits) (items : List (List UInt8)) :
    HasPairs (items.foldl BloomFilter.insert bloom) labels := by
  obtain ⟨pairs, hpairs, hhas⟩ := h
  exact ⟨pairs, hpairs, fun pair hp =>
    Part.contains_foldl_insert hsized.1 hsized.2 (.inl (hhas pair hp))⟩

theorem sized_foldl_insert {bloom : BloomFilter}
    (hsized : 0 < bloom.numBits ∧ bloom.bits.length = bloom.numBits) (items : List (List UInt8)) :
    0 < (items.foldl BloomFilter.insert bloom).numBits ∧
      (items.foldl BloomFilter.insert bloom).bits.length =
        (items.foldl BloomFilter.insert bloom).numBits := by
  induction items generalizing bloom with
  | nil => exact hsized
  | cons item items ih =>
    refine ih ⟨hsized.1, ?_⟩
    rw [BloomFilter.insert, Part.length_foldl_set]
    exact hsized.2

/-- What a successful `writeRow` does. -/
theorem writeRow_spec {row : SeriesRow ν}
    (h : writer.writeRow row.tenant row.labels row.payload = .ok writer') :
    ∃ minTs maxTs pairs, row.payload.timestamps.min? = some minTs ∧
      row.payload.timestamps.max? = some maxTs ∧ row.labels.pairs = .ok pairs ∧
      writer'.data = writer.data ++ [row.payload] ∧
      writer'.index = writer.index ++ [catalogRow writer.baseTsNs row writer.data.length] ∧
      writer'.bloom = (pairs.map fun pair => pairToken pair.1 pair.2).foldl BloomFilter.insert
        writer.bloom ∧
      writer'.baseTsNs = writer.baseTsNs ∧ writer'.seriesCount = writer.seriesCount + 1 ∧
      writer'.partMin = min writer.partMin minTs ∧ writer'.partMax = max writer.partMax maxTs ∧
      writer'.segments = (writer.startTenant row.tenant).segments ∧
      writer'.currentTenant = some row.tenant ∧
      writer'.currentSeriesStart = (writer.startTenant row.tenant).currentSeriesStart := by
  have hstart : ∀ (w : StreamingSeriesPartWriter ν) tenant,
      (w.startTenant tenant).data = w.data ∧ (w.startTenant tenant).index = w.index ∧
      (w.startTenant tenant).bloom = w.bloom ∧ (w.startTenant tenant).baseTsNs = w.baseTsNs ∧
      (w.startTenant tenant).seriesCount = w.seriesCount ∧
      (w.startTenant tenant).partMin = w.partMin ∧ (w.startTenant tenant).partMax = w.partMax ∧
      (w.startTenant tenant).currentTenant = some tenant := by
    intro w tenant
    rw [StreamingSeriesPartWriter.startTenant]
    split
    · rename_i heq
      exact ⟨rfl, rfl, rfl, rfl, rfl, rfl, rfl, heq⟩
    · rw [StreamingSeriesPartWriter.finishTenant]
      split <;> exact ⟨rfl, rfl, rfl, rfl, rfl, rfl, rfl, rfl⟩
  obtain ⟨hdata, hindex, hbloom, hbase, hcount, hmin, hmax, htenant⟩ := hstart writer row.tenant
  rw [StreamingSeriesPartWriter.writeRow] at h
  split at h
  case h_2 => cases h
  case h_1 minTs maxTs hminTs hmaxTs =>
    dsimp only at h
    split at h
    · cases h
    · obtain ⟨labelsOffset, -, h⟩ := exists_of_bind h
      obtain ⟨pairs, hpairs, h⟩ := exists_of_bind h
      obtain ⟨seriesCount, hseries, h⟩ := exists_of_bind h
      obtain ⟨sampleCount, -, h⟩ := exists_of_bind h
      obtain ⟨segmentSamples, -, h⟩ := exists_of_bind h
      obtain rfl := Except.ok.inj h
      refine ⟨minTs, maxTs, pairs, hminTs, hmaxTs, hpairs, by rw [hdata], ?_, ?_, hbase, ?_,
        by rw [hmin], by rw [hmax], rfl, htenant, rfl⟩
      · rw [hindex, hbase, hdata, catalogRow, hminTs, hmaxTs]
        rfl
      · rw [hbloom, List.foldl_map]
      · rw [checkedAdd] at hseries
        split at hseries
        · obtain rfl := Except.ok.inj hseries
          dsimp only
          rw [hcount]
        · cases hseries

theorem Filing.writeRow (h : Filing writer rows) {row : SeriesRow ν}
    (hwrite : writer.writeRow row.tenant row.labels row.payload = .ok writer') :
    Filing writer' (rows ++ [row]) ∧ writer'.baseTsNs = writer.baseTsNs := by
  obtain ⟨minTs, maxTs, pairs, hminTs, hmaxTs, hpairs, hdata, hindex, hbloom, hbase, hcount, hmin,
    hmax, hsegments, htenant, hfirst⟩ := writeRow_spec hwrite
  refine ⟨⟨?_, ?_, ?_, fun other ho => ?_, fun other ho => ?_, ?_, ?_, fun other ho ts hts => ?_⟩,
    hbase⟩
  · rw [hdata, h.data, List.map_append]
    rfl
  · rw [hindex, h.index, hbase, h.data, List.length_map, List.zipIdx_append, List.map_append]
    simp
  · rw [hbloom]
    exact sized_foldl_insert h.sized _
  · rw [hbloom]
    rcases List.mem_append.1 ho with ho | ho
    · exact (h.pairs other ho).foldl_insert h.sized _
    · rw [List.mem_singleton.1 ho]
      exact ⟨pairs, hpairs, fun pair hp => Part.contains_foldl_insert h.sized.1 h.sized.2
        (.inr (List.mem_map_of_mem hp))⟩
  · rcases List.mem_append.1 ho with ho | ho
    · exact h.nonempty other ho
    · rw [List.mem_singleton.1 ho]
      intro hnil
      rw [hnil] at hminTs
      cases hminTs
  · rw [hcount, h.seriesCount, List.length_append]
    rfl
  · have htiles := h.tiles
    have hclosed : writer'.finishTenant.segments = (writer.startTenant row.tenant).segments ++
        [⟨row.tenant, (writer.startTenant row.tenant).currentSeriesStart, writer.seriesCount + 1,
          writer'.currentSegmentSamples⟩] := by
      rw [StreamingSeriesPartWriter.finishTenant, htenant, hsegments, hfirst, hcount]
    rw [hclosed]
    by_cases hsame : writer.currentTenant = some row.tenant
    · -- the series goes on with the tenant of the one before it
      rw [StreamingSeriesPartWriter.startTenant, if_pos hsame]
      rw [StreamingSeriesPartWriter.finishTenant, hsame] at htiles
      exact htiles.extend rfl rfl rfl (by rw [h.seriesCount]; exact (Nat.zero_add _).symm ▸ rfl)
    · rw [StreamingSeriesPartWriter.startTenant, if_neg hsame]
      refine htiles.push rfl ?_ ?_
      · exact h.seriesCount.trans (Nat.zero_add _).symm
      · exact (congrArg (· + 1) h.seriesCount).trans (by rw [Nat.zero_add])
  · rw [hmin, hmax]
    rcases List.mem_append.1 ho with ho | ho
    · obtain ⟨hlo, hhi⟩ := h.bounds other ho ts hts
      exact ⟨(min_le_left _ _).trans hlo, hhi.trans (le_max_left _ _)⟩
    · rw [List.mem_singleton.1 ho] at hts
      exact ⟨(min_le_right _ _).trans ((List.min?_eq_some_iff.1 hminTs).2 ts hts),
        ((List.max?_eq_some_iff.1 hmaxTs).2 ts hts).trans (le_max_right _ _)⟩

/-- The files of a part that a writer of some series ends. -/
theorem Filing.finish (h : Filing writer rows) {partition : ℤ}
    (hbase : partitionBaseNs partition = .ok writer.baseTsNs) (id : String) :
    Layout (writer.finish id partition) rows ∧
      (writer.finish id partition).data = some (rows.map SeriesRow.payload) := by
  have hsame : writer.finishTenant.data = writer.data ∧ writer.finishTenant.index = writer.index ∧
      writer.finishTenant.bloom = writer.bloom ∧ writer.finishTenant.baseTsNs = writer.baseTsNs ∧
      writer.finishTenant.seriesCount = writer.seriesCount ∧
      writer.finishTenant.partMin = writer.partMin ∧
      writer.finishTenant.partMax = writer.partMax := by
    rw [StreamingSeriesPartWriter.finishTenant]
    split <;> exact ⟨rfl, rfl, rfl, rfl, rfl, rfl, rfl⟩
  obtain ⟨hdata, hindex, hbloom, hbaseTs, hcount, hmin, hmax⟩ := hsame
  refine ⟨⟨?_, ?_, fun row hrow => ?_, h.nonempty, ?_, h.tiles, fun row hrow ts hts => ?_⟩, ?_⟩
  · exact (hindex.trans h.index).trans (by rw [StreamingSeriesPartWriter.finish, hbaseTs])
  · exact hbase.trans (congrArg Except.ok hbaseTs.symm)
  · rw [StreamingSeriesPartWriter.finish, hbloom]
    exact h.pairs row hrow
  · exact hcount.trans h.seriesCount
  · rw [StreamingSeriesPartWriter.finish, hmin, hmax]
    exact h.bounds row hrow ts hts
  · exact congrArg some (hdata.trans h.data)

/-- **The writer** lays out the series it is given, in their order. -/
theorem layout_writeSeriesPart {sizing : ℕ → ℕ × ℕ} (hsizing : ∀ n, 0 < (sizing n).1) {id : String}
    {partition : ℤ} {bloomItems : ℕ}
    (h : writeSeriesPart sizing id partition bloomItems rows = .ok part) :
    Layout part rows ∧ part.data = some (rows.map SeriesRow.payload) := by
  obtain ⟨first, hcreate, hrest⟩ := exists_of_bind h
  obtain ⟨last, hfold, hpart⟩ := exists_of_bind hrest
  obtain rfl := Except.ok.inj hpart
  obtain ⟨hnew, hbase⟩ := filing_create hsizing hcreate
  have hstep : ∀ (w : StreamingSeriesPartWriter ν) written row w',
      Filing w written ∧ partitionBaseNs partition = .ok w.baseTsNs →
      w.writeRow row.tenant row.labels row.payload = .ok w' →
      Filing w' (written ++ [row]) ∧ partitionBaseNs partition = .ok w'.baseTsNs := by
    rintro w written row w' ⟨hfiling, hb⟩ hwrite
    obtain ⟨hfiling', hb'⟩ := hfiling.writeRow hwrite
    exact ⟨hfiling', hb' ▸ hb⟩
  obtain ⟨hall, hb⟩ := Runs.foldlM_invariant hstep ⟨hnew, hbase⟩ hfold
  exact hall.finish hb id

end Metrics

end Obsy
