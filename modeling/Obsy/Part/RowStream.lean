import Obsy.Part.Scan

/-!
# The rows of parts in order

A merge reads the row groups of a part page by page and takes the least of the first rows of its
parts, every row once.

* `readRowsInRowGroups_spec`: a page holds the rows of its row groups, in order.
* `PartRowStream`: the rows of one part.
* `MergedRows`: the rows of several parts.
* `mergedRows_yields`: every row of the parts, once and in order.
-/

namespace Obsy

namespace Part

variable (P : Platform) (evict : ℕ → GroupCache.Eviction)

/-! ### One part -/

/-- A part whose decoded rows other scans keep and give back between the pages of a merge. -/
structure SharedReader where
  part : LogPart
  /-- The cache when the page is read that begins with a row group. -/
  cacheAt : ℕ → GroupCache

/-- The rows of a part, one page at a time. -/
structure PartRowStream where
  reader : SharedReader
  nextGroup : ℕ
  groupCount : ℕ
  groupsPerPage : ℕ
  page : List Row

namespace PartRowStream

/-- A stream whose pages are about as large as asked, of one row group at least. -/
def create (pageBytes : ℕ) (reader : SharedReader) : PartRowStream :=
  let info := reader.part.info
  let rowsPerGroup := max (info.rowCount / max info.rowGroupCount 1) 1
  let bytesPerRow := max (info.materializedBytes / max info.rowCount 1) 1
  let bytesPerGroup := max (min (rowsPerGroup * bytesPerRow) (2 ^ 64 - 1)) 1
  { reader
    nextGroup := 0
    groupCount := info.rowGroupCount
    groupsPerPage := min (max (pageBytes / bytesPerGroup) 1) (max info.rowGroupCount 1)
    page := [] }

/-- The next row, reading at most so many pages for it. -/
def nextRowWithin : ℕ → PartRowStream → Except String (Option Row × PartRowStream)
  | fuel, stream =>
    match stream.page with
    | row :: page => .ok (some row, { stream with page })
    | [] =>
      if stream.groupCount ≤ stream.nextGroup then .ok (none, stream)
      else
        match fuel with
        | 0 => .ok (none, stream)
        | fuel + 1 =>
          let pageEnd := min (stream.nextGroup + stream.groupsPerPage) stream.groupCount
          match readRowsInRowGroups P evict
              ⟨stream.reader.part, stream.reader.cacheAt stream.nextGroup⟩
              (stream.nextGroup, pageEnd) with
          | .error e => .error e
          | .ok page => nextRowWithin fuel { stream with nextGroup := pageEnd, page }

/-- The next row, or `none` once the part is exhausted; a page has a row group at least. -/
def nextRow (stream : PartRowStream) : Except String (Option Row × PartRowStream) :=
  stream.nextRowWithin P evict (stream.groupCount - stream.nextGroup)

end PartRowStream

/-! ### Several parts -/

/-- A row and the stream it came from. -/
structure Head where
  row : Row
  stream : ℕ

/-- Adds a head; the heap yields a least one first. -/
def pushHead (head : Head) (heap : List Head) : List Head :=
  heap.orderedInsert (fun a b => a.row ≤ b.row) head

/-- A merge of the rows of several parts. -/
structure MergedRows where
  streams : List PartRowStream
  heap : List Head
  primed : Bool

namespace MergedRows

def create (readers : List SharedReader) (pageBytes : ℕ) : MergedRows :=
  ⟨readers.map (PartRowStream.create pageBytes), [], false⟩

/-- Adds the next row of a stream to the heap. -/
def pushFrom (merged : MergedRows) (stream : ℕ) : Except String MergedRows :=
  match merged.streams[stream]? with
  | none => .ok merged
  | some source =>
    (source.nextRow P evict).map fun next =>
      { merged with
        streams := merged.streams.set stream next.2
        heap := match next.1 with
          | some row => pushHead ⟨row, stream⟩ merged.heap
          | none => merged.heap }

/-- Before the first row, every stream adds its first. -/
def prime (merged : MergedRows) : Except String MergedRows :=
  if merged.primed then .ok merged
  else ((List.range merged.streams.length).foldlM (pushFrom P evict) merged).map fun merged =>
    { merged with primed := true }

/-- Takes a least row and has its stream add the next one. -/
def popHead (merged : MergedRows) : Except String (Option Row × MergedRows) :=
  match merged.heap with
  | [] => .ok (none, merged)
  | head :: heap =>
    (pushFrom P evict { merged with heap } head.stream).map fun merged => (some head.row, merged)

def pop (merged : MergedRows) : Except String (Option Row × MergedRows) :=
  match merged.prime P evict with
  | .error e => .error e
  | .ok merged => merged.popHead P evict

/-- Drops the copies of a row, at most so many. -/
def skipEqual (row : Row) : ℕ → MergedRows → Except String MergedRows
  | 0, merged => .ok merged
  | fuel + 1, merged =>
    if merged.heap.head?.any fun head => head.row == row then
      match merged.pop P evict with
      | .error e => .error e
      | .ok (_, merged) => skipEqual row fuel merged
    else .ok merged

/-- The next row, without the copies of it, of which there are at most so many. -/
def nextRow (fuel : ℕ) (merged : MergedRows) : Except String (Option Row × MergedRows) :=
  match merged.pop P evict with
  | .error e => .error e
  | .ok (none, merged) => .ok (none, merged)
  | .ok (some row, merged) => (merged.skipEqual P evict row fuel).map fun merged => (some row, merged)

end MergedRows

variable {P evict} {part : LogPart} {groups : List (List ParsedRow)}

/-! ### Pages -/

/-- The segments of the tenants cover the row groups one after another. -/
theorem Tiled.flatMap_range {start : ℕ} {segments : List TenantSegment}
    (h : Tiled start segments groups) :
    segments.flatMap (fun segment =>
        List.range' segment.rowGroupStart (segment.rowGroupEnd - segment.rowGroupStart))
      = List.range' start groups.length := by
  induction segments generalizing start groups with
  | nil =>
    obtain rfl : groups = [] := h
    rfl
  | cons segment segments ih =>
    obtain ⟨mine, rest, rfl, -, hstart, hend, -, -, -, -, hrest⟩ := h
    have hlen : start + mine.length - start = mine.length := by omega
    rw [List.flatMap_cons, ih hrest, hstart, hend, hlen, List.length_append,
      ← List.range'_append_1]

theorem find?_tenant {segments : List TenantSegment}
    (h : (segments.map TenantSegment.tenant).Pairwise (· < ·)) {segment : TenantSegment}
    (hs : segment ∈ segments) :
    (segments.find? fun other => other.tenant == segment.tenant) = some segment := by
  induction segments with
  | nil => cases hs
  | cons first segments ih =>
    obtain ⟨hfirst, hlater⟩ := List.pairwise_cons.1 h
    rcases List.mem_cons.1 hs with rfl | hs
    · exact List.find?_cons_of_pos (by simp)
    · have hne : first.tenant ≠ segment.tenant := (hfirst _ (List.mem_map_of_mem hs)).ne
      rw [List.find?_cons_of_neg (by simpa using hne)]
      exact ih hlater hs

/-- The sink of a merge takes every row. -/
theorem foldlM_rowCollector {window : ℕ × ℕ} {tenant : String} (rows offered : List Row)
    (h : ∀ row ∈ offered, row.tenant = tenant) :
    offered.foldlM (offerRow (rowCollector tenant) (windowRequest window tenant)) rows
      = .ok (rows ++ offered) := by
  induction offered generalizing rows with
  | nil => rw [List.append_nil]; rfl
  | cons row offered ih =>
    have hrow : offerRow (rowCollector tenant) (windowRequest window tenant) rows row
        = .ok (rows ++ [row]) := by
      have hcontains : (windowRequest window tenant).range.contains row.timestampNs = true :=
        QueryTimeRange.contains_unbounded _
      have hentry : Row.fromEntry tenant row.entry = row := by
        rw [← h row List.mem_cons_self]
        rfl
      rw [offerRow, hcontains]
      simp only [rowCollector, hentry]
      rfl
    have hrest := ih (rows ++ [row]) fun r hr => h r (List.mem_cons_of_mem _ hr)
    rw [List.foldlM_cons, hrow]
    rw [List.append_assoc] at hrest
    exact hrest

theorem QueryTimeRange.overlaps_unbounded (lo hi : Nanos) : unbounded.overlaps lo hi = true := by
  have hmin := Nanos.min_le hi
  have hmax := (Nanos.le_max lo).lt_or_eq
  simp only [overlaps, unbounded, Bool.and_eq_true, Bool.or_eq_true, beq_iff_eq, true_and]
  exact ⟨decide_eq_true hmin, hmax.imp decide_eq_true id⟩

/-- A merge reads every row group of the segment that is in its window. -/
theorem selectRowGroups_window (h : Layout P part groups) {segment : TenantSegment}
    (hs : segment ∈ part.info.tenants) (window : ℕ × ℕ) :
    orderRowGroups (windowRequest window segment.tenant) part.info
        (selectRowGroups P part segment.tenant [] [] .unbounded)
      = (List.range' segment.rowGroupStart
          (segment.rowGroupEnd - segment.rowGroupStart)).filter fun g =>
            window.1 ≤ g && g < window.2 := by
  have hfind : part.info.tenantSegment segment.tenant = some segment :=
    find?_tenant h.pairwise_tenants hs
  rw [selectRowGroups, hfind]
  simp only [orderRowGroups, windowRequest, QueryTimeRange.overlaps_unbounded, Bool.true_and]
  congr 1
  refine List.filter_eq_self.2 fun g _ => ?_
  refine (Option.all_eq_true _ _).2 fun blooms _ => ?_
  rfl

/-- A fold whose steps each add some rows. -/
theorem foldlM_append_of_ok {α β : Type*} {step : List β → α → Except String (List β)}
    {f : α → List β} {items : List α} {init : List β}
    (h : ∀ item ∈ items, ∀ rows, step rows item = .ok (rows ++ f item)) :
    items.foldlM step init = .ok (init ++ items.flatMap f) := by
  induction items generalizing init with
  | nil => rw [List.flatMap_nil, List.append_nil]; rfl
  | cons item items ih =>
    have hrest : items.foldlM step (init ++ f item) = .ok (init ++ f item ++ items.flatMap f) :=
      ih fun i hi => h i (List.mem_cons_of_mem _ hi)
    rw [List.foldlM_cons, h item List.mem_cons_self, List.flatMap_cons, ← List.append_assoc]
    exact hrest

/-- A page holds the rows of its row groups, in order. -/
theorem readRowsInRowGroups_spec (h : Layout P part groups) {cache : GroupCache}
    (hcache : cache.Sound part) (window : ℕ × ℕ) :
    readRowsInRowGroups P evict ⟨part, cache⟩ window
      = .ok (((List.range groups.length).filter fun g =>
          window.1 ≤ g && g < window.2).flatMap (rowsOf groups)) := by
  -- what one segment adds
  have hsegment : ∀ segment ∈ part.info.tenants, ∀ rows : List Row,
      (if window.2 ≤ segment.rowGroupStart || segment.rowGroupEnd ≤ window.1 then .ok rows
        else (scanInto P (rowCollector segment.tenant) (windowRequest window segment.tenant) evict
          ⟨part, cache⟩ []).map fun state => rows ++ state.1)
        = (.ok (rows ++ ((List.range' segment.rowGroupStart
            (segment.rowGroupEnd - segment.rowGroupStart)).filter fun g =>
              window.1 ≤ g && g < window.2).flatMap (rowsOf groups)) :
          Except String (List Row)) := by
    intro segment hs rows
    split
    case isTrue hskip =>
      have hnone : ((List.range' segment.rowGroupStart
          (segment.rowGroupEnd - segment.rowGroupStart)).filter fun g =>
            window.1 ≤ g && g < window.2) = [] := by
        refine List.filter_eq_nil_iff.2 fun g hg => ?_
        have := List.mem_range'_1.1 hg
        simp only [Bool.or_eq_true, decide_eq_true_eq] at hskip
        simp only [Bool.and_eq_true, decide_eq_true_eq, not_and, not_lt]
        omega
      rw [hnone, List.flatMap_nil, List.append_nil]
    case isFalse =>
      have hadmits : ∀ row : Row, (fun _ => true) row = true →
          (windowRequest window segment.tenant).Admits P row := fun row _ =>
        ⟨QueryTimeRange.contains_unbounded _, fun p hp => by cases hp⟩
      have hopen : (rowCollector segment.tenant).isClosed [] = false := rfl
      obtain ⟨offered, cache', -, hscan, hrows, hfound⟩ :=
        scanInto_spec (rowCollector segment.tenant) h hadmits evict hcache hopen
      have htenant : ∀ row ∈ offered, row.tenant = segment.tenant := fun row hrow =>
        (hrows row hrow).2
      have hselected := selectRowGroups_window h hs window
      rw [hscan, foldlM_rowCollector [] offered htenant]
      simp only [List.filter_true] at hfound
      simp only [Except.map, List.nil_append, hfound]
      simp only [windowRequest] at hselected ⊢
      rw [hselected]
      rfl
  rw [readRowsInRowGroups, foldlM_append_of_ok hsegment, List.nil_append, h.tenants,
    ← List.flatMap_assoc, ← List.filter_flatMap, (tiled_tenantSegments groups).flatMap_range,
    List.range_eq_range']

/-! ### The rows of a stream -/

/-- A stream of a part yields some rows from here on. -/
structure PartRowStream.Streams (P : Platform) (stream : PartRowStream)
    (groups : List (List ParsedRow)) (rest : List Row) : Prop where
  layout : Layout P stream.reader.part groups
  sound : ∀ g, (stream.reader.cacheAt g).Sound stream.reader.part
  groupCount : stream.groupCount = groups.length
  groupsPerPage : 0 < stream.groupsPerPage
  nextGroup : stream.nextGroup ≤ stream.groupCount
  rest : rest = stream.page ++
    (List.range' stream.nextGroup (stream.groupCount - stream.nextGroup)).flatMap (rowsOf groups)

/-- A window in the row groups is all of them from its first to its last. -/
theorem filter_range_window {count first last : ℕ} (hlast : last ≤ count) :
    (List.range count).filter (fun g => first ≤ g && g < last)
      = List.range' first (last - first) := by
  have hwindow : ((List.range count).filter fun g => first ≤ g && g < last).Perm
      (List.range' first (last - first)) := by
    refine (List.perm_ext_iff_of_nodup (List.nodup_range.filter _) List.nodup_range').2 fun g => ?_
    simp only [List.mem_filter, List.mem_range, List.mem_range'_1, Bool.and_eq_true,
      decide_eq_true_eq]
    omega
  have hsorted : ((List.range count).filter fun g => first ≤ g && g < last).Pairwise (· < ·) :=
    List.pairwise_lt_range.filter _
  exact hwindow.eq_of_pairwise (fun a b _ _ hab hba => absurd (hab.trans hba) (lt_irrefl a)) hsorted
    List.pairwise_lt_range'

theorem range'_split {first mid last : ℕ} (h : first ≤ mid) (h' : mid ≤ last) :
    List.range' first (last - first)
      = List.range' first (mid - first) ++ List.range' mid (last - mid) := by
  obtain ⟨taken, rfl⟩ := Nat.exists_eq_add_of_le h
  obtain ⟨left, rfl⟩ := Nat.exists_eq_add_of_le h'
  have htaken : first + taken - first = taken := by omega
  have hleft : first + taken + left - (first + taken) = left := by omega
  have hboth : first + taken + left - first = taken + left := by omega
  rw [htaken, hleft, hboth, List.range'_append_1]

variable {stream : PartRowStream}

theorem streams_create {pageBytes : ℕ} {reader : SharedReader} (h : Layout P reader.part groups)
    (hsound : ∀ g, (reader.cacheAt g).Sound reader.part) :
    (PartRowStream.create pageBytes reader).Streams P groups (groups.flatten.map Prod.fst) where
  layout := h
  sound := hsound
  groupCount := h.rowGroupCount
  groupsPerPage := by simp [PartRowStream.create]
  nextGroup := Nat.zero_le _
  rest := by
    have hcount : (PartRowStream.create pageBytes reader).groupCount = groups.length :=
      h.rowGroupCount
    rw [hcount, ← flatMap_rowsOf, List.range_eq_range']
    rfl

/-- The next row of a page. -/
theorem PartRowStream.Streams.taken {rest : List Row} (h : stream.Streams P groups rest) {row : Row}
    {page : List Row} (hpage : stream.page = row :: page) :
    ∃ stream' : PartRowStream, stream'.Streams P groups rest.tail ∧
      (.ok (some row, { stream with page }) : Except String (Option Row × PartRowStream))
        = .ok (rest.head?, stream') := by
  have hrest := h.rest
  rw [hpage, List.cons_append] at hrest
  refine ⟨{ stream with page }, ⟨h.layout, h.sound, h.groupCount, h.groupsPerPage, h.nextGroup, ?_⟩,
    ?_⟩
  · rw [hrest, List.tail_cons]
  · rw [hrest, List.head?_cons]

/-- No row is left after the last page. -/
theorem PartRowStream.Streams.exhausted {rest : List Row} (h : stream.Streams P groups rest)
    (hpage : stream.page = []) (hend : stream.groupCount ≤ stream.nextGroup) :
    ∃ stream' : PartRowStream, stream'.Streams P groups rest.tail ∧
      (.ok (none, stream) : Except String (Option Row × PartRowStream))
        = .ok (rest.head?, stream') := by
  have hrest : rest = [] := by
    rw [h.rest, hpage, Nat.sub_eq_zero_of_le hend]
    rfl
  subst hrest
  exact ⟨stream, h, rfl⟩

/-- A stream yields its rows one by one. -/
theorem PartRowStream.Streams.nextRowWithin {rest : List Row} (h : stream.Streams P groups rest)
    {fuel : ℕ} (hfuel : stream.groupCount - stream.nextGroup ≤ fuel) :
    ∃ stream' : PartRowStream, stream'.Streams P groups rest.tail ∧
      stream.nextRowWithin P evict fuel = .ok (rest.head?, stream') := by
  induction fuel generalizing stream with
  | zero =>
    rw [PartRowStream.nextRowWithin]
    split
    case h_1 row page hpage => exact h.taken hpage
    case h_2 hpage =>
      have hend : stream.groupCount ≤ stream.nextGroup := by omega
      rw [if_pos hend]
      exact h.exhausted hpage hend
  | succ fuel ih =>
    rw [PartRowStream.nextRowWithin]
    split
    case h_1 row page hpage => exact h.taken hpage
    case h_2 hpage =>
      by_cases hend : stream.groupCount ≤ stream.nextGroup
      · rw [if_pos hend]
        exact h.exhausted hpage hend
      · have hnext := h.groupsPerPage
        have hlast : min (stream.nextGroup + stream.groupsPerPage) stream.groupCount
            ≤ groups.length := (min_le_right _ _).trans h.groupCount.le
        set last := min (stream.nextGroup + stream.groupsPerPage) stream.groupCount with hlast'
        have hread : readRowsInRowGroups P evict
            ⟨stream.reader.part, stream.reader.cacheAt stream.nextGroup⟩ (stream.nextGroup, last)
              = .ok ((List.range' stream.nextGroup (last - stream.nextGroup)).flatMap
                (rowsOf groups)) := by
          rw [← filter_range_window hlast]
          exact readRowsInRowGroups_spec h.layout (h.sound stream.nextGroup) _
        have hsplit : List.range' stream.nextGroup (stream.groupCount - stream.nextGroup)
            = List.range' stream.nextGroup (last - stream.nextGroup)
              ++ List.range' last (stream.groupCount - last) := range'_split (by omega) (by omega)
        rw [if_neg hend]
        simp only [hread]
        refine ih ⟨h.layout, h.sound, h.groupCount, h.groupsPerPage, min_le_right _ _, ?_⟩ ?_
        · rw [h.rest, hpage, List.nil_append, hsplit, List.flatMap_append]
        · dsimp only
          omega

theorem PartRowStream.Streams.nextRow {rest : List Row} (h : stream.Streams P groups rest) :
    ∃ stream' : PartRowStream, stream'.Streams P groups rest.tail ∧
      stream.nextRow P evict = .ok (rest.head?, stream') :=
  h.nextRowWithin le_rfl

/-! ### The rows of a merge -/

/-- What a merge has still to yield: the rows of the heap and those the streams hold back. -/
def MergedRows.remaining (merged : MergedRows) (rest : ℕ → List Row) : List Row :=
  merged.heap.map Head.row ++ (List.range merged.streams.length).flatMap rest

/-- Every stream yields its own rows, and no head in the heap comes after rows of its stream. -/
structure MergedRows.Running (P : Platform) (merged : MergedRows) (rest : ℕ → List Row) :
    Prop where
  streams : ∀ (i : ℕ) (stream : PartRowStream), merged.streams[i]? = some stream →
    ∃ groups, stream.Streams P groups (rest i)
  beyond : ∀ i, merged.streams.length ≤ i → rest i = []
  heap : merged.heap.Pairwise fun a b => a.row ≤ b.row
  sorted : ∀ i, (rest i).SortedLT
  below : ∀ head ∈ merged.heap, ∀ row ∈ rest head.stream, head.row < row

/-- A stream with rows left has one of its rows in the heap. -/
def MergedRows.Listed (merged : MergedRows) (rest : ℕ → List Row) (stream : ℕ) : Prop :=
  rest stream ≠ [] → ∃ head ∈ merged.heap, head.stream = stream

/-- The rows of some streams, when one of them gives its first row away. -/
theorem flatMap_update {rest : ℕ → List Row} {i : ℕ} {row : Row} {rows : List Row}
    (hrest : rest i = row :: rows) {indexes : List ℕ} (hnodup : indexes.Nodup)
    (hi : i ∈ indexes) :
    (indexes.flatMap rest).Perm (row :: indexes.flatMap (Function.update rest i rows)) := by
  induction indexes with
  | nil => cases hi
  | cons first indexes ih =>
    obtain ⟨hfirst, hlater⟩ := List.nodup_cons.1 hnodup
    rw [List.flatMap_cons, List.flatMap_cons]
    by_cases heq : first = i
    · subst heq
      have hsame : indexes.flatMap (Function.update rest first rows) = indexes.flatMap rest := by
        refine List.flatMap_congr fun j hj => ?_
        rw [Function.update_of_ne (ne_of_mem_of_not_mem hj hfirst)]
      rw [hsame, hrest, Function.update_self]
      exact .refl _
    · have hmem : i ∈ indexes := (List.mem_cons.1 hi).resolve_left (Ne.symm heq)
      rw [Function.update_of_ne heq]
      exact ((ih hlater hmem).append_left _).trans List.perm_middle

theorem perm_pushHead (head : Head) (heap : List Head) :
    (pushHead head heap).Perm (head :: heap) := List.perm_orderedInsert _ _ _

theorem pairwise_pushHead {head : Head} {heap : List Head}
    (h : heap.Pairwise fun a b => a.row ≤ b.row) :
    (pushHead head heap).Pairwise fun a b => a.row ≤ b.row := by
  have : Std.Total fun a b : Head => a.row ≤ b.row := ⟨fun a b => le_total a.row b.row⟩
  have : IsTrans Head fun a b => a.row ≤ b.row := ⟨fun _ _ _ h h' => h.trans h'⟩
  exact List.Pairwise.orderedInsert head heap h

variable {merged : MergedRows} {rest : ℕ → List Row}

/-- A stream adds its next row to the heap. -/
theorem MergedRows.Running.pushFrom (h : merged.Running P rest) {i : ℕ}
    (hi : i < merged.streams.length) :
    ∃ merged' rest', merged.pushFrom P evict i = .ok merged' ∧ merged'.Running P rest' ∧
      merged'.streams.length = merged.streams.length ∧ merged'.primed = merged.primed ∧
      (merged'.remaining rest').Perm (merged.remaining rest) ∧
      merged'.Listed rest' i ∧ (∀ j, merged.Listed rest j → merged'.Listed rest' j) := by
  have hget : merged.streams[i]? = some merged.streams[i] := List.getElem?_eq_getElem hi
  obtain ⟨groups, hstream⟩ := h.streams i _ hget
  obtain ⟨stream', hstream', hnext⟩ : ∃ stream' : PartRowStream,
      stream'.Streams P groups (rest i).tail ∧
        merged.streams[i].nextRow P evict = .ok ((rest i).head?, stream') := hstream.nextRow
  -- the other streams stay as they are
  have hothers : ∀ rest' : ℕ → List Row, (∀ j, j ≠ i → rest' j = rest j) → rest' i = (rest i).tail →
      ∀ (j : ℕ) (stream : PartRowStream), (merged.streams.set i stream')[j]? = some stream →
        ∃ groups, stream.Streams P groups (rest' j) := by
    intro rest' hsame htail j stream hj
    by_cases heq : i = j
    · subst heq
      rw [List.getElem?_set_self hi] at hj
      obtain rfl := Option.some.inj hj
      exact ⟨groups, htail ▸ hstream'⟩
    · rw [List.getElem?_set_ne heq] at hj
      rw [hsame j (Ne.symm heq)]
      exact h.streams j stream hj
  simp only [MergedRows.pushFrom, hget, hnext, Except.map]
  cases hrest : rest i with
  | nil =>
    refine ⟨_, rest, rfl, ⟨hothers rest (fun _ _ => rfl) (by rw [hrest]; rfl), ?_, h.heap, h.sorted,
      h.below⟩, List.length_set, rfl, ?_, fun hne => absurd hrest hne, fun j hj => hj⟩
    · simpa using h.beyond
    · simp [remaining]
  | cons row rows =>
    have hlt := (h.sorted i).pairwise
    rw [hrest, List.pairwise_cons] at hlt
    refine ⟨_, Function.update rest i rows, rfl, ⟨?_, ?_, ?_, ?_, ?_⟩, List.length_set, rfl, ?_, ?_,
      ?_⟩
    · refine hothers _ (fun j hj => Function.update_of_ne hj _ _) ?_
      rw [Function.update_self, hrest]
      rfl
    · intro j hj
      have hj' : merged.streams.length ≤ j := by simpa using hj
      rw [Function.update_of_ne (by omega)]
      exact h.beyond j hj'
    · exact pairwise_pushHead h.heap
    · intro j
      by_cases heq : j = i
      · rw [heq, Function.update_self]
        exact List.sortedLT_iff_pairwise.2 hlt.2
      · rw [Function.update_of_ne heq]
        exact h.sorted j
    · intro head hhead r hr
      rcases List.mem_cons.1 ((perm_pushHead _ _).subset hhead) with rfl | hhead
      · rw [Function.update_self] at hr
        exact hlt.1 r hr
      · by_cases heq : head.stream = i
        · rw [heq, Function.update_self] at hr
          have : r ∈ rest head.stream := by
            rw [heq, hrest]
            exact List.mem_cons_of_mem _ hr
          exact h.below head hhead r this
        · rw [Function.update_of_ne heq] at hr
          exact h.below head hhead r hr
    · have hupdate := flatMap_update hrest List.nodup_range (List.mem_range.2 hi)
      have hheap := (perm_pushHead ⟨row, i⟩ merged.heap).map Head.row
      simp only [remaining, List.length_set, List.head?_cons]
      refine (hheap.append_right _).trans ?_
      rw [List.map_cons, List.cons_append]
      exact (List.perm_middle.symm).trans (hupdate.symm.append_left _)
    · exact fun _ => ⟨⟨row, i⟩, (perm_pushHead _ _).symm.subset List.mem_cons_self, rfl⟩
    · intro j hj hne
      by_cases heq : j = i
      · exact ⟨⟨row, i⟩, (perm_pushHead _ _).symm.subset List.mem_cons_self, heq.symm⟩
      · rw [Function.update_of_ne heq] at hne
        obtain ⟨head, hhead, hof⟩ := hj hne
        exact ⟨head, (perm_pushHead _ _).symm.subset (List.mem_cons_of_mem _ hhead), hof⟩

/-- A merge under way: every stream with rows left has one of them in the heap. -/
structure MergedRows.Primed (P : Platform) (merged : MergedRows) (rest : ℕ → List Row) : Prop
    extends merged.Running P rest where
  primed : merged.primed = true
  listed : ∀ i, merged.Listed rest i

/-- Priming a merge adds the first row of every stream. -/
theorem MergedRows.Running.prime (h : merged.Running P rest) (hprimed : merged.primed = false) :
    ∃ merged' rest', merged.prime P evict = .ok merged' ∧ merged'.Primed P rest' ∧
      (merged'.remaining rest').Perm (merged.remaining rest) := by
  -- the streams are primed one by one, and the ones before stay listed
  have hstep : ∀ indexes : List ℕ, (∀ i ∈ indexes, i < merged.streams.length) →
      ∀ (current : MergedRows) (now : ℕ → List Row), current.Running P now →
        current.streams.length = merged.streams.length →
        (current.remaining now).Perm (merged.remaining rest) →
        ∃ merged' rest', indexes.foldlM (MergedRows.pushFrom P evict) current = .ok merged' ∧
          merged'.Running P rest' ∧ merged'.streams.length = merged.streams.length ∧
          (merged'.remaining rest').Perm (merged.remaining rest) ∧
          (∀ i, current.Listed now i ∨ i ∈ indexes → merged'.Listed rest' i) := by
    intro indexes
    induction indexes with
    | nil =>
      intro _ current now hrun hlen hperm
      exact ⟨current, now, rfl, hrun, hlen, hperm, fun i hi => hi.resolve_right (by simp)⟩
    | cons first indexes ih =>
      intro hbound current now hrun hlen hperm
      have hfirst := hbound first List.mem_cons_self
      obtain ⟨next, later, hpush, hrun', hlen', -, hperm', hlisted, hkeep⟩ :=
        (hrun.pushFrom (hlen ▸ hfirst) : ∃ merged' rest',
          current.pushFrom P evict first = .ok merged' ∧ _)
      obtain ⟨merged', rest', hfold, hrun'', hlen'', hperm'', hlisted'⟩ :=
        ih (fun i hi => hbound i (List.mem_cons_of_mem _ hi)) next later hrun' (hlen'.trans hlen)
          (hperm'.trans hperm)
      refine ⟨merged', rest', ?_, hrun'', hlen'', hperm'', fun i hi => hlisted' i ?_⟩
      · rw [List.foldlM_cons, hpush]
        exact hfold
      · rcases hi with hi | hi
        · exact .inl (hkeep i hi)
        · rcases List.mem_cons.1 hi with rfl | hi
          · exact .inl hlisted
          · exact .inr hi
  obtain ⟨merged', rest', hfold, hrun, hlen, hperm, hlisted⟩ :=
    hstep (List.range merged.streams.length) (fun i hi => List.mem_range.1 hi) merged rest h rfl
      (.refl _)
  refine ⟨{ merged' with primed := true }, rest', ?_, ⟨⟨hrun.streams, hrun.beyond, hrun.heap,
    hrun.sorted, hrun.below⟩, rfl, fun i hne => ?_⟩, hperm⟩
  · rw [MergedRows.prime, hprimed, hfold]
    rfl
  · by_cases hi : i < merged.streams.length
    · exact hlisted i (.inr (List.mem_range.2 hi)) hne
    · exact absurd (hrun.beyond i (by omega)) hne

theorem MergedRows.Primed.prime (h : merged.Primed P rest) :
    merged.prime P evict = .ok merged := by
  rw [MergedRows.prime, h.primed]
  rfl

/-- The first head is a least row of those left. -/
theorem MergedRows.Primed.head_le (h : merged.Primed P rest) {head : Head} {heap : List Head}
    (hheap : merged.heap = head :: heap) {row : Row} (hrow : row ∈ merged.remaining rest) :
    head.row ≤ row := by
  have hmin : ∀ other ∈ merged.heap, head.row ≤ other.row := by
    intro other hother
    have hpair := h.heap
    rw [hheap] at hpair hother
    rcases List.mem_cons.1 hother with rfl | hother
    · exact le_rfl
    · exact (List.pairwise_cons.1 hpair).1 other hother
  rcases List.mem_append.1 hrow with hrow | hrow
  · obtain ⟨other, hother, rfl⟩ := List.mem_map.1 hrow
    exact hmin other hother
  · obtain ⟨i, -, hi⟩ := List.mem_flatMap.1 hrow
    obtain ⟨other, hother, rfl⟩ := h.listed i (List.ne_nil_of_mem hi)
    exact (hmin other hother).trans (h.below other hother row hi).le

theorem MergedRows.Primed.remaining_nil (h : merged.Primed P rest) (hheap : merged.heap = []) :
    merged.remaining rest = [] := by
  refine List.eq_nil_iff_forall_not_mem.2 fun row hrow => ?_
  rcases List.mem_append.1 hrow with hrow | hrow
  · rw [hheap] at hrow
    cases hrow
  · obtain ⟨i, -, hi⟩ := List.mem_flatMap.1 hrow
    obtain ⟨other, hother, -⟩ := h.listed i (List.ne_nil_of_mem hi)
    rw [hheap] at hother
    cases hother

/-- Popping takes the first head, a least row. -/
theorem MergedRows.Primed.pop (h : merged.Primed P rest) {head : Head} {heap : List Head}
    (hheap : merged.heap = head :: heap) :
    ∃ merged' rest', merged.pop P evict = .ok (some head.row, merged') ∧ merged'.Primed P rest' ∧
      (merged.remaining rest).Perm (head.row :: merged'.remaining rest') := by
  have hrun : MergedRows.Running P { merged with heap } rest := by
    have hpair := h.heap
    rw [hheap] at hpair
    exact ⟨h.streams, h.beyond, (List.pairwise_cons.1 hpair).2, h.sorted, fun other hother =>
      h.below other (hheap ▸ List.mem_cons_of_mem _ hother)⟩
  have hremaining : merged.remaining rest
      = head.row :: MergedRows.remaining { merged with heap } rest := by
    rw [MergedRows.remaining, hheap]
    rfl
  have hlisted : ∀ i, i ≠ head.stream → MergedRows.Listed { merged with heap } rest i := by
    intro i hi hne
    obtain ⟨other, hother, hof⟩ := h.listed i hne
    rw [hheap] at hother
    rcases List.mem_cons.1 hother with rfl | hother
    · exact absurd hof.symm hi
    · exact ⟨other, hother, hof⟩
  have hpop : merged.pop P evict
      = (MergedRows.pushFrom P evict { merged with heap } head.stream).map fun merged =>
          (some head.row, merged) := by
    rw [MergedRows.pop, h.prime]
    simp only [MergedRows.popHead, hheap]
  rw [hpop, hremaining]
  by_cases hlt : head.stream < merged.streams.length
  · obtain ⟨merged', rest', hpush, hrun', hlen, hprimed, hperm, hmine, hkeep⟩ :=
      (hrun.pushFrom hlt : ∃ merged' rest',
        MergedRows.pushFrom P evict { merged with heap } head.stream = .ok merged' ∧ _)
    rw [hpush]
    refine ⟨merged', rest', rfl, ⟨hrun', hprimed.trans h.primed, fun i => ?_⟩, hperm.symm.cons _⟩
    by_cases heq : i = head.stream
    · exact heq ▸ hmine
    · exact hkeep i (hlisted i heq)
  · have hnone : merged.streams[head.stream]? = none := List.getElem?_eq_none (by omega)
    simp only [MergedRows.pushFrom, hnone]
    refine ⟨_, rest, rfl, ⟨hrun, h.primed, fun i => ?_⟩, .refl _⟩
    by_cases heq : i = head.stream
    · exact fun hne => absurd (h.beyond i (by omega)) hne
    · exact hlisted i heq

/-- The copies of a least row are dropped, and nothing else. -/
theorem MergedRows.Primed.skipEqual (h : merged.Primed P rest) {row : Row}
    (hrow : ∀ r ∈ merged.remaining rest, row ≤ r) {fuel : ℕ}
    (hfuel : (merged.remaining rest).length ≤ fuel) :
    ∃ merged' rest', merged.skipEqual P evict row fuel = .ok merged' ∧ merged'.Primed P rest' ∧
      (∀ r, r ∈ merged'.remaining rest' ↔ r ∈ merged.remaining rest ∧ r ≠ row) ∧
      (merged'.remaining rest').length ≤ (merged.remaining rest).length := by
  induction fuel generalizing merged rest with
  | zero =>
    have hnil : merged.remaining rest = [] := List.length_eq_zero_iff.1 (by omega)
    refine ⟨merged, rest, rfl, h, fun r => ?_, le_rfl⟩
    rw [hnil]
    simp
  | succ fuel ih =>
    cases hheap : merged.heap with
    | nil =>
      have hnil := h.remaining_nil hheap
      refine ⟨merged, rest, ?_, h, fun r => ?_, le_rfl⟩
      · rw [MergedRows.skipEqual, hheap]
        rfl
      · rw [hnil]
        simp
    | cons head heap =>
      by_cases heq : head.row = row
      · -- one more copy
        obtain ⟨next, later, hpop, hprimed, hperm⟩ :=
          (h.pop hheap : ∃ merged' rest', merged.pop P evict = .ok (some head.row, merged') ∧ _)
        have hlen := hperm.length_eq
        rw [List.length_cons] at hlen
        obtain ⟨merged', rest', hskip, hprimed', hmem, hlen'⟩ :=
          ih hprimed (fun r hr => hrow r (hperm.symm.subset (List.mem_cons_of_mem _ hr)))
            (by omega)
        refine ⟨merged', rest', ?_, hprimed', fun r => ?_, by omega⟩
        · rw [MergedRows.skipEqual, hheap, hpop, ← hskip]
          simp [heq]
        · rw [hmem r, hperm.mem_iff, List.mem_cons, heq]
          constructor
          · exact fun hr => ⟨.inr hr.1, hr.2⟩
          · exact fun hr => ⟨hr.1.resolve_left hr.2, hr.2⟩
      · refine ⟨merged, rest, ?_, h, fun r => ?_, le_rfl⟩
        · rw [MergedRows.skipEqual, hheap]
          simp [heq]
        · refine ⟨fun hr => ⟨hr, ?_⟩, fun hr => hr.1⟩
          rintro rfl
          have hmem : head.row ∈ merged.remaining rest :=
            List.mem_append_left _ (List.mem_map_of_mem (hheap ▸ List.mem_cons_self))
          exact heq ((h.head_le hheap hr).antisymm (hrow _ hmem))

/-- The next row is the least one left, and no copy of it is left. -/
theorem MergedRows.Primed.nextRow (h : merged.Primed P rest) {fuel : ℕ}
    (hfuel : (merged.remaining rest).length ≤ fuel) :
    (merged.remaining rest = [] ∧ ∃ merged', merged.nextRow P evict fuel = .ok (none, merged')) ∨
    ∃ row merged' rest', merged.nextRow P evict fuel = .ok (some row, merged') ∧
      merged'.Primed P rest' ∧ row ∈ merged.remaining rest ∧
      (∀ r, r ∈ merged'.remaining rest' ↔ r ∈ merged.remaining rest ∧ r ≠ row) ∧
      (∀ r ∈ merged.remaining rest, row ≤ r) ∧
      (merged'.remaining rest').length < (merged.remaining rest).length := by
  cases hheap : merged.heap with
  | nil =>
    refine .inl ⟨h.remaining_nil hheap, merged, ?_⟩
    rw [MergedRows.nextRow, MergedRows.pop, h.prime]
    simp only [MergedRows.popHead, hheap]
  | cons head heap =>
    right
    obtain ⟨next, later, hpop, hprimed, hperm⟩ :=
      (h.pop hheap : ∃ merged' rest', merged.pop P evict = .ok (some head.row, merged') ∧ _)
    have hlen := hperm.length_eq
    rw [List.length_cons] at hlen
    have hleast : ∀ r ∈ merged.remaining rest, head.row ≤ r := fun r => h.head_le hheap
    obtain ⟨merged', rest', hskip, hprimed', hmem, hlen'⟩ :=
      (hprimed.skipEqual (fun r hr => hleast r (hperm.symm.subset (List.mem_cons_of_mem _ hr)))
        (by omega) : ∃ merged' rest', next.skipEqual P evict head.row fuel = .ok merged' ∧ _)
    refine ⟨head.row, merged', rest', ?_, hprimed', hperm.symm.subset List.mem_cons_self,
      fun r => ?_, hleast, by omega⟩
    · rw [MergedRows.nextRow, hpop]
      simp only [hskip]
      rfl
    · rw [hmem r, hperm.mem_iff, List.mem_cons]
      constructor
      · exact fun hr => ⟨.inr hr.1, hr.2⟩
      · exact fun hr => ⟨hr.1.resolve_left hr.2, hr.2⟩

/-- A merge yields the given rows, one after another. -/
def MergedRows.Yields (P : Platform) (evict : ℕ → GroupCache.Eviction) (fuel : ℕ) :
    List Row → MergedRows → Prop
  | [], merged => ∃ merged', merged.nextRow P evict fuel = .ok (none, merged')
  | row :: rows, merged => ∃ merged', merged.nextRow P evict fuel = .ok (some row, merged') ∧
      Yields P evict fuel rows merged'

/-- A merge under way yields the rows left, once and in order. -/
theorem MergedRows.Primed.yields (h : merged.Primed P rest) {fuel : ℕ}
    (hfuel : (merged.remaining rest).length ≤ fuel) :
    ∃ rows : List Row, rows.SortedLT ∧ (∀ r, r ∈ rows ↔ r ∈ merged.remaining rest) ∧
      rows.length ≤ (merged.remaining rest).length ∧ merged.Yields P evict fuel rows := by
  induction hn : (merged.remaining rest).length using Nat.strong_induction_on
    generalizing merged rest with
  | _ n ih =>
    rcases (h.nextRow hfuel : (_ ∧ ∃ merged', merged.nextRow P evict fuel = .ok (none, merged')) ∨ _)
      with ⟨hnil, merged', hnext⟩ |
        ⟨row, merged', rest', hnext, hprimed, hrow, hmem, hleast, hlen⟩
    · exact ⟨[], List.sortedLT_iff_pairwise.2 .nil, fun r => by rw [hnil], Nat.zero_le _,
        merged', hnext⟩
    · obtain ⟨rows, hsorted, hrows, hcount, hyields⟩ :=
        ih _ (hn ▸ hlen) hprimed (by omega) rfl
      refine ⟨row :: rows, ?_, fun r => ?_, ?_, merged', hnext, hyields⟩
      · refine List.sortedLT_iff_pairwise.2 (List.pairwise_cons.2 ⟨fun r hr => ?_, hsorted.pairwise⟩)
        obtain ⟨hr', hne⟩ := (hmem r).1 ((hrows r).1 hr)
        exact lt_of_le_of_ne (hleast r hr') (Ne.symm hne)
      · rw [List.mem_cons, hrows r, hmem r]
        by_cases heq : r = row
        · simp [heq, hrow]
        · simp [heq]
      · rw [List.length_cons]
        omega

/-- Priming does not change what a merge yields. -/
theorem MergedRows.Yields.of_prime {fuel : ℕ} {rows : List Row} {primed : MergedRows}
    (hprime : merged.prime P evict = .ok primed) (hagain : primed.prime P evict = .ok primed)
    (h : primed.Yields P evict fuel rows) : merged.Yields P evict fuel rows := by
  have hnext : merged.nextRow P evict fuel = primed.nextRow P evict fuel := by
    rw [MergedRows.nextRow, MergedRows.nextRow, MergedRows.pop, MergedRows.pop, hprime, hagain]
  cases rows with
  | nil =>
    obtain ⟨merged', hyield⟩ := h
    exact ⟨merged', hnext.trans hyield⟩
  | cons row rows =>
    obtain ⟨merged', hyield, hrest⟩ := h
    exact ⟨merged', hnext.trans hyield, hrest⟩

/-- The rows of the parts of a merge. -/
def heldRows (inputs : List (List (List ParsedRow))) : List Row :=
  inputs.flatMap fun groups => groups.flatten.map Prod.fst

/-- A merge that begins has the rows of all its parts left. -/
theorem running_create {readers : List SharedReader} {inputs : List (List (List ParsedRow))}
    (h : List.Forall₂ (fun reader groups => Layout P reader.part groups) readers inputs)
    (hsound : ∀ reader ∈ readers, ∀ g, (reader.cacheAt g).Sound reader.part) (pageBytes : ℕ) :
    ∃ rest, (MergedRows.create readers pageBytes).Running P rest ∧
      (MergedRows.create readers pageBytes).remaining rest = heldRows inputs := by
  have hlen := h.length_eq
  set held : List (List Row) := inputs.map fun groups => groups.flatten.map Prod.fst with hheld
  refine ⟨fun i => held.getD i [], ⟨?_, ?_, .nil, fun i => ?_, fun head hhead => by cases hhead⟩, ?_⟩
  · intro i stream hget
    have hmap : (readers.map (PartRowStream.create pageBytes))[i]? = some stream := hget
    rw [List.getElem?_map] at hmap
    obtain ⟨reader, hreader, rfl⟩ := Option.map_eq_some_iff.1 hmap
    have hi : i < inputs.length := hlen ▸ (List.getElem?_eq_some_iff.1 hreader).1
    have hlayout : Layout P reader.part inputs[i] := by
      have := (List.forall₂_iff_get.1 h).2 i (hlen ▸ hi) hi
      rw [List.get_eq_getElem, List.get_eq_getElem] at this
      rwa [(List.getElem?_eq_some_iff.1 hreader).2] at this
    refine ⟨inputs[i], ?_⟩
    have hrows : held.getD i [] = inputs[i].flatten.map Prod.fst := by
      rw [List.getD_eq_getElem?_getD, hheld, List.getElem?_map, List.getElem?_eq_getElem hi]
      rfl
    simp only [hrows]
    exact streams_create hlayout (hsound reader (List.mem_of_getElem? hreader))
  · intro i hi
    have hi' : held.length ≤ i := by
      have : readers.length ≤ i := by simpa [MergedRows.create] using hi
      rw [hheld, List.length_map]
      omega
    simp only [List.getD_eq_getElem?_getD, List.getElem?_eq_none hi', Option.getD_none]
  · simp only [List.getD_eq_getElem?_getD, hheld, List.getElem?_map]
    cases hget : inputs[i]? with
    | none => exact List.sortedLT_iff_pairwise.2 .nil
    | some groups =>
      have hi := (List.getElem?_eq_some_iff.1 hget)
      have := (List.forall₂_iff_get.1 h).2 i (hlen ▸ hi.1) hi.1
      rw [List.get_eq_getElem, List.get_eq_getElem, hi.2] at this
      exact this.sorted
  · have hcount : (MergedRows.create readers pageBytes).streams.length = held.length := by
      simp [MergedRows.create, hheld, hlen]
    rw [MergedRows.remaining, hcount]
    have hall : (List.range held.length).map (fun i => held.getD i []) = held :=
      List.ext_getElem (by simp) fun i hi hi' => by simp [List.getD_eq_getElem?_getD, hi']
    rw [List.flatMap_def, hall, heldRows, hheld, List.flatMap_def]
    rfl

/-- A merge yields every row of its parts, once and in order. -/
theorem mergedRows_yields {readers : List SharedReader} {inputs : List (List (List ParsedRow))}
    (h : List.Forall₂ (fun reader groups => Layout P reader.part groups) readers inputs)
    (hsound : ∀ reader ∈ readers, ∀ g, (reader.cacheAt g).Sound reader.part) (pageBytes : ℕ)
    {fuel : ℕ} (hfuel : (heldRows inputs).length ≤ fuel) :
    (MergedRows.create readers pageBytes).Yields P evict fuel (sortRows (heldRows inputs)) := by
  obtain ⟨rest, hrun, hremaining⟩ := running_create h hsound pageBytes
  obtain ⟨primed, rest', hprime, hprimed, hperm⟩ :=
    (hrun.prime rfl : ∃ merged' rest',
      (MergedRows.create readers pageBytes).prime P evict = .ok merged' ∧ _)
  rw [hremaining] at hperm
  obtain ⟨rows, hsorted, hmem, -, hyields⟩ :=
    (hprimed.yields (hperm.length_eq ▸ hfuel) : ∃ rows : List Row, rows.SortedLT ∧ _)
  have hrows : rows = sortRows (heldRows inputs) :=
    eq_sortRows hsorted fun row => (hmem row).trans hperm.mem_iff
  rw [← hrows]
  exact hyields.of_prime hprime hprimed.prime

end Part

end Obsy
