import Mathlib.Algebra.BigOperators.Group.List.Basic
import Obsy.Part.Rewrite

/-!
# The two writers of parts

A flush has all rows at hand; a merge gets them one by one, and fixes the columns before the first.
Both write the same part where they have the same columns, and every part answers for all its rows.

* `streamPart`: the part of the streaming writer.
* `Cut.unique`: there is one way to cut rows into row groups that end late.
* `streamPart_eq_writePartFiles`: the writers write the same part.
-/

namespace Obsy

namespace Part

variable (P : Platform)

/-- The part that a streaming writer of some columns writes. -/
def streamPart (metadataKeys parsedKeys : List String) (id : String) (partition : ℤ)
    (rows : List Row) (rowGroupSize : ℕ) : Option LogPart :=
  (rows.foldlM (StreamingPartWriter.push P)
    (.create metadataKeys parsedKeys rowGroupSize)).bind fun writer => writer.finish P id partition

/-- The metadata keys that the batch writer chooses for some rows. -/
def batchMetadataKeys (rows : List Row) : List String :=
  (selectMetadataColumns (metadataColumnCounts rows)).map Prod.fst

/-- The fields that the batch writer chooses. -/
def batchParsedKeys (rows : List Row) : List String :=
  (selectMetadataColumns (parsedColumnCounts ((rows.map (parseRow P)).map Prod.snd))).map Prod.fst

/-! ### Cutting row groups -/

variable {P} {groups groups' : List (List ParsedRow)} {rowGroupSize : ℕ}

/-- Two first row groups of the same rows, where the first of them is followed by another one. -/
theorem Cut.length_le {group next : List ParsedRow} {rest : List (List ParsedRow)}
    (h : Cut rowGroupSize (group :: groups)) (h' : Cut rowGroupSize (next :: rest))
    (hfull : Full rowGroupSize (group :: groups))
    (heq : (group :: groups).flatten = (next :: rest).flatten) : next.length ≤ group.length := by
  by_contra hlt
  rw [Nat.not_le] at hlt
  rw [List.flatten_cons, List.flatten_cons] at heq
  -- the longer one has the first row of the one that follows the shorter one
  obtain ⟨longer, rfl, hrest⟩ : ∃ longer, next = group ++ longer ∧
      groups.flatten = longer ++ rest.flatten := by
    rcases List.append_eq_append_iff.1 heq with ⟨longer, rfl, hrest⟩ | ⟨shorter, rfl, -⟩
    · exact ⟨longer, rfl, hrest⟩
    · rw [List.length_append] at hlt
      omega
  obtain ⟨row, others, rfl⟩ : ∃ row others, longer = row :: others := by
    refine List.exists_cons_of_ne_nil fun hnil => ?_
    rw [hnil, List.append_nil] at hlt
    omega
  cases groups with
  | nil => cases hrest
  | cons second groups =>
    obtain ⟨first, tail, rfl⟩ := List.exists_cons_of_ne_nil
      (h.nonempty second (List.mem_cons_of_mem _ List.mem_cons_self))
    obtain rfl : first = row := by
      rw [List.flatten_cons, List.cons_append, List.cons_append] at hrest
      exact (List.cons.inj hrest).1
    obtain ⟨head, body, rfl⟩ := List.exists_cons_of_ne_nil (h.nonempty group List.mem_cons_self)
    have htenant : first.1.tenant = groupTenant ((head :: body) ++ first :: others) :=
      h'.oneTenant _ List.mem_cons_self first (by simp)
    have hsize : (head :: body).length = rowGroupSize :=
      (List.isChain_cons_cons.1 hfull).1 htenant.symm
    have hshort := h'.short _ List.mem_cons_self
    omega

/-- There is one way to cut rows into row groups that end with their tenant or are full. -/
theorem Cut.unique (h : Cut rowGroupSize groups) (h' : Cut rowGroupSize groups')
    (hfull : Full rowGroupSize groups) (hfull' : Full rowGroupSize groups')
    (heq : groups.flatten = groups'.flatten) : groups = groups' := by
  induction groups generalizing groups' with
  | nil =>
    cases groups' with
    | nil => rfl
    | cons next rest =>
      have hne := h'.nonempty next List.mem_cons_self
      rw [List.flatten_nil, List.flatten_cons] at heq
      exact absurd (List.append_eq_nil_iff.1 heq.symm).1 hne
  | cons group groups ih =>
    cases groups' with
    | nil =>
      have hne := h.nonempty group List.mem_cons_self
      rw [List.flatten_nil, List.flatten_cons] at heq
      exact absurd (List.append_eq_nil_iff.1 heq).1 hne
    | cons next rest =>
      have hlen : group.length = next.length :=
        le_antisymm (h'.length_le h hfull' heq.symm) (h.length_le h' hfull heq)
      rw [List.flatten_cons, List.flatten_cons] at heq
      obtain ⟨rfl, hflat⟩ := List.append_inj heq hlen
      have htail : ∀ {first : List ParsedRow} {later : List (List ParsedRow)},
          Cut rowGroupSize (first :: later) → Cut rowGroupSize later := fun hcut =>
        ⟨fun g hg => hcut.nonempty g (List.mem_cons_of_mem _ hg),
          fun g hg => hcut.short g (List.mem_cons_of_mem _ hg),
          fun g hg => hcut.oneTenant g (List.mem_cons_of_mem _ hg)⟩
      rw [ih (htail h) (htail h') hfull.tail hfull'.tail hflat]

/-- Runs are full, but for the last one. -/
theorem isChain_runsOf {size : ℕ} (hsize : 0 < size) (rows : List ParsedRow) :
    (runsOf size rows.length rows).IsChain fun run _ => run.length = size := by
  suffices h : ∀ fuel (rows : List ParsedRow), rows.length ≤ fuel →
      (runsOf size fuel rows).IsChain fun run _ => run.length = size from h _ rows le_rfl
  intro fuel
  induction fuel with
  | zero => exact fun _ _ => .nil
  | succ fuel ih =>
    intro rows hlen
    cases rows with
    | nil => exact .nil
    | cons row rows =>
      have hrest : ((row :: rows).drop size).length ≤ fuel := by
        rw [List.length_drop]
        simp at hlen ⊢
        omega
      rw [runsOf]
      cases hruns : runsOf size fuel ((row :: rows).drop size) with
      | nil => exact .singleton _
      | cons run runs =>
        refine List.isChain_cons_cons.2 ⟨?_, hruns ▸ ih _ hrest⟩
        -- a run follows, so that there were rows left
        have hleft : (row :: rows).drop size ≠ [] := by
          intro hnil
          rw [hnil] at hruns
          cases fuel <;> cases hruns
        have hlt := List.drop_eq_nil_iff.not.1 hleft
        rw [List.length_take]
        omega

theorem groupTenant_of_mem_runsOf (hsize : 0 < rowGroupSize) {rows segment run : List ParsedRow}
    (hsegment : segment ∈ rows.splitBy fun a b => a.1.tenant == b.1.tenant)
    (hrun : run ∈ runsOf rowGroupSize segment.length segment) {r : ParsedRow} (hr : r ∈ segment) :
    r.1.tenant = groupTenant run := by
  obtain ⟨hne, -, hsub⟩ := of_mem_runsOf hsize hrun
  obtain ⟨first, rest, rfl⟩ := List.exists_cons_of_ne_nil hne
  exact Runs.eq_of_isChain_beq (fun r : ParsedRow => r.1.tenant)
    (List.isChain_of_mem_splitBy hsegment) hr (hsub List.mem_cons_self)

/-- The batch writer cuts row groups that end with their tenant or are full. -/
theorem full_rowGroupBounds (hsize : 0 < rowGroupSize) (rows : List ParsedRow) :
    Full rowGroupSize (rowGroupBounds rowGroupSize rows) := by
  have hne : ∀ segment ∈ rows.splitBy fun a b => a.1.tenant == b.1.tenant, segment ≠ [] :=
    fun segment hs => List.ne_nil_of_mem_splitBy hs
  have hruns : ∀ segment : List ParsedRow, segment ≠ [] →
      runsOf rowGroupSize segment.length segment ≠ [] := by
    intro segment hs hnil
    have hflat := flatten_runsOf hsize segment
    rw [hnil] at hflat
    exact hs hflat.symm
  have hempty : [] ∉ (rows.splitBy fun a b => a.1.tenant == b.1.tenant).map fun segment =>
      runsOf rowGroupSize segment.length segment := by
    rintro hmem
    obtain ⟨segment, hs, hnil⟩ := List.mem_map.1 hmem
    exact hruns segment (hne segment hs) hnil
  rw [Full, rowGroupBounds, List.flatMap, List.isChain_flatten hempty]
  refine ⟨?_, ?_⟩
  · intro runs hruns'
    obtain ⟨segment, -, rfl⟩ := List.mem_map.1 hruns'
    exact (isChain_runsOf hsize segment).imp fun run next hrun _ => hrun
  · rw [List.isChain_map]
    have hchain := List.isChain_getLast_head_splitBy
      (fun a b : ParsedRow => a.1.tenant == b.1.tenant) rows
    refine hchain.imp_of_mem_imp fun before after hbefore hafter hcut => ?_
    obtain ⟨hb, ha, hcut⟩ := hcut
    intro last hlast first hfirst hsame
    have hmine := groupTenant_of_mem_runsOf hsize hbefore (List.mem_of_getLast? hlast)
      (List.getLast_mem hb)
    have hnext := groupTenant_of_mem_runsOf hsize hafter (List.mem_of_head? hfirst)
      (List.head_mem ha)
    rw [beq_eq_false_iff_ne] at hcut
    exact absurd (hmine.trans (hsame.trans hnext.symm)) hcut

/-! ### Rows and the fields of their lines -/

/-- The rows of a group, each with what `json` reads from its line. -/
def reparse (P : Platform) (group : List ParsedRow) : List ParsedRow :=
  group.map fun r => parseRow P r.1

/-- A writer that did not parse the lines of a group missed no field. -/
def MissesNothing (P : Platform) (group : List ParsedRow) : Prop :=
  ∀ r ∈ group, r.2.getD [] = (Logql.extractJson P.parseJson r.1.line).getD []

theorem timestampsOf_reparse (group : List ParsedRow) :
    timestampsOf (reparse P group) = timestampsOf group := by
  rw [timestampsOf, reparse, List.map_map]
  rfl

theorem groupTenant_reparse (group : List ParsedRow) :
    groupTenant (reparse P group) = groupTenant group := by
  cases group <;> rfl

theorem minTs_reparse (group : List ParsedRow) : minTs (reparse P group) = minTs group := by
  rw [minTs, timestampsOf_reparse, minTs]

theorem maxTs_reparse (group : List ParsedRow) : maxTs (reparse P group) = maxTs group := by
  rw [maxTs, timestampsOf_reparse, maxTs]

theorem tsMonotonic_reparse (group : List ParsedRow) :
    tsMonotonic (reparse P group) = tsMonotonic group := by
  rw [tsMonotonic, timestampsOf_reparse, tsMonotonic]

theorem length_reparse (group : List ParsedRow) : (reparse P group).length = group.length :=
  List.length_map _

theorem tenantSegments_reparse (groups : List (List ParsedRow)) :
    tenantSegments (groups.map (reparse P)) = tenantSegments groups := by
  have hadd : ∀ segments ordinal group,
      addSegment segments ordinal (reparse P group) = addSegment segments ordinal group := by
    intro segments ordinal group
    simp only [addSegment, groupTenant_reparse, minTs_reparse, maxTs_reparse, length_reparse]
  rw [tenantSegments, List.zipIdx_map, List.foldl_map, tenantSegments]
  simp only [Prod.map_fst, Prod.map_snd, hadd, id]

theorem map_reparse {β : Type*} {f : List ParsedRow → β} (h : ∀ group, f (reparse P group) = f group)
    (groups : List (List ParsedRow)) : (groups.map (reparse P)).map f = groups.map f := by
  rw [List.map_map]
  exact List.map_congr_left fun group _ => h group

theorem windowsOf_map {α β : Type*} (f : α → β) (rows : List α) :
    windowsOf (rows.map f) = (windowsOf rows).map (List.map f) := by
  rw [windowsOf, windowsOf, List.length_map, List.map_map]
  refine List.map_congr_left fun window _ => ?_
  rw [Function.comp_apply, List.map_take, List.map_drop]

/-- The filters of a group hold its fields, whether the lines were parsed or had none. -/
theorem groupBlooms_reparse {group : List ParsedRow} (h : MissesNothing P group) :
    groupBlooms P (reparse P group) = groupBlooms P group := by
  have hwindow : ∀ window ∈ windowsOf group,
      windowTokens (window.map fun r => parseRow P r.1) = windowTokens window := by
    intro window hw
    obtain ⟨i, -, rfl⟩ := List.mem_map.1 hw
    rw [windowTokens, List.flatMap_map, windowTokens]
    congr 1
    refine List.flatMap_congr fun r hr => ?_
    exact (indexedFields_congr (h r (List.drop_subset _ _ (List.take_subset _ _ hr)))).symm
  have hwindows : (windowsOf (reparse P group)).mapM windowTokens
      = (windowsOf group).mapM windowTokens := by
    rw [reparse, windowsOf_map, List.mapM_map]
    exact Runs.mapM_some_congr hwindow
  rw [groupBlooms, encodeGroupBlooms, hwindows, groupBlooms, encodeGroupBlooms, reparse,
    List.map_map]
  rfl

theorem Cut.reparse (h : Cut rowGroupSize groups) :
    Cut rowGroupSize (groups.map (Part.reparse P)) := by
  refine ⟨?_, ?_, ?_⟩
  · intro _ hmem
    obtain ⟨group, hg, rfl⟩ := List.mem_map.1 hmem
    rw [ne_eq, Part.reparse, List.map_eq_nil_iff]
    exact h.nonempty group hg
  · intro _ hmem
    obtain ⟨group, hg, rfl⟩ := List.mem_map.1 hmem
    rw [length_reparse]
    exact h.short group hg
  · intro _ hmem _ hparsed
    obtain ⟨group, hg, rfl⟩ := List.mem_map.1 hmem
    obtain ⟨r, hr, rfl⟩ := List.mem_map.1 hparsed
    rw [groupTenant_reparse]
    exact h.oneTenant group hg r hr

theorem Full.reparse (h : Full rowGroupSize groups) :
    Full rowGroupSize (groups.map (Part.reparse P)) := by
  rw [Full, List.isChain_map]
  refine h.imp fun group next hgroup => ?_
  rwa [groupTenant_reparse, groupTenant_reparse, length_reparse]

/-! ### Counting the keys -/

/-- How many pairs have a key. -/
def occurrences (pairs : Pairs) (key : String) : ℕ := pairs.countP fun p => p.1 = key

theorem lookup_countKeys {keys : List String} {key : String} (hkey : key ∈ keys)
    (counts : Logql.Assoc ℕ) (pairs : Pairs) :
    ((StreamingPartWriter.countKeys keys counts pairs).lookup key).getD 0
      = (counts.lookup key).getD 0 + occurrences pairs key := by
  induction pairs generalizing counts with
  | nil => rfl
  | cons p pairs ih =>
    have hstep : StreamingPartWriter.countKeys keys counts (p :: pairs) = StreamingPartWriter.countKeys keys
        (if p.1 ∈ keys then Logql.put p.1 ((counts.lookup p.1).getD 0 + 1) counts else counts)
        pairs := rfl
    rw [hstep, ih, occurrences, occurrences, List.countP_cons]
    by_cases hp : p.1 = key
    · subst hp
      simp only [if_pos hkey, Logql.lookup_put_self, Option.getD_some, decide_true, ↓reduceIte]
      omega
    · have hne : key ≠ p.1 := Ne.symm hp
      by_cases hin : p.1 ∈ keys
      · simp [hin, Logql.lookup_put_of_ne _ _ hne, hp]
      · simp [hin, hp]

/-- The counts of a writer are those of the rows pushed. -/
structure Tallied (P : Platform) (writer : StreamingPartWriter) (rows : List Row) : Prop where
  materializedBytes : writer.materializedBytes = (rows.map Row.materializedBytes).sum
  metadataCounts : ∀ key ∈ writer.metadataKeys, (writer.metadataCounts.lookup key).getD 0
    = occurrences (rows.flatMap Row.structuredMetadata) key
  parsedCounts : ∀ key ∈ writer.parsedKeys, (writer.parsedCounts.lookup key).getD 0
    = occurrences (rows.flatMap fun row => (writer.parsed P row).getD []) key

theorem tallied_create (metadataKeys parsedKeys : List String) (rowGroupSize : ℕ) :
    Tallied P (.create metadataKeys parsedKeys rowGroupSize) [] :=
  ⟨rfl, fun _ _ => rfl, fun _ _ => rfl⟩

/-- Writing a row group out changes no count. -/
theorem Tallied.flushGroup {writer writer' : StreamingPartWriter} {rows : List Row}
    (h : Tallied P writer rows) (hflush : writer.flushGroup P = some writer') :
    Tallied P writer' rows := by
  rw [StreamingPartWriter.flushGroup] at hflush
  split at hflush
  case isTrue =>
    obtain rfl := Option.some.inj hflush
    exact h
  case isFalse =>
    obtain ⟨blooms, -, rfl⟩ := Option.map_eq_some_iff.1 hflush
    exact ⟨h.materializedBytes, h.metadataCounts, h.parsedCounts⟩

theorem Tallied.push {writer writer' : StreamingPartWriter} {rows : List Row} {row : Row}
    (h : Tallied P writer rows) (hpush : writer.push P row = some writer') :
    Tallied P writer' (rows ++ [row]) := by
  obtain ⟨middle, hmiddle, rfl⟩ := Option.map_eq_some_iff.1 hpush
  have hmid : Tallied P middle rows := by
    rw [StreamingPartWriter.cutBefore] at hmiddle
    split at hmiddle
    case isTrue => exact h.flushGroup hmiddle
    case isFalse =>
      obtain rfl := Option.some.inj hmiddle
      exact h
  refine ⟨?_, fun key hkey => ?_, fun key hkey => ?_⟩
  · simp [hmid.materializedBytes]
  · rw [lookup_countKeys hkey, hmid.metadataCounts key hkey, List.flatMap_append, occurrences,
      occurrences, occurrences, List.countP_append, List.flatMap_singleton]
  · rw [lookup_countKeys hkey, hmid.parsedCounts key hkey, List.flatMap_append, occurrences,
      occurrences, occurrences, List.countP_append, List.flatMap_singleton]
    rfl

theorem Tallied.foldlM_push {writer writer' : StreamingPartWriter} {before rows : List Row}
    (h : Tallied P writer before)
    (hpush : rows.foldlM (StreamingPartWriter.push P) writer = some writer') :
    Tallied P writer' (before ++ rows) := by
  induction rows generalizing writer before with
  | nil =>
    obtain rfl := Option.some.inj hpush
    rwa [List.append_nil]
  | cons row rows ih =>
    rw [List.foldlM_cons, Option.bind_eq_bind, Option.bind_eq_some_iff] at hpush
    obtain ⟨middle, hfirst, hrest⟩ := hpush
    have := ih (h.push hfirst) hrest
    rwa [List.append_assoc] at this

/-- The columns chosen come with the counts of their keys. -/
theorem selectMetadataColumns_tally (pairs : Pairs) :
    selectMetadataColumns (tally (pairs.map fun p => (p.1, 1)))
      = ((selectMetadataColumns (tally (pairs.map fun p => (p.1, 1)))).map Prod.fst).map
          fun key => (key, occurrences pairs key) := by
  rw [List.map_map]
  refine (List.map_id' _).symm.trans (List.map_congr_left fun entry hentry => ?_)
  rw [selectMetadataColumns, List.mem_mergeSort] at hentry
  have hmem : entry ∈ tally (pairs.map fun p => (p.1, 1)) :=
    List.mem_mergeSort.1 (List.mem_of_mem_take hentry)
  obtain ⟨key, -, rfl⟩ := List.mem_map.1 hmem
  have hcount : ((((pairs.map fun p => (p.1, 1)).filter (·.1 = key)).map Prod.snd).sum)
      = occurrences pairs key := by
    rw [List.filter_map, List.map_map, occurrences, List.countP_eq_length_filter]
    simp [Function.comp_def]
  simp only [Function.comp_apply, hcount]

/-! ### The same part -/

variable {metadataKeys parsedKeys : List String} {rows : List Row} {id : String} {partition : ℤ}

/-- What a streaming writer has when all rows are written. -/
theorem streamed_last (hsize : 0 < rowGroupSize) {writer last : StreamingPartWriter}
    (hpush : rows.foldlM (StreamingPartWriter.push P)
      (.create metadataKeys parsedKeys rowGroupSize) = some writer)
    (hflush : writer.flushGroup P = some last) :
    ∃ groups, Filling P last groups ∧ last.group = [] ∧ Full rowGroupSize groups ∧
      groups.flatten = rows.map (fun row =>
        (row, (StreamingPartWriter.create metadataKeys parsedKeys rowGroupSize).parsed P row)) ∧
      SameKeys (.create metadataKeys parsedKeys rowGroupSize) last ∧ Tallied P last rows := by
  obtain ⟨written, hfill, hflat, hkeys, hsnug⟩ :=
    (filling_create (P := P) metadataKeys parsedKeys rowGroupSize).foldlM_push hsize hpush
  obtain ⟨groups, hlast, hflat', hnil, hkeys', rfl⟩ := hfill.flushGroup hflush
  have htallied := ((tallied_create metadataKeys parsedKeys rowGroupSize).foldlM_push
    hpush).flushGroup hflush
  rw [List.nil_append] at htallied
  refine ⟨_, hlast, hnil, ?_, ?_, ⟨hkeys'.1.trans hkeys.1, hkeys'.2.1.trans hkeys.2.1,
    hkeys'.2.2.trans hkeys.2.2⟩, htallied⟩
  · have hfull := (hsnug (snug_create metadataKeys parsedKeys rowGroupSize)).1
    rwa [hkeys.2.2] at hfull
  · rw [hflat', hflat]
    rfl

/-- The columns of a group do not tell whether lines without columns were parsed. -/
theorem rowGroupBatch_reparse {group : List ParsedRow}
    (h : ∀ r ∈ group, parsedKeys = [] ∨ r.2 = Logql.extractJson P.parseJson r.1.line) :
    rowGroupBatch P.text metadataKeys parsedKeys (reparse P group)
      = rowGroupBatch P.text metadataKeys parsedKeys group := by
  rw [rowGroupBatch, reparse, List.map_map, rowGroupBatch]
  refine List.map_congr_left fun r hr => ?_
  rcases h r hr with hnil | hsame
  · simp only [Function.comp_apply, rowCells, hnil, List.map_nil]
    rfl
  · rw [Function.comp_apply, parseRow, hsame]

/-- Where the batch writer chooses no field, no line has one. -/
theorem getD_extractJson_of_nil (hnil : batchParsedKeys P rows = []) {row : Row}
    (hrow : row ∈ rows) : (Logql.extractJson P.parseJson row.line).getD [] = [] := by
  rw [batchParsedKeys, List.map_eq_nil_iff, selectMetadataColumns_eq_nil] at hnil
  refine List.eq_nil_iff_forall_not_mem.2 fun p hp => ?_
  have hkey : p.1 ∈ (parsedColumnCounts ((rows.map (parseRow P)).map Prod.snd)).map Prod.fst := by
    rw [parsedColumnCounts, mem_keys_tally]
    refine List.mem_map.2 ⟨(p.1, 1), List.mem_flatMap.2
      ⟨Logql.extractJson P.parseJson row.line, ?_, List.mem_map.2 ⟨p, hp, rfl⟩⟩, rfl⟩
    rw [List.map_map]
    exact List.mem_map.2 ⟨row, hrow, rfl⟩
  rw [hnil] at hkey
  cases hkey

/-- A streaming writer of these columns parses no line or all of them, and misses no field. -/
theorem parsed_batchParsedKeys {row : Row} (hrow : row ∈ rows) :
    let fields := (StreamingPartWriter.create metadataKeys (batchParsedKeys P rows)
      rowGroupSize).parsed P row
    (batchParsedKeys P rows = [] ∨ fields = Logql.extractJson P.parseJson row.line) ∧
      fields.getD [] = (Logql.extractJson P.parseJson row.line).getD [] := by
  intro fields
  by_cases hnil : batchParsedKeys P rows = []
  · refine ⟨.inl hnil, ?_⟩
    have hnone : fields = none := if_pos (List.isEmpty_iff.2 hnil)
    rw [hnone, getD_extractJson_of_nil hnil hrow]
    rfl
  · have hsome : fields = Logql.extractJson P.parseJson row.line :=
      if_neg fun hempty => hnil (List.isEmpty_iff.1 hempty)
    exact ⟨.inr hsome, by rw [hsome]⟩

/-- What the streaming writer writes the batch writer writes. -/
theorem writePartFiles_of_streamPart (hsize : 0 < rowGroupSize) {part : LogPart}
    (h : streamPart P (batchMetadataKeys rows) (batchParsedKeys P rows) id partition rows
      rowGroupSize = some part) :
    writePartFiles P id partition rows rowGroupSize = some part := by
  obtain ⟨writer, hpush, hfinish⟩ := Option.bind_eq_some_iff.1 h
  obtain ⟨last, hflush, rfl⟩ := Option.map_eq_some_iff.1 hfinish
  obtain ⟨groups, hfill, hnil, hfull, hflat, hkeys, htallied⟩ := streamed_last hsize hpush hflush
  have hrow : ∀ group ∈ groups, ∀ r ∈ group,
      (batchParsedKeys P rows = [] ∨ r.2 = Logql.extractJson P.parseJson r.1.line) ∧
        r.2.getD [] = (Logql.extractJson P.parseJson r.1.line).getD [] := by
    intro group hg r hr
    have hmem : r ∈ groups.flatten := List.mem_flatten.2 ⟨group, hg, hr⟩
    rw [hflat] at hmem
    obtain ⟨row, hrow, rfl⟩ := List.mem_map.1 hmem
    exact parsed_batchParsedKeys hrow
  -- both writers cut the same row groups
  have hcut : Cut rowGroupSize groups := by
    have := hfill.cut
    rwa [hkeys.2.2] at this
  have hreparsed : (groups.map (reparse P)).flatten = rows.map (parseRow P) := by
    have hmap := List.map_flatten (f := fun r : ParsedRow => parseRow P r.1) (L := groups)
    rw [hflat, List.map_map] at hmap
    exact hmap.symm
  have hbounds : rowGroupBounds rowGroupSize (rows.map (parseRow P)) = groups.map (reparse P) :=
    (cut_rowGroupBounds hsize _).unique hcut.reparse (full_rowGroupBounds hsize _) hfull.reparse
      (by rw [flatten_rowGroupBounds hsize, hreparsed])
  have hblooms : (groups.map (reparse P)).mapM (groupBlooms P) = some last.bloomSections := by
    rw [List.mapM_map, ← hfill.index]
    exact Runs.mapM_some_congr fun group hg => groupBlooms_reparse fun r hr => (hrow group hg r hr).2
  have hdata : last.data = (groups.map (reparse P)).map
      (rowGroupBatch P.text (batchMetadataKeys rows) (batchParsedKeys P rows)) := by
    rw [hfill.data, hkeys.1, hkeys.2.1, List.map_map]
    refine List.map_congr_left fun group hg => ?_
    exact (rowGroupBatch_reparse fun r hr => (hrow group hg r hr).1).symm
  have hcount : last.rowCount = rows.length := by
    rw [hfill.rowCount, hnil, List.append_nil, hflat, List.length_map]
  have hstamps : timestampsOf (groups.flatten ++ last.group) = timestampsOf (rows.map (parseRow P)) := by
    rw [hnil, List.append_nil, hflat, timestampsOf, timestampsOf, List.map_map, List.map_map]
    rfl
  have hmin : (if last.rowCount = 0 then Nanos.zero else last.minTsNs)
      = minTs (rows.map (parseRow P)) := by
    rw [hcount, hfill.minTsNs, hstamps]
    split
    case isTrue hzero =>
      rw [List.length_eq_zero_iff.1 hzero]
      rfl
    case isFalse hne => exact foldl_min_eq fun hempty => hne (by simpa using hempty)
  have hmax : (if last.rowCount = 0 then Nanos.zero else last.maxTsNs)
      = maxTs (rows.map (parseRow P)) := by
    rw [hcount, hfill.maxTsNs, hstamps]
    split
    case isTrue hzero =>
      rw [List.length_eq_zero_iff.1 hzero]
      rfl
    case isFalse hne => exact foldl_max_eq fun hempty => hne (by simpa using hempty)
  -- the counts of the columns are counts of the same pairs
  have hmetadata : (last.metadataKeys.map fun key =>
      (key, (last.metadataCounts.lookup key).getD 0))
        = selectMetadataColumns (metadataColumnCounts rows) := by
    have hcounts := selectMetadataColumns_tally (rows.flatMap Row.structuredMetadata)
    rw [List.map_flatMap] at hcounts
    rw [metadataColumnCounts, hcounts, ← metadataColumnCounts, ← batchMetadataKeys, hkeys.1]
    refine List.map_congr_left fun key hkey => ?_
    rw [htallied.metadataCounts key (hkeys.1 ▸ hkey)]
  have hparsed : (last.parsedKeys.map fun key => (key, (last.parsedCounts.lookup key).getD 0))
      = selectMetadataColumns (parsedColumnCounts ((rows.map (parseRow P)).map Prod.snd)) := by
    have hcounts := selectMetadataColumns_tally
      (((rows.map (parseRow P)).map Prod.snd).flatMap fun fields => fields.getD [])
    rw [List.map_flatMap] at hcounts
    rw [parsedColumnCounts, hcounts, ← parsedColumnCounts, ← batchParsedKeys, hkeys.2.1]
    refine List.map_congr_left fun key hkey => ?_
    rw [htallied.parsedCounts key (hkeys.2.1 ▸ hkey), List.map_map, List.flatMap_map]
    congr 2
    refine List.flatMap_congr fun row hrow => ?_
    rw [hkeys.parsed]
    exact (parsed_batchParsedKeys hrow).2
  rw [writePartFiles, hmin, hmax]
  simp only [hbounds, hblooms, Option.map_some, hcount, hmetadata, hparsed, hdata, htallied.materializedBytes,
    hfill.rowGroupMinTs, hfill.rowGroupMaxTs, hfill.rowGroupRows, hfill.rowGroupTsMonotonic,
    hfill.tenants, map_reparse minTs_reparse, map_reparse maxTs_reparse,
    map_reparse length_reparse, map_reparse tsMonotonic_reparse, tenantSegments_reparse,
    List.length_map]
  rfl

/-- Where the batch writer succeeds, the streaming writer does. -/
theorem streamPart_isSome (hsize : 0 < rowGroupSize) {part : LogPart}
    (h : writePartFiles P id partition rows rowGroupSize = some part) :
    (streamPart P (batchMetadataKeys rows) (batchParsedKeys P rows) id partition rows
      rowGroupSize).isSome = true := by
  obtain ⟨index, hindex, -⟩ := Option.map_eq_some_iff.1 h
  have hfit : ∀ row ∈ rows, TokensFit row ((StreamingPartWriter.create (batchMetadataKeys rows)
      (batchParsedKeys P rows) rowGroupSize).parsed P row) := by
    intro row hrow
    have hmem : parseRow P row ∈ (rowGroupBounds rowGroupSize (rows.map (parseRow P))).flatten := by
      rw [flatten_rowGroupBounds hsize]
      exact List.mem_map_of_mem hrow
    obtain ⟨group, hg, hin⟩ := List.mem_flatten.1 hmem
    obtain ⟨blooms, -, hblooms⟩ := Runs.mem_of_mapM_some hindex hg
    have htokens := tokensFit_of_groupBlooms hblooms hin
    rwa [TokensFit, indexedFields_congr (parsed_batchParsedKeys hrow).2]
  obtain ⟨writer, hpush, hwriter⟩ := foldlM_push_isSome (fun r hr => by cases hr) hfit
  obtain ⟨last, hflush⟩ := Option.isSome_iff_exists.1 (flushGroup_isSome (P := P) hwriter)
  rw [streamPart, hpush, Option.bind_some, StreamingPartWriter.finish, hflush]
  rfl

/-- The two writers write the same part, or both find a field that is too large. -/
theorem streamPart_eq_writePartFiles (hsize : 0 < rowGroupSize) (id : String) (partition : ℤ)
    (rows : List Row) :
    streamPart P (batchMetadataKeys rows) (batchParsedKeys P rows) id partition rows rowGroupSize
      = writePartFiles P id partition rows rowGroupSize := by
  cases hstream : streamPart P (batchMetadataKeys rows) (batchParsedKeys P rows) id partition rows
      rowGroupSize with
  | some part => rw [writePartFiles_of_streamPart hsize hstream]
  | none =>
    cases hbatch : writePartFiles P id partition rows rowGroupSize with
    | none => rfl
    | some part =>
      have hsome := streamPart_isSome hsize hbatch
      rw [hstream] at hsome
      cases hsome

/-! ### Where the segments are in the file -/

/-- Bytes of a file, from the first to the one after the last. -/
structure ByteRange where
  start : ℕ
  stop : ℕ
deriving DecidableEq

/-- The bytes of the segments when a row group joins them, as the batch writer keeps them. -/
def addExtent (segments : List TenantSegment) (extents : List ByteRange) (group : List ParsedRow)
    (range : ByteRange) : List ByteRange :=
  match segments.getLast? with
  | some segment =>
    if segment.tenant = groupTenant group then
      extents.dropLast ++ (extents.getLast?.map fun bytes =>
        { bytes with stop := max bytes.stop range.stop }).toList
    else extents ++ [range]
  | none => extents ++ [range]

/-- The bytes of the segments: `tenant_segments`. -/
def batchExtents (groups : List (List ParsedRow)) (ranges : List ByteRange) : List ByteRange :=
  ((groups.zip ranges).zipIdx.foldl (fun segments g =>
    (addSegment segments.1 g.2 g.1.1, addExtent segments.1 segments.2 g.1.1 g.1.2)) ([], [])).2

def spanOf (ranges : List ByteRange) : ByteRange :=
  ⟨(ranges.map ByteRange.start).foldl min (2 ^ 64 - 1), (ranges.map ByteRange.stop).foldl max 0⟩

/-- The bytes of the segments: `StreamingPartWriter::finish`. -/
def streamExtents (segments : List TenantSegment) (ranges : List ByteRange) : List ByteRange :=
  segments.map fun segment =>
    spanOf ((ranges.drop segment.rowGroupStart).take (segment.rowGroupEnd - segment.rowGroupStart))

theorem streamExtents_append (segments later : List TenantSegment) (ranges : List ByteRange) :
    streamExtents (segments ++ later) ranges
      = streamExtents segments ranges ++ streamExtents later ranges := List.map_append

theorem streamExtents_singleton (segment : TenantSegment) (ranges : List ByteRange) :
    streamExtents [segment] ranges = [spanOf ((ranges.drop segment.rowGroupStart).take
      (segment.rowGroupEnd - segment.rowGroupStart))] := rfl

/-- Row groups one after another in a file. -/
def InFileOrder (ranges : List ByteRange) : Prop :=
  ranges.Pairwise (fun a b => a.start ≤ b.start) ∧ ∀ range ∈ ranges, range.start < 2 ^ 64

theorem spanOf_singleton {range : ByteRange} (h : range.start < 2 ^ 64) : spanOf [range] = range := by
  have hle : range.start ≤ 2 ^ 64 - 1 := by omega
  simp only [spanOf, List.map_cons, List.map_nil, List.foldl_cons, List.foldl_nil,
    min_eq_right hle, Nat.zero_max]

/-- A later range only extends the end of a span. -/
theorem spanOf_append {ranges : List ByteRange} {range : ByteRange} (hne : ranges ≠ [])
    (h : InFileOrder (ranges ++ [range])) :
    spanOf (ranges ++ [range])
      = { spanOf ranges with stop := max (spanOf ranges).stop range.stop } := by
  obtain ⟨first, rest, rfl⟩ := List.exists_cons_of_ne_nil hne
  have hfirst : first.start ≤ range.start :=
    (List.pairwise_append.1 h.1).2.2 first List.mem_cons_self range List.mem_cons_self
  have hmin : ∀ (starts : List ℕ) (lo : ℕ), starts.foldl min lo ≤ lo := by
    intro starts
    induction starts with
    | nil => exact fun lo => le_rfl
    | cons start starts ih => exact fun lo => (ih _).trans (min_le_left _ _)
  have hle : ((first :: rest).map ByteRange.start).foldl min (2 ^ 64 - 1) ≤ range.start :=
    ((hmin _ _).trans (min_le_right _ _)).trans hfirst
  simp only [spanOf, List.map_append, List.foldl_append, List.map_cons, List.map_nil,
    List.foldl_cons, List.foldl_nil, ByteRange.mk.injEq, and_true] at hle ⊢
  exact min_eq_left hle

/-- The ranges of row groups are no others when one more is written. -/
theorem slice_append {ranges : List ByteRange} {range : ByteRange} {first stop : ℕ}
    (h : stop ≤ ranges.length) :
    ((ranges ++ [range]).drop first).take (stop - first) = (ranges.drop first).take (stop - first) := by
  by_cases hle : first ≤ ranges.length
  · rw [List.drop_append_of_le_length hle,
      List.take_append_of_le_length (by rw [List.length_drop]; omega)]
  · have hzero : stop - first = 0 := by omega
    rw [hzero, List.take_zero, List.take_zero]

/-- Segments end with the row groups that there are, the last one with the last of them. -/
theorem Tiled.ends {start : ℕ} {segments : List TenantSegment} (h : Tiled start segments groups) :
    (∀ segment ∈ segments, segment.rowGroupStart < segment.rowGroupEnd ∧
      segment.rowGroupEnd ≤ start + groups.length) ∧
    ∀ segment, segments.getLast? = some segment → segment.rowGroupEnd = start + groups.length := by
  induction segments generalizing start groups with
  | nil => exact ⟨fun _ hs => absurd hs List.not_mem_nil, fun _ hs => by cases hs⟩
  | cons segment segments ih =>
    obtain ⟨mine, rest, rfl, hne, hstart, hend, -, -, -, -, hrest⟩ := h
    obtain ⟨hends, hlast⟩ := ih hrest
    have hpos := List.length_pos_of_ne_nil hne
    rw [List.length_append, ← Nat.add_assoc]
    refine ⟨fun other hother => ?_, fun other hother => ?_⟩
    · rcases List.mem_cons.1 hother with rfl | hother
      · omega
      · exact hends other hother
    · cases segments with
      | nil =>
        obtain rfl : rest = [] := hrest
        obtain rfl : segment = other := by simpa using hother
        simpa using hend
      | cons second segments =>
        rw [List.getLast?_cons_cons] at hother
        exact hlast other hother

theorem InFileOrder.sublist {ranges mine : List ByteRange} (h : InFileOrder ranges)
    (hsub : mine.Sublist ranges) : InFileOrder mine :=
  ⟨h.1.sublist hsub, fun range hr => h.2 range (hsub.subset hr)⟩

theorem addExtent_streamExtents {segments : List TenantSegment} (h : Tiled 0 segments groups)
    {ranges : List ByteRange} {range : ByteRange} (hlen : ranges.length = groups.length)
    (horder : InFileOrder (ranges ++ [range])) (group : List ParsedRow) :
    addExtent segments (streamExtents segments ranges) group range
      = streamExtents (addSegment segments groups.length group) (ranges ++ [range]) := by
  obtain ⟨hends, hlast⟩ := h.ends
  rw [Nat.zero_add] at hends hlast
  -- segments that are not extended, and a new one
  have hkept : ∀ kept ⊆ segments,
      streamExtents kept (ranges ++ [range]) = streamExtents kept ranges := by
    intro kept hsub
    refine List.map_congr_left fun segment hs => ?_
    rw [slice_append (hlen ▸ (hends segment (hsub hs)).2)]
  have hnew : ∀ segment : TenantSegment, segment.rowGroupStart = groups.length →
      segment.rowGroupEnd = groups.length + 1 →
        streamExtents [segment] (ranges ++ [range]) = [range] := by
    intro segment hstart hend
    have hone : segment.rowGroupEnd - segment.rowGroupStart = 1 := by omega
    rw [streamExtents_singleton, hone, hstart, ← hlen, List.drop_left]
    exact congrArg (fun bytes => [bytes]) (spanOf_singleton (horder.2 range (by simp)))
  cases hsegment : segments.getLast? with
  | none =>
    obtain rfl := List.getLast?_eq_none_iff.1 hsegment
    exact (hnew ⟨groupTenant group, groups.length, groups.length + 1, group.length, minTs group,
      maxTs group⟩ rfl rfl).symm
  | some segment =>
    obtain ⟨front, rfl⟩ := List.getLast?_eq_some_iff.1 hsegment
    have hfront := hkept front (List.subset_append_left _ _)
    by_cases hsame : segment.tenant = groupTenant group
    · have hend := hlast segment hsegment
      have hlt := (hends segment (by simp)).1
      -- the row groups of the last segment so far
      have hslice : (ranges.drop segment.rowGroupStart).take
          (segment.rowGroupEnd - segment.rowGroupStart) = ranges.drop segment.rowGroupStart := by
        refine List.take_of_length_le ?_
        rw [List.length_drop]
        omega
      have hslice' : ((ranges ++ [range]).drop segment.rowGroupStart).take
          (groups.length + 1 - segment.rowGroupStart)
            = ranges.drop segment.rowGroupStart ++ [range] := by
        rw [List.drop_append_of_le_length (by omega)]
        refine List.take_of_length_le ?_
        rw [List.length_append, List.length_drop, List.length_singleton]
        omega
      have hne : ranges.drop segment.rowGroupStart ≠ [] := by
        rw [ne_eq, List.drop_eq_nil_iff]
        omega
      have hspan := spanOf_append hne
        (horder.sublist ((List.drop_sublist segment.rowGroupStart ranges).append_right [range]))
      simp only [addExtent, addSegment, hsegment, if_pos hsame, List.dropLast_concat]
      rw [streamExtents_append, streamExtents_append, hfront, streamExtents_singleton,
        streamExtents_singleton, hslice, hslice', hspan, List.dropLast_concat, List.getLast?_concat]
      rfl
    · simp only [addExtent, addSegment, hsegment, if_neg hsame]
      have hall := hkept (front ++ [segment]) (List.Subset.refl _)
      have hone := hnew ⟨groupTenant group, groups.length, groups.length + 1, group.length,
        minTs group, maxTs group⟩ rfl rfl
      rw [streamExtents_append (front ++ [segment]), hall, hone]

/-- Both writers record the same bytes for the segments. -/
theorem batchExtents_eq_streamExtents {ranges : List ByteRange} (hlen : ranges.length = groups.length)
    (horder : InFileOrder ranges) :
    batchExtents groups ranges = streamExtents (tenantSegments groups) ranges := by
  suffices h : (groups.zip ranges).zipIdx.foldl (fun segments g =>
      (addSegment segments.1 g.2 g.1.1, addExtent segments.1 segments.2 g.1.1 g.1.2)) ([], [])
      = (tenantSegments groups, streamExtents (tenantSegments groups) ranges) by
    rw [batchExtents, h]
  induction groups using List.reverseRecOn generalizing ranges with
  | nil => rfl
  | append_singleton groups group ih =>
    rcases List.eq_nil_or_concat' ranges with rfl | ⟨before, range, rfl⟩
    · simp at hlen
    · have hbefore : before.length = groups.length := by simpa using hlen
      have hzip : (groups ++ [group]).zip (before ++ [range])
          = groups.zip before ++ [(group, range)] := List.zip_append hbefore.symm
      have hidx : (groups.zip before).length = groups.length := by
        rw [List.length_zip, hbefore, Nat.min_self]
      rw [hzip, List.zipIdx_append, List.foldl_append,
        ih hbefore (horder.sublist (List.sublist_append_left _ _)), hidx, tenantSegments_append,
        ← addExtent_streamExtents (tiled_tenantSegments groups) hbefore horder group]
      rw [Nat.zero_add]
      rfl

/-! ### Tokens and trigrams -/

/-- The filters of a part answer for a row: its window admits the tokens of all its fields, and
its row group the trigrams of its line. -/
def AnswersFor (P : Platform) (part : LogPart) (g i : ℕ) (row : Row) : Prop :=
  ∃ blooms, part.index[g]? = some blooms ∧
    (∀ p ∈ indexedFields row (Logql.extractJson P.parseJson row.line), ∃ token window,
      encodeExactFieldToken p.1 p.2 = some token ∧
        blooms.exactFields[i / bloomWindowRows]? = some window ∧ window.admits token = true) ∧
    ∀ trigram ∈ trigrams (row.line.toList.flatMap P.charLower),
      blooms.line.contains trigram = true

/-- The filters of a part answer for all its rows. -/
theorem Layout.answersFor {part : LogPart} (h : Layout P part groups) {g i : ℕ}
    {group : List ParsedRow} {r : ParsedRow} (hgroup : groups[g]? = some group)
    (hr : group[i]? = some r) : AnswersFor P part g i r.1 := by
  have hindex := Runs.getElem?_of_mapM_some h.index g
  rw [hgroup, Option.bind_some] at hindex
  have hmem : r ∈ groups.flatten :=
    List.mem_flatten.2 ⟨group, List.mem_of_getElem? hgroup, List.mem_of_getElem? hr⟩
  obtain ⟨blooms, hget, hblooms⟩ := Runs.mem_of_mapM_some h.index (List.mem_of_getElem? hgroup)
  refine ⟨blooms, hindex.symm.trans hblooms, fun p hp => ?_, fun trigram ht => ?_⟩
  · rw [← indexedFields_congr (h.getD_fields hmem)] at hp
    exact window_admits P.exactSizing_pos hblooms hr hp
  · obtain ⟨windows, -, rfl⟩ := Option.map_eq_some_iff.1 hblooms
    refine contains_foldl_insert (P.lineSizing_pos _) (List.length_replicate ..) (.inr ?_)
    rw [List.mem_dedup]
    exact List.mem_flatMap.2
      ⟨r.1.line, List.mem_map.2 ⟨r, List.mem_of_getElem? hr, rfl⟩, ht⟩

/-! ### The writers agree -/

/-- The streaming writer writes the part of the batch writer, with the same bytes of its segments,
when it has its columns; and with the columns that a merge chooses from the summaries of its
inputs, the filters of the part answer for all its rows. -/
theorem writers_agree {rowGroupSize : ℕ} (hsize : 0 < rowGroupSize) :
    (∀ id partition rows,
      streamPart P (batchMetadataKeys rows) (batchParsedKeys P rows) id partition rows rowGroupSize
        = writePartFiles P id partition rows rowGroupSize) ∧
    (∀ (rows : List Row) (ranges : List ByteRange),
      ranges.length = (rowGroupBounds rowGroupSize (rows.map (parseRow P))).length →
      InFileOrder ranges →
        batchExtents (rowGroupBounds rowGroupSize (rows.map (parseRow P))) ranges
          = streamExtents
              (tenantSegments (rowGroupBounds rowGroupSize (rows.map (parseRow P)))) ranges) ∧
    ∀ (env : Surroundings) (settings : MergeSettings) (root : PartsRoot)
      (inputs : List (SharedReader × List Row)) (keep : Row → Bool) (oldDirs : List String)
      (parts : List LogPart) (dropped kept : ℕ),
      settings.rowGroupSize = rowGroupSize → rowGroupSize ≤ 65536 →
      (∀ input ∈ inputs, Written P input.1.part input.2) →
      (∀ input ∈ inputs, ∀ g, (input.1.cacheAt g).Sound input.1.part) →
      (rewriteGroup P env settings root (inputs.map Prod.fst) keep oldDirs).1
        = .ok (parts, dropped, kept) →
      ∀ part ∈ parts, ∃ groups : List (List Row),
        groups.flatten = (sortRows (inputs.flatMap Prod.snd)).filter keep ∧
        groups.map (List.map fun row => (row.tenant, row.timestampNs, row.line))
          = part.data.map (List.map fun cells => (cells.tenant, cells.timestampNs, cells.msg)) ∧
        ∀ g group, groups[g]? = some group → ∀ i row, group[i]? = some row →
          AnswersFor P part g i row := by
  refine ⟨streamPart_eq_writePartFiles hsize, fun rows ranges => batchExtents_eq_streamExtents, ?_⟩
  intro env settings root inputs keep oldDirs parts dropped kept hsettings hsmall hwritten hsound
    hrewrite part hpart
  subst hsettings
  obtain ⟨groups, hlayout, hflat⟩ :=
    (Written.merge hwritten hsound hsize hsmall hrewrite hpart).layout
  refine ⟨groups.map (List.map Prod.fst), ?_, ?_, ?_⟩
  · rw [← hflat, List.map_flatten]
  · rw [hlayout.data, List.map_map, List.map_map]
    refine List.map_congr_left fun group _ => ?_
    simp only [Function.comp_apply, rowGroupBatch, List.map_map]
    rfl
  · intro g group hgroup i row hrow
    rw [List.getElem?_map, Option.map_eq_some_iff] at hgroup
    obtain ⟨parsed, hparsed, rfl⟩ := hgroup
    rw [List.getElem?_map, Option.map_eq_some_iff] at hrow
    obtain ⟨r, hr, rfl⟩ := hrow
    exact hlayout.answersFor hparsed hr

theorem writers_agree_plainRow :
    streamPart plainPlatform (batchMetadataKeys [plainRow]) (batchParsedKeys plainPlatform [plainRow])
        "part" 0 [plainRow] 2 = writePartFiles plainPlatform "part" 0 [plainRow] 2 ∧
      batchExtents [[(plainRow, none)]] [⟨4, 90⟩] = [⟨4, 90⟩] := by
  obtain ⟨hparts, -, -⟩ := writers_agree (P := plainPlatform) (by decide : 0 < 2)
  exact ⟨hparts "part" 0 [plainRow], by decide +kernel⟩

end Part

end Obsy
