import Mathlib.Data.List.Perm.Subperm
import Mathlib.Logic.Equiv.List
import Obsy.Part.RowStream

/-!
# Rewriting parts

A merge replaces some parts of a day with one that holds the rows of theirs that are to be kept.

* `rewriteGroup`: the rewrite, and what it leaves under the root of the parts.
* `Written`: the parts a flush or a merge wrote.
* `rewriteGroup_conserves`: the part holds the kept rows of its inputs, each once.
-/

namespace Obsy

namespace Part

/-! ### The root of the parts -/

structure PartDir where
  part : LogPart
  /-- The directories its tombstone names, if it has one. -/
  replaces : Option (List String)

/-- The directories under the root, without those still being staged. -/
abbrev PartsRoot := List PartDir

/-- Whether a directory is taken. -/
def PartsRoot.taken (root : PartsRoot) (partition : ℤ) (id : String) : Bool :=
  root.any fun dir => dir.part.info.partition == partition && dir.part.info.id == id

/-- Where the file system can fail a rewrite. -/
inductive IoStep where
  /-- The staging directory and the file in it. -/
  | staging
  /-- The row group that a kept row completes, by the number of rows kept. -/
  | push (kept : ℕ)
  /-- The last row group, the index and the summary. -/
  | finish
  | tombstone
  /-- The directory of the day. -/
  | partition
  | rename
  /-- The sync of the day and of the root. -/
  | sync
  | load
deriving DecidableEq

/-! ### Writing the rows -/

/-- What the environment of a rewrite decides. -/
structure Surroundings where
  evict : ℕ → GroupCache.Eviction
  faults : IoStep → Option String
  /-- `gen_part_id`, of the first timestamp. -/
  genPartId : Nanos → String

variable (P : Platform) (env : Surroundings)

/-- A field that has no token; the code says whether its name or its value is too large. -/
def tokenTooLarge : String := "field value is too large"

/-- Pushes the rows that are to be kept; at most so many rows come. -/
def writeRows (keep : Row → Bool) (copies : ℕ) : ℕ → MergedRows → StreamingPartWriter → ℕ → ℕ →
    Except String (StreamingPartWriter × ℕ × ℕ)
  | 0, _, writer, dropped, kept => .ok (writer, dropped, kept)
  | fuel + 1, rows, writer, dropped, kept =>
    match rows.nextRow P env.evict copies with
    | .error e => .error e
    | .ok (none, _) => .ok (writer, dropped, kept)
    | .ok (some row, rows) =>
      if !keep row then writeRows keep copies fuel rows writer (dropped + 1) kept
      else
        match env.faults (.push (kept + 1)), writer.push P row with
        | some e, _ => .error e
        | none, none => .error tokenTooLarge
        | none, some writer => writeRows keep copies fuel rows writer dropped (kept + 1)

/-- The end of `flush_row_stream_with_merge_tombstone`: the part becomes visible, and what is
loaded from it is what was written. -/
def publish (root : PartsRoot) (writer : StreamingPartWriter) (partition : ℤ)
    (oldDirs : List String) : Except String LogPart × PartsRoot :=
  let id := env.genPartId writer.minTsNs
  match env.faults .finish, writer.finish P id partition with
  | some e, _ => (.error e, root)
  | none, none => (.error tokenTooLarge, root)
  | none, some part =>
    match (env.faults .tombstone).or (env.faults .partition) with
    | some e => (.error e, root)
    | none =>
      if root.taken partition id then (.error ("part dir already exists: " ++ id), root)
      else
        match env.faults .rename with
        | some e => (.error e, root)
        | none =>
          let renamed := root ++ [⟨part, some oldDirs⟩]
          match env.faults .sync with
          | some e => (.error e, renamed)
          | none =>
            match env.faults .load, validateMetaFile id partition part.info with
            | some e, _ => (.error e, root)
            | none, false => (.error "invalid part metadata", root)
            | none, true => (.ok part, renamed)

/-- `flush_row_stream_with_merge_tombstone`: the parts written, how many rows were dropped and how
many kept. -/
def flushRowStream (root : PartsRoot) (keep : Row → Bool) (rows : MergedRows) (total : ℕ)
    (writer : StreamingPartWriter) (partition : ℤ) (oldDirs : List String) :
    Except String (List LogPart × ℕ × ℕ) × PartsRoot :=
  match env.faults .staging with
  | some e => (.error e, root)
  | none =>
    match writeRows P env keep total (total + 1) rows writer 0 0 with
    | .error e => (.error e, root)
    | .ok (writer, dropped, kept) =>
      if writer.isEmpty then (.ok ([], dropped, kept), root)
      else
        let published := publish P env root writer partition oldDirs
        (published.1.map fun part => ([part], dropped, kept), published.2)

/-! ### Rewriting a group -/

def streamPageBytes : ℕ := 8 * 1024 * 1024

def minStreamPageBytes : ℕ := 2 * 1024 * 1024

/-- Half of the memory of a merge is for its pages. -/
def mergePagingBudget (mergeMaxMemoryBytes : ℕ) : ℕ :=
  max (mergeMaxMemoryBytes / 2) minStreamPageBytes

/-- The settings of a rewrite. -/
structure MergeSettings where
  rowGroupSize : ℕ
  mergeMaxMemoryBytes : ℕ

/-- The columns of the output, from the counts of the inputs. -/
def mergeKeys (columns : LogPart → List (String × ℕ)) (readers : List SharedReader) : List String :=
  (selectMetadataColumns (tally (readers.flatMap fun reader => columns reader.part))).map Prod.fst

/-- `rewrite_group`. -/
def rewriteGroup (settings : MergeSettings) (root : PartsRoot) (readers : List SharedReader)
    (keep : Row → Bool) (oldDirs : List String) :
    Except String (List LogPart × ℕ × ℕ) × PartsRoot :=
  match readers with
  | [] => (.ok ([], 0, 0), root)
  | first :: _ =>
    let partition := first.part.info.partition
    match readers.find? fun reader => reader.part.info.partition != partition with
    | some other => (.error ("merge group spans partitions " ++ toString partition ++ " and " ++
        toString other.part.info.partition), root)
    | none =>
      let pageBytes := min (max (mergePagingBudget settings.mergeMaxMemoryBytes / readers.length)
        minStreamPageBytes) streamPageBytes
      flushRowStream P env root keep (.create readers pageBytes)
        (readers.map fun reader => reader.part.data.flatten.length).sum
        (.create (mergeKeys (fun part => part.info.metadataColumns) readers)
          (mergeKeys (fun part => part.info.parsedColumns) readers) settings.rowGroupSize)
        partition oldDirs

/-! ### The parts there are -/

/-- The parts that a flush or a merge wrote, with the rows written to them. -/
inductive Written : LogPart → List Row → Prop
  /-- A flush of entries as the memtable holds them: the part of a day has the rows of the day. -/
  | flush {ids : ℤ → String} {rowGroupSize : ℕ} {entries : List (String × LogEntry)}
      {parts : List LogPart} {part : LogPart} (positive : 0 < rowGroupSize)
      (small : rowGroupSize ≤ 65536)
      (flushed : flushRows P ids rowGroupSize (entries.map fun e =>
        Row.fromEntry e.1 e.2.canonicalized) = some parts)
      (member : part ∈ parts) :
      Written part (sortRows ((entries.map fun e => Row.fromEntry e.1 e.2.canonicalized).filter
        fun row => partitionOf row.timestampNs = part.info.partition))
  /-- A merge of parts, with the row groups of its inputs cached or not. -/
  | merge {env : Surroundings} {settings : MergeSettings} {root : PartsRoot}
      {inputs : List (SharedReader × List Row)} {keep : Row → Bool} {oldDirs : List String}
      {parts : List LogPart} {dropped kept : ℕ} {part : LogPart}
      (written : ∀ input ∈ inputs, Written input.1.part input.2)
      (sound : ∀ input ∈ inputs, ∀ g, (input.1.cacheAt g).Sound input.1.part)
      (positive : 0 < settings.rowGroupSize) (small : settings.rowGroupSize ≤ 65536)
      (rewritten : (rewriteGroup P env settings root (inputs.map Prod.fst) keep oldDirs).1
        = .ok (parts, dropped, kept))
      (member : part ∈ parts) :
      Written part ((sortRows (inputs.flatMap Prod.snd)).filter keep)

/-! ### Tokens -/

variable {P env} {part : LogPart} {groups : List (List ParsedRow)}

/-- Every field of a row has a token. -/
def TokensFit (row : Row) (fields : Option Pairs) : Prop :=
  ∀ p ∈ indexedFields row fields, (encodeExactFieldToken p.1 p.2).isSome = true

theorem mapM_isSome {α β : Type*} {f : α → Option β} {items : List α}
    (h : ∀ item ∈ items, (f item).isSome = true) : (items.mapM f).isSome = true := by
  induction items with
  | nil => rfl
  | cons first items ih =>
    obtain ⟨b, hb⟩ := Option.isSome_iff_exists.1 (h first List.mem_cons_self)
    obtain ⟨bs, hbs⟩ := Option.isSome_iff_exists.1
      (ih fun item hi => h item (List.mem_cons_of_mem _ hi))
    simp [hb, hbs]

theorem groupBlooms_isSome {group : List ParsedRow} (h : ∀ r ∈ group, TokensFit r.1 r.2) :
    (groupBlooms P group).isSome = true := by
  rw [groupBlooms, encodeGroupBlooms, Option.isSome_map]
  refine mapM_isSome fun window hw => mapM_isSome fun p hp => ?_
  obtain ⟨r, hr, hmem⟩ := List.mem_flatMap.1 hp
  obtain ⟨i, -, rfl⟩ := List.mem_map.1 hw
  exact h r (List.drop_subset _ _ (List.take_subset _ _ hr)) p hmem

theorem tokensFit_of_groupBlooms {group : List ParsedRow} {blooms : GroupBlooms}
    (h : groupBlooms P group = some blooms) {r : ParsedRow} (hr : r ∈ group) :
    TokensFit r.1 r.2 := by
  obtain ⟨windows, hwindows, -⟩ := Option.map_eq_some_iff.1 h
  obtain ⟨i, hi⟩ := List.mem_iff_getElem?.1 hr
  obtain ⟨window, hwindow, hmem⟩ := getElem?_windowsOf hi
  obtain ⟨tokens, -, htokens⟩ := Runs.mem_of_mapM_some hwindows (List.mem_of_getElem? hwindow)
  intro p hp
  obtain ⟨token, -, htoken⟩ := Runs.mem_of_mapM_some htokens (List.mem_flatMap.2 ⟨r, hmem, hp⟩)
  rw [htoken]
  rfl

/-- Where no line has a field, parsing the lines adds no field. -/
theorem Layout.getD_fields (h : Layout P part groups) {r : ParsedRow} (hr : r ∈ groups.flatten) :
    r.2.getD [] = (Logql.extractJson P.parseJson r.1.line).getD [] := by
  rcases h.fields r hr with hf | ⟨hnil, hnone⟩
  · rw [hf]
  · rw [hnone]
    cases hx : Logql.extractJson P.parseJson r.1.line with
    | none => rfl
    | some fields =>
      have hroom : part.parsedKeys.length < maxMetadataColumns := by
        rw [hnil]
        decide
      have hempty : fields = [] := by
        refine List.eq_nil_iff_forall_not_mem.2 fun p hp => ?_
        have := h.parsedComplete hroom r hr fields hx p hp
        rw [hnil] at this
        cases this
      rw [hempty]
      rfl

theorem indexedFields_congr {row : Row} {fields fields' : Option Pairs}
    (h : fields.getD [] = fields'.getD []) : indexedFields row fields = indexedFields row fields' := by
  rw [indexedFields, indexedFields, h]

/-- What was written once has tokens for every field. -/
theorem Layout.tokensFit (h : Layout P part groups) {r : ParsedRow} (hr : r ∈ groups.flatten) :
    TokensFit r.1 (Logql.extractJson P.parseJson r.1.line) := by
  obtain ⟨group, hg, hmem⟩ := List.mem_flatten.1 hr
  obtain ⟨blooms, -, hblooms⟩ := Runs.mem_of_mapM_some h.index hg
  have hfit := tokensFit_of_groupBlooms hblooms hmem
  rwa [TokensFit, indexedFields_congr (h.getD_fields hr)] at hfit

/-! ### The columns of the output -/

variable {readers : List SharedReader} {inputs : List (List (List ParsedRow))}

theorem sorted_mergeKeys (columns : LogPart → List (String × ℕ)) (readers : List SharedReader) :
    (mergeKeys columns readers).Pairwise (· < ·) :=
  sorted_selectMetadataColumns (nodup_keys_tally _)

theorem length_mergeKeys_le (columns : LogPart → List (String × ℕ))
    (readers : List SharedReader) : (mergeKeys columns readers).length ≤ maxMetadataColumns := by
  rw [mergeKeys, List.length_map]
  exact length_selectMetadataColumns_le _

/-- With room left, every column of an input is one of the output, and the input had room. -/
theorem mergeKeys_complete {columns : LogPart → List (String × ℕ)}
    (hroom : (mergeKeys columns readers).length < maxMetadataColumns) {reader : SharedReader}
    (hr : reader ∈ readers) (hnodup : ((columns reader.part).map Prod.fst).Nodup) :
    (columns reader.part).map Prod.fst ⊆ mergeKeys columns readers ∧
      ((columns reader.part).map Prod.fst).length < maxMetadataColumns := by
  have hsub : (columns reader.part).map Prod.fst ⊆ mergeKeys columns readers := by
    intro key hkey
    rw [mergeKeys, List.length_map] at hroom
    have hcounted : key ∈ (tally (readers.flatMap fun reader => columns reader.part)).map
        Prod.fst := by
      rw [mem_keys_tally, List.map_flatMap]
      exact List.mem_flatMap.2 ⟨reader, hr, hkey⟩
    obtain ⟨entry, hentry, rfl⟩ := List.mem_map.1 hcounted
    exact List.mem_map_of_mem ((mem_selectMetadataColumns hroom).2 hentry)
  exact ⟨hsub, (hnodup.subperm hsub).length_le.trans_lt hroom⟩

/-! ### Pushing rows -/

variable {writer : StreamingPartWriter}

/-- The rows pushed are the last ones, each with what the writer reads from its line. -/
theorem Filling.foldlM_push {rows : List Row} {writer' : StreamingPartWriter}
    (hsize : 0 < writer.rowGroupSize) (h : Filling P writer groups)
    (hpush : rows.foldlM (StreamingPartWriter.push P) writer = some writer') :
    ∃ groups', Filling P writer' groups' ∧ groups'.flatten ++ writer'.group
      = groups.flatten ++ writer.group ++ rows.map (fun row => (row, writer.parsed P row)) ∧
      SameKeys writer writer' ∧ (Snug writer groups → Snug writer' groups') := by
  induction rows generalizing writer groups with
  | nil =>
    obtain rfl := Option.some.inj hpush
    exact ⟨groups, h, by simp, ⟨rfl, rfl, rfl⟩, id⟩
  | cons row rows ih =>
    rw [List.foldlM_cons, Option.bind_eq_bind, Option.bind_eq_some_iff] at hpush
    obtain ⟨middle, hfirst, hrest⟩ := hpush
    obtain ⟨groups', hfill, hflat, hkeys, hsnug⟩ := h.push hsize hfirst
    obtain ⟨groups'', hfill', hflat', hkeys', hsnug'⟩ := ih (hkeys.2.2 ▸ hsize) hfill hrest
    refine ⟨groups'', hfill', ?_, ⟨hkeys'.1.trans hkeys.1, hkeys'.2.1.trans hkeys.2.1,
      hkeys'.2.2.trans hkeys.2.2⟩, fun hw => hsnug' (hsnug hw)⟩
    have hparsed : (fun row => (row, middle.parsed P row)) = fun row => (row, writer.parsed P row) :=
      funext fun row => by rw [hkeys.parsed]
    rw [hflat', hflat, hparsed, List.map_cons, List.append_assoc]
    rfl

theorem flushGroup_isSome (h : ∀ r ∈ writer.group, TokensFit r.1 r.2) :
    (writer.flushGroup P).isSome = true := by
  rw [StreamingPartWriter.flushGroup]
  split
  · rfl
  · rw [Option.isSome_map]
    exact groupBlooms_isSome h

/-- A row with tokens is pushed, if the ones before it have them. -/
theorem push_isSome {row : Row} (h : ∀ r ∈ writer.group, TokensFit r.1 r.2)
    (hrow : TokensFit row (writer.parsed P row)) :
    ∃ writer', writer.push P row = some writer' ∧ SameKeys writer writer' ∧
      ∀ r ∈ writer'.group, TokensFit r.1 r.2 := by
  obtain ⟨middle, hmiddle, hkeys, hfit⟩ : ∃ middle, writer.cutBefore P row = some middle ∧
      SameKeys writer middle ∧ ∀ r ∈ middle.group, TokensFit r.1 r.2 := by
    rw [StreamingPartWriter.cutBefore]
    split
    case isTrue =>
      rw [StreamingPartWriter.flushGroup]
      split
      · exact ⟨writer, rfl, ⟨rfl, rfl, rfl⟩, h⟩
      · obtain ⟨blooms, hblooms⟩ := Option.isSome_iff_exists.1 (groupBlooms_isSome (P := P) h)
        rw [hblooms]
        exact ⟨_, rfl, ⟨rfl, rfl, rfl⟩, fun r hr => by cases hr⟩
    case isFalse => exact ⟨writer, rfl, ⟨rfl, rfl, rfl⟩, h⟩
  rw [StreamingPartWriter.push, hmiddle]
  refine ⟨_, rfl, hkeys, fun r hr => ?_⟩
  rcases List.mem_append.1 hr with hr | hr
  · exact hfit r hr
  · rw [List.mem_singleton.1 hr, hkeys.parsed]
    exact hrow

theorem foldlM_push_isSome {rows : List Row} (h : ∀ r ∈ writer.group, TokensFit r.1 r.2)
    (hrows : ∀ row ∈ rows, TokensFit row (writer.parsed P row)) :
    ∃ writer', rows.foldlM (StreamingPartWriter.push P) writer = some writer' ∧
      ∀ r ∈ writer'.group, TokensFit r.1 r.2 := by
  induction rows generalizing writer with
  | nil => exact ⟨writer, rfl, h⟩
  | cons row rows ih =>
    obtain ⟨middle, hpush, hkeys, hfit⟩ := push_isSome h (hrows row List.mem_cons_self)
    obtain ⟨writer', hfold, hfit'⟩ := ih hfit fun r hr => by
      rw [hkeys.parsed]
      exact hrows r (List.mem_cons_of_mem _ hr)
    refine ⟨writer', ?_, hfit'⟩
    rw [List.foldlM_cons, hpush]
    exact hfold

/-! ### Writing the rows of a merge -/

/-- A rewrite that gets through the rows has pushed those to be kept and counted all. -/
theorem writeRows_ok {keep : Row → Bool} {copies : ℕ} {L : List Row} {rows : MergedRows}
    (h : rows.Yields P env.evict copies L) {fuel : ℕ} (hfuel : L.length < fuel) {dropped kept : ℕ}
    {result : StreamingPartWriter × ℕ × ℕ}
    (hwrite : writeRows P env keep copies fuel rows writer dropped kept = .ok result) :
    (L.filter keep).foldlM (StreamingPartWriter.push P) writer = some result.1 ∧
      result.2.1 = dropped + (L.filter fun row => !keep row).length ∧
      result.2.2 = kept + (L.filter keep).length := by
  induction L generalizing rows fuel writer dropped kept with
  | nil =>
    obtain ⟨rows', hnext⟩ := h
    cases fuel with
    | zero => cases hfuel
    | succ fuel =>
      simp only [writeRows, hnext] at hwrite
      obtain rfl := Except.ok.inj hwrite
      exact ⟨rfl, rfl, rfl⟩
  | cons row L ih =>
    obtain ⟨rows', hnext, hrest⟩ := h
    cases fuel with
    | zero => cases hfuel
    | succ fuel =>
      have hfuel' : L.length < fuel := by simpa using hfuel
      simp only [writeRows, hnext] at hwrite
      cases hkeep : keep row with
      | false =>
        simp only [hkeep, Bool.not_false, if_true] at hwrite
        obtain ⟨hfold, hdropped, hkept⟩ := ih hrest hfuel' hwrite
        rw [List.filter_cons_of_neg (by simp [hkeep]), List.filter_cons_of_pos (by simp [hkeep]),
          List.length_cons]
        exact ⟨hfold, by omega, hkept⟩
      | true =>
        simp only [hkeep, Bool.not_true, Bool.false_eq_true, if_false] at hwrite
        cases hfault : env.faults (.push (kept + 1)) with
        | some e =>
          rw [hfault] at hwrite
          cases hwrite
        | none =>
          rw [hfault] at hwrite
          cases hpush : writer.push P row with
          | none =>
            rw [hpush] at hwrite
            cases hwrite
          | some next =>
            rw [hpush] at hwrite
            obtain ⟨hfold, hdropped, hkept⟩ := ih hrest hfuel' hwrite
            rw [List.filter_cons_of_pos hkeep, List.filter_cons_of_neg (by simp [hkeep]),
              List.foldlM_cons, hpush, List.length_cons]
            exact ⟨hfold, hdropped, by omega⟩

/-- Without faults a rewrite gets through the rows. -/
theorem writeRows_of_fits {keep : Row → Bool} {copies : ℕ} {L : List Row} {rows : MergedRows}
    (h : rows.Yields P env.evict copies L) {fuel : ℕ} (hfuel : L.length < fuel) {dropped kept : ℕ}
    (hfaults : ∀ n, env.faults (.push n) = none) {last : StreamingPartWriter}
    (hpush : (L.filter keep).foldlM (StreamingPartWriter.push P) writer = some last) :
    ∃ counts, writeRows P env keep copies fuel rows writer dropped kept = .ok (last, counts) := by
  induction L generalizing rows fuel writer dropped kept with
  | nil =>
    obtain ⟨rows', hnext⟩ := h
    obtain rfl := Option.some.inj hpush
    cases fuel with
    | zero => cases hfuel
    | succ fuel =>
      simp only [writeRows, hnext]
      exact ⟨_, rfl⟩
  | cons row L ih =>
    obtain ⟨rows', hnext, hrest⟩ := h
    cases fuel with
    | zero => cases hfuel
    | succ fuel =>
      have hfuel' : L.length < fuel := by simpa using hfuel
      simp only [writeRows, hnext]
      cases hkeep : keep row with
      | false =>
        rw [List.filter_cons_of_neg (by simp [hkeep])] at hpush
        simp only [Bool.not_false, if_true]
        exact ih hrest hfuel' hpush
      | true =>
        rw [List.filter_cons_of_pos hkeep, List.foldlM_cons, Option.bind_eq_bind,
          Option.bind_eq_some_iff] at hpush
        obtain ⟨next, hfirst, hlater⟩ := hpush
        simp only [Bool.not_true, Bool.false_eq_true, if_false, hfaults, hfirst]
        exact ih hrest hfuel' hlater

/-! ### The part a rewrite ends with -/

theorem foldl_min_eq {group : List ParsedRow} (h : group ≠ []) :
    (timestampsOf group).foldl min Nanos.max = minTs group := by
  cases group with
  | nil => exact absurd rfl h
  | cons first rest =>
    have hmax : min Nanos.max first.1.timestampNs = first.1.timestampNs :=
      min_eq_right (Nanos.le_max _)
    rw [minTs, timestampsOf, List.map_cons, List.foldl_cons, hmax, List.min?_cons']
    rfl

theorem foldl_max_eq {group : List ParsedRow} (h : group ≠ []) :
    (timestampsOf group).foldl max Nanos.min = maxTs group := by
  cases group with
  | nil => exact absurd rfl h
  | cons first rest =>
    have hmin : max Nanos.min first.1.timestampNs = first.1.timestampNs :=
      max_eq_right (Nanos.min_le _)
    rw [maxTs, timestampsOf, List.map_cons, List.foldl_cons, hmin, List.max?_cons']
    rfl

/-- The summary a writer ends with passes the check of the loader. -/
theorem Filling.validates {id : String} {partition : ℤ} (h : Filling P writer groups)
    (hfinish : writer.finish P id partition = some part) {groups' : List (List ParsedRow)}
    (hlayout : Layout P part groups') (hflat : groups'.flatten = groups.flatten ++ writer.group)
    (hne : groups'.flatten ≠ []) (hmetadata : writer.metadataKeys.length ≤ maxMetadataColumns)
    (hparsed : writer.parsedKeys.length ≤ maxMetadataColumns) :
    validateMetaFile id partition part.info = true := by
  obtain ⟨last, hflush, rfl⟩ := Option.map_eq_some_iff.1 hfinish
  obtain ⟨written, hfill, hwritten, hnil, hkeys, -⟩ := h.flushGroup hflush
  have hcounts : last.rowCount ≠ 0 := by
    rw [hfill.rowCount, hnil, List.append_nil, hwritten, ← hflat]
    exact fun hzero => hne (List.length_eq_zero_iff.1 hzero)
  have hmin : last.minTsNs = minTs groups'.flatten := by
    rw [hfill.minTsNs, hnil, List.append_nil, hwritten, ← hflat, foldl_min_eq hne]
  have hmax : last.maxTsNs = maxTs groups'.flatten := by
    rw [hfill.maxTsNs, hnil, List.append_nil, hwritten, ← hflat, foldl_max_eq hne]
  refine hlayout.validates hne ?_ ?_ ?_ ?_ ?_
  · dsimp only
    rw [if_neg hcounts, hmin]
  · dsimp only
    rw [if_neg hcounts, hmax]
  · have hcount : last.rowGroupMinTs.length = groups'.length := hlayout.rowGroupCount
    rw [hfill.rowGroupMinTs, List.length_map] at hcount
    dsimp only
    rw [hfill.rowGroupTsMonotonic, List.length_map, hcount]
  · simpa [LogPart.metadataKeys, hkeys.1] using hmetadata
  · simpa [LogPart.parsedKeys, hkeys.2.1] using hparsed

/-! ### The inputs of a rewrite -/

/-- Parts of one day with the row groups they hold, read through sound caches. -/
structure MergeInputs (P : Platform) (readers : List SharedReader)
    (inputs : List (List (List ParsedRow))) (partition : ℤ) : Prop where
  layouts : List.Forall₂ (fun reader groups => Layout P reader.part groups) readers inputs
  sound : ∀ reader ∈ readers, ∀ g, (reader.cacheAt g).Sound reader.part
  partition : ∀ reader ∈ readers, reader.part.info.partition = partition

variable {partition : ℤ}

/-- The writer of a rewrite. -/
def mergeWriter (readers : List SharedReader) (rowGroupSize : ℕ) : StreamingPartWriter :=
  .create (mergeKeys (fun part => part.info.metadataColumns) readers)
    (mergeKeys (fun part => part.info.parsedColumns) readers) rowGroupSize

theorem length_heldRows
    (h : List.Forall₂ (fun reader groups => Layout P reader.part groups) readers inputs) :
    (readers.map fun reader => reader.part.data.flatten.length).sum = (heldRows inputs).length := by
  induction h with
  | nil => rfl
  | @cons reader groups readers inputs hlayout _ ih =>
    have hdata : reader.part.data.flatten = groups.flatten.map (reader.part.cellsOf P) := by
      rw [hlayout.data, List.map_flatten]
      rfl
    have hcons : heldRows (groups :: inputs) = groups.flatten.map Prod.fst ++ heldRows inputs :=
      List.flatMap_cons
    rw [List.map_cons, List.sum_cons, ih, hdata, hcons, List.length_append, List.length_map,
      List.length_map]

theorem heldRows_eq_flatMap {inputs : List (SharedReader × List Row)}
    {groups : List (List (List ParsedRow))}
    (h : List.Forall₂ (fun input groups => Layout P input.1.part groups ∧
      groups.flatten.map Prod.fst = input.2) inputs groups) :
    heldRows groups = inputs.flatMap Prod.snd := by
  induction h with
  | nil => rfl
  | cons hinput _ ih =>
    rw [List.flatMap_cons, ← ih, ← hinput.2]
    exact List.flatMap_cons

namespace MergeInputs

theorem exists_input (h : MergeInputs P readers inputs partition) {row : Row}
    (hrow : row ∈ heldRows inputs) : ∃ reader ∈ readers, ∃ groups, Layout P reader.part groups ∧
      ∃ r ∈ groups.flatten, r.1 = row := by
  obtain ⟨groups, hgroups, hmem⟩ := List.mem_flatMap.1 hrow
  obtain ⟨r, hr, rfl⟩ := List.mem_map.1 hmem
  obtain ⟨i, hi, rfl⟩ := List.mem_iff_getElem.1 hgroups
  have hlen := h.layouts.length_eq
  have hlayout := (List.forall₂_iff_get.1 h.layouts).2 i (hlen ▸ hi) hi
  exact ⟨_, List.getElem_mem (hlen ▸ hi), _, hlayout, r, hr, rfl⟩

/-- What the writer reads from the line of an input's row is what the line holds. -/
theorem getD_parsed (h : MergeInputs P readers inputs partition) {row : Row}
    (hrow : row ∈ heldRows inputs) (rowGroupSize : ℕ) :
    ((mergeWriter readers rowGroupSize).parsed P row).getD []
      = (Logql.extractJson P.parseJson row.line).getD [] := by
  rw [StreamingPartWriter.parsed]
  split
  case isFalse => rfl
  case isTrue hempty =>
    -- without columns in the output no input has any, so that no line has a field
    obtain ⟨reader, hreader, groups, hlayout, r, hr, rfl⟩ := h.exists_input hrow
    have hnil : mergeKeys (fun part => part.info.parsedColumns) readers = [] :=
      List.isEmpty_iff.1 hempty
    have hroom : (mergeKeys (fun part => part.info.parsedColumns) readers).length
        < maxMetadataColumns := by
      rw [hnil]
      decide
    obtain ⟨hsub, -⟩ := mergeKeys_complete hroom hreader (hlayout.parsedSorted.imp ne_of_lt)
    rw [hnil, List.subset_nil] at hsub
    cases hx : Logql.extractJson P.parseJson r.1.line with
    | none => rfl
    | some fields =>
      have hempty : fields = [] := by
        refine List.eq_nil_iff_forall_not_mem.2 fun p hp => ?_
        have hkeys : reader.part.parsedKeys = [] := hsub
        have := hlayout.parsedComplete (by rw [hkeys]; decide) r hr fields hx p hp
        rw [hkeys] at this
        cases this
      rw [hempty]
      rfl

theorem tokensFit (h : MergeInputs P readers inputs partition) {row : Row}
    (hrow : row ∈ heldRows inputs) (rowGroupSize : ℕ) :
    TokensFit row ((mergeWriter readers rowGroupSize).parsed P row) := by
  obtain ⟨reader, -, groups, hlayout, r, hr, rfl⟩ := h.exists_input hrow
  have hfit := hlayout.tokensFit hr
  rwa [TokensFit, ← indexedFields_congr (h.getD_parsed hrow rowGroupSize)] at hfit

/-- The part of a rewrite holds the rows pushed, and passes the check of the loader. -/
theorem finish (h : MergeInputs P readers inputs partition) {rowGroupSize : ℕ}
    (hpositive : 0 < rowGroupSize) (hsmall : rowGroupSize ≤ 65536) {rows : List Row}
    (hsorted : rows.SortedLT) (hrows : ∀ row ∈ rows, row ∈ heldRows inputs)
    (hne : rows ≠ []) {last : StreamingPartWriter}
    (hpush : rows.foldlM (StreamingPartWriter.push P) (mergeWriter readers rowGroupSize) = some last)
    {id : String} (hfinish : last.finish P id partition = some part) :
    (∃ groups, Layout P part groups ∧ groups.flatten.map Prod.fst = rows) ∧
      validateMetaFile id partition part.info = true := by
  obtain ⟨written, hfill, hflat, hkeys, -⟩ :=
    (filling_create (P := P) (mergeKeys (fun part => part.info.metadataColumns) readers)
      (mergeKeys (fun part => part.info.parsedColumns) readers) rowGroupSize).foldlM_push
        hpositive hpush
  have hmetadata : last.metadataKeys = mergeKeys (fun part => part.info.metadataColumns) readers :=
    hkeys.1
  have hparsed : last.parsedKeys = mergeKeys (fun part => part.info.parsedColumns) readers :=
    hkeys.2.1
  have hfst : (written.flatten ++ last.group).map Prod.fst = rows := by
    rw [hflat]
    simp [StreamingPartWriter.create, Function.comp_def]
  have hinput : ∀ r ∈ written.flatten ++ last.group, r.1 ∈ heldRows inputs := fun r hr =>
    hrows r.1 (hfst ▸ List.mem_map_of_mem hr)
  obtain ⟨groups, hlayout, hgroups⟩ := hfill.finish (hkeys.2.2 ▸ hsmall)
    (hmetadata ▸ sorted_mergeKeys _ readers) (hparsed ▸ sorted_mergeKeys _ readers)
    (hfst ▸ hsorted)
    (by
      intro r hr
      obtain ⟨reader, -, groups, hlayout, r', hr', heq⟩ := h.exists_input (hinput r hr)
      exact heq ▸ hlayout.canonical r' hr')
    (by
      intro r hr
      obtain ⟨reader, hreader, groups, hlayout, r', hr', heq⟩ := h.exists_input (hinput r hr)
      rw [← heq, hlayout.partition r' hr']
      exact h.partition reader hreader)
    (by
      intro hroom r hr p hp
      obtain ⟨reader, hreader, groups, hlayout, r', hr', heq⟩ := h.exists_input (hinput r hr)
      rw [hmetadata] at hroom ⊢
      obtain ⟨hsub, hroom'⟩ :=
        mergeKeys_complete hroom hreader (hlayout.metadataSorted.imp ne_of_lt)
      exact hsub (hlayout.metadataComplete hroom' r' hr' p (heq ▸ hp)))
    (by
      intro hroom r hr fields hx p hp
      obtain ⟨reader, hreader, groups, hlayout, r', hr', heq⟩ := h.exists_input (hinput r hr)
      rw [hparsed] at hroom ⊢
      obtain ⟨hsub, hroom'⟩ :=
        mergeKeys_complete hroom hreader (hlayout.parsedSorted.imp ne_of_lt)
      exact hsub (hlayout.parsedComplete hroom' r' hr' fields (heq ▸ hx) p hp))
    hfinish
  refine ⟨⟨groups, hlayout, by rw [hgroups, hfst]⟩, ?_⟩
  refine hfill.validates hfinish hlayout hgroups ?_ ?_ ?_
  · rw [hgroups]
    rintro hnil
    rw [hnil] at hfst
    exact hne hfst.symm
  · rw [hmetadata]
    exact length_mergeKeys_le _ _
  · rw [hparsed]
    exact length_mergeKeys_le _ _

end MergeInputs

theorem mergeInputs_of_layouts {inputs : List (SharedReader × List Row)}
    {groups : List (List (List ParsedRow))}
    (hgroups : List.Forall₂ (fun input groups => Layout P input.1.part groups ∧
      groups.flatten.map Prod.fst = input.2) inputs groups)
    (hsound : ∀ input ∈ inputs, ∀ g, (input.1.cacheAt g).Sound input.1.part)
    (hpartition : ∀ reader ∈ inputs.map Prod.fst, reader.part.info.partition = partition) :
    MergeInputs P (inputs.map Prod.fst) groups partition where
  layouts := by
    rw [List.forall₂_map_left_iff]
    exact hgroups.imp fun _ _ h => h.1
  sound := by
    intro reader hr
    obtain ⟨input, hi, rfl⟩ := List.mem_map.1 hr
    exact hsound input hi
  partition := hpartition

/-! ### The outcome of a rewrite -/

variable {settings : MergeSettings} {root : PartsRoot} {keep : Row → Bool} {oldDirs : List String}

/-- A part that became visible is the one written. -/
theorem publish_ok {root' : PartsRoot}
    (h : publish P env root writer partition oldDirs = (.ok part, root')) :
    ∃ id, writer.finish P id partition = some part ∧ root' = root ++ [⟨part, some oldDirs⟩] := by
  rw [publish] at h
  dsimp only at h
  split at h
  case h_1 => cases h
  case h_2 => cases h
  case h_3 written _ hfinish =>
    split at h
    case h_1 => cases h
    case h_2 =>
      split at h
      case isTrue => cases h
      case isFalse =>
        split at h
        case h_1 => cases h
        case h_2 =>
          split at h
          case h_1 => cases h
          case h_2 =>
            split at h
            case h_1 => cases h
            case h_2 => cases h
            case h_3 =>
              obtain ⟨hpart, rfl⟩ := Prod.mk.inj h
              obtain rfl := Except.ok.inj hpart
              exact ⟨_, hfinish, rfl⟩

theorem publish_of_valid (hfaults : ∀ step, env.faults step = none)
    (hfresh : ∀ ts, root.taken partition (env.genPartId ts) = false)
    (hfinish : writer.finish P (env.genPartId writer.minTsNs) partition = some part)
    (hvalid : validateMetaFile (env.genPartId writer.minTsNs) partition part.info = true) :
    publish P env root writer partition oldDirs = (.ok part, root ++ [⟨part, some oldDirs⟩]) := by
  simp only [publish, hfaults, hfinish, hfresh, hvalid, Option.none_or]
  rfl

/-- The rows a rewrite is to keep. -/
def keptRows (keep : Row → Bool) (inputs : List (List (List ParsedRow))) : List Row :=
  (sortRows (heldRows inputs)).filter keep

theorem sortedLT_keptRows (keep : Row → Bool) (inputs : List (List (List ParsedRow))) :
    (keptRows keep inputs).SortedLT :=
  List.sortedLT_iff_pairwise.2 ((sortedLT_sortRows _).pairwise.filter _)

theorem mem_of_mem_keptRows {row : Row} (h : row ∈ keptRows keep inputs) :
    row ∈ heldRows inputs := mem_sortRows.1 (List.mem_of_mem_filter h)

/-- How a rewrite is carried out. -/
theorem MergeInputs.rewriteGroup_eq (h : MergeInputs P readers inputs partition)
    (env : Surroundings) (settings : MergeSettings) (root : PartsRoot) (keep : Row → Bool)
    (oldDirs : List String) (hne : readers ≠ []) :
    ∃ pageBytes, rewriteGroup P env settings root readers keep oldDirs
      = flushRowStream P env root keep (.create readers pageBytes) (heldRows inputs).length
          (mergeWriter readers settings.rowGroupSize) partition oldDirs := by
  obtain ⟨first, others, rfl⟩ := List.exists_cons_of_ne_nil hne
  have hfirst := h.partition first List.mem_cons_self
  have hsame : ((first :: others).find? fun reader =>
      reader.part.info.partition != partition) = none := by
    refine List.find?_eq_none.2 fun reader hreader => ?_
    rw [h.partition reader hreader]
    simp
  refine ⟨min (max (mergePagingBudget settings.mergeMaxMemoryBytes / (first :: others).length)
    minStreamPageBytes) streamPageBytes, ?_⟩
  simp only [rewriteGroup, hfirst, hsame, length_heldRows h.layouts]
  rfl

theorem rowCount_mergeWriter {rows : List Row} {rowGroupSize : ℕ} (hpositive : 0 < rowGroupSize)
    {last : StreamingPartWriter}
    (hpush : rows.foldlM (StreamingPartWriter.push P) (mergeWriter readers rowGroupSize)
      = some last) : last.rowCount = rows.length := by
  obtain ⟨written, hfill, hflat, -⟩ :=
    (filling_create (P := P) (mergeKeys (fun part => part.info.metadataColumns) readers)
      (mergeKeys (fun part => part.info.parsedColumns) readers) rowGroupSize).foldlM_push
        hpositive hpush
  rw [hfill.rowCount, hflat]
  simp [StreamingPartWriter.create]

/-- A rewrite that succeeds leaves a part with the rows to be kept, or none if there are none. -/
theorem MergeInputs.rewriteGroup_ok (h : MergeInputs P readers inputs partition)
    (hne : readers ≠ []) (hpositive : 0 < settings.rowGroupSize)
    (hsmall : settings.rowGroupSize ≤ 65536) {parts : List LogPart} {dropped kept : ℕ}
    {root' : PartsRoot} (hok : rewriteGroup P env settings root readers keep oldDirs
      = (.ok (parts, dropped, kept), root')) :
    kept = (keptRows keep inputs).length ∧
      dropped = ((sortRows (heldRows inputs)).filter fun row => !keep row).length ∧
      (keptRows keep inputs = [] ∧ parts = [] ∧ root' = root ∨
        keptRows keep inputs ≠ [] ∧ ∃ part groups, parts = [part] ∧
          root' = root ++ [⟨part, some oldDirs⟩] ∧ Layout P part groups ∧
          groups.flatten.map Prod.fst = keptRows keep inputs) := by
  obtain ⟨pageBytes, heq⟩ := h.rewriteGroup_eq env settings root keep oldDirs hne
  rw [heq, flushRowStream] at hok
  have hyields : (MergedRows.create readers pageBytes).Yields P env.evict (heldRows inputs).length
      (sortRows (heldRows inputs)) := mergedRows_yields h.layouts h.sound pageBytes le_rfl
  have hcount : (sortRows (heldRows inputs)).length < (heldRows inputs).length + 1 :=
    Nat.lt_succ_of_le (length_sortRows_le _)
  split at hok
  case h_1 => cases hok
  case h_2 =>
    split at hok
    case h_1 => cases hok
    case h_2 last dropped' kept' hwrite =>
      obtain ⟨hpush, hdropped, hkept⟩ := writeRows_ok hyields hcount hwrite
      rw [Nat.zero_add] at hdropped hkept
      have hrows := rowCount_mergeWriter hpositive hpush
      split at hok
      case isTrue hempty =>
        obtain ⟨hresult, rfl⟩ := Prod.mk.inj hok
        obtain ⟨rfl, rfl, rfl⟩ : [] = parts ∧ dropped' = dropped ∧ kept' = kept := by
          simpa using hresult
        refine ⟨hkept, hdropped, .inl ⟨?_, rfl, rfl⟩⟩
        refine List.length_eq_zero_iff.1 (hrows.symm.trans ?_)
        simpa [StreamingPartWriter.isEmpty] using hempty
      case isFalse hsome =>
        obtain ⟨hresult, rfl⟩ := Prod.mk.inj hok
        cases hpublish : (publish P env root last partition oldDirs).1 with
        | error e =>
          rw [hpublish] at hresult
          cases hresult
        | ok part =>
          rw [hpublish] at hresult
          obtain ⟨rfl, rfl, rfl⟩ : [part] = parts ∧ dropped' = dropped ∧ kept' = kept := by
            simpa [Except.map] using hresult
          obtain ⟨id, hfinish, hroot⟩ := publish_ok (Prod.ext hpublish rfl)
          have hnonempty : keptRows keep inputs ≠ [] := by
            intro hnil
            have hzero : last.rowCount = 0 := by
              rw [hrows, ← keptRows, hnil]
              rfl
            exact hsome (by rw [StreamingPartWriter.isEmpty, hzero]; rfl)
          obtain ⟨⟨groups, hlayout, hflat⟩, -⟩ := h.finish hpositive hsmall
            (sortedLT_keptRows keep inputs) (fun row => mem_of_mem_keptRows) hnonempty hpush hfinish
          exact ⟨hkept, hdropped, .inr ⟨hnonempty, part, groups, rfl, hroot, hlayout, hflat⟩⟩

/-- Without faults a rewrite succeeds. -/
theorem MergeInputs.rewriteGroup_isOk (h : MergeInputs P readers inputs partition)
    (hne : readers ≠ []) (hpositive : 0 < settings.rowGroupSize)
    (hsmall : settings.rowGroupSize ≤ 65536) (hfaults : ∀ step, env.faults step = none)
    (hfresh : ∀ ts, root.taken partition (env.genPartId ts) = false) :
    ∃ result root', rewriteGroup P env settings root readers keep oldDirs = (.ok result, root') := by
  obtain ⟨pageBytes, heq⟩ := h.rewriteGroup_eq env settings root keep oldDirs hne
  have hyields : (MergedRows.create readers pageBytes).Yields P env.evict (heldRows inputs).length
      (sortRows (heldRows inputs)) := mergedRows_yields h.layouts h.sound pageBytes le_rfl
  have hcount : (sortRows (heldRows inputs)).length < (heldRows inputs).length + 1 :=
    Nat.lt_succ_of_le (length_sortRows_le _)
  obtain ⟨last, hpush, hfit⟩ : ∃ last, (keptRows keep inputs).foldlM (StreamingPartWriter.push P)
      (mergeWriter readers settings.rowGroupSize) = some last ∧
      ∀ r ∈ last.group, TokensFit r.1 r.2 :=
    foldlM_push_isSome (fun r hr => by cases hr) fun row hrow =>
      h.tokensFit (mem_of_mem_keptRows hrow) _
  obtain ⟨⟨dropped, kept⟩, hwrite⟩ : ∃ counts, writeRows P env keep (heldRows inputs).length
      ((heldRows inputs).length + 1) (.create readers pageBytes)
      (mergeWriter readers settings.rowGroupSize) 0 0 = .ok (last, counts) :=
    writeRows_of_fits hyields hcount (fun n => hfaults _) hpush
  rw [heq, flushRowStream]
  simp only [hfaults, hwrite]
  split
  case isTrue => exact ⟨_, _, rfl⟩
  case isFalse hsome =>
    have hnonempty : keptRows keep inputs ≠ [] := by
      intro hnil
      rw [hnil] at hpush
      obtain rfl := Option.some.inj hpush
      exact hsome rfl
    obtain ⟨flushed, hflushed⟩ := Option.isSome_iff_exists.1 (flushGroup_isSome (P := P) hfit)
    obtain ⟨part, hfinish⟩ : ∃ part, last.finish P (env.genPartId last.minTsNs) partition
        = some part := by
      rw [StreamingPartWriter.finish, hflushed]
      exact ⟨_, rfl⟩
    obtain ⟨-, hvalid⟩ := h.finish hpositive hsmall (sortedLT_keptRows keep inputs)
      (fun row => mem_of_mem_keptRows) hnonempty hpush hfinish
    rw [publish_of_valid hfaults hfresh hfinish hvalid]
    exact ⟨_, _, rfl⟩

/-! ### Every part there is -/

theorem exists_forall₂ {α β : Type*} {R : α → β → Prop} {items : List α}
    (h : ∀ item ∈ items, ∃ b, R item b) : ∃ bs, List.Forall₂ R items bs := by
  induction items with
  | nil => exact ⟨[], .nil⟩
  | cons item items ih =>
    obtain ⟨b, hb⟩ := h item List.mem_cons_self
    obtain ⟨bs, hbs⟩ := ih fun i hi => h i (List.mem_cons_of_mem _ hi)
    exact ⟨b :: bs, .cons hb hbs⟩

/-- The part of a day holds the rows of the day. -/
theorem layout_of_day {rowGroupSize : ℕ} (hpositive : 0 < rowGroupSize)
    (hsmall : rowGroupSize ≤ 65536) {rows : List Row}
    (hcanonical : ∀ row ∈ rows, Canonical row.structuredMetadata) {id : String} {day : ℤ}
    (hwrite : writePartFiles P id day
      (sortRows (rows.filter fun row => partitionOf row.timestampNs = day)) rowGroupSize
        = some part) :
    part.info.partition = day ∧ ∃ groups, Layout P part groups ∧ groups.flatten.map Prod.fst
      = sortRows (rows.filter fun row => partitionOf row.timestampNs = day) := by
  have hof : ∀ row ∈ sortRows (rows.filter fun row => partitionOf row.timestampNs = day),
      row ∈ rows ∧ partitionOf row.timestampNs = day := fun row hrow => by
    simpa using List.mem_filter.1 (mem_sortRows.1 hrow)
  refine ⟨?_, _, layout_writePartFiles hpositive hsmall (sortedLT_sortRows _)
    (fun row hrow => hcanonical row (hof row hrow).1) (fun row hrow => (hof row hrow).2) hwrite, ?_⟩
  · obtain ⟨index, -, rfl⟩ := Option.map_eq_some_iff.1 hwrite
    rfl
  · rw [flatten_rowGroupBounds hpositive, map_parseRow]

/-- The parts of a flush, day by day: every part has the rows of its day, and every row is of the
day of a part. -/
theorem flushRows_spec {ids : ℤ → String} {rowGroupSize : ℕ} (hpositive : 0 < rowGroupSize)
    (hsmall : rowGroupSize ≤ 65536) {rows : List Row}
    (hcanonical : ∀ row ∈ rows, Canonical row.structuredMetadata) {parts : List LogPart}
    (hflush : flushRows P ids rowGroupSize rows = some parts) :
    (∀ part ∈ parts, ∃ groups, Layout P part groups ∧ groups.flatten.map Prod.fst = sortRows
      (rows.filter fun row => partitionOf row.timestampNs = part.info.partition)) ∧
    (∀ row ∈ rows, ∃ part ∈ parts, part.info.partition = partitionOf row.timestampNs) := by
  have hpart : ∀ day part, (do
      let part ← writePartFiles P (ids day) day
        (sortRows (rows.filter fun row => partitionOf row.timestampNs = day)) rowGroupSize
      guard (validateMetaFile (ids day) day part.info)
      return part) = some part → part.info.partition = day ∧ ∃ groups, Layout P part groups ∧
        groups.flatten.map Prod.fst
          = sortRows (rows.filter fun row => partitionOf row.timestampNs = day) := by
    intro day part hday
    obtain ⟨written, hwritten, hguard⟩ := Option.bind_eq_some_iff.1 hday
    obtain ⟨-, -, hsome⟩ := Option.bind_eq_some_iff.1 hguard
    obtain rfl := Option.some.inj hsome
    exact layout_of_day hpositive hsmall hcanonical hwritten
  refine ⟨fun part hmem => ?_, fun row hrow => ?_⟩
  · obtain ⟨day, -, hday⟩ := Runs.exists_of_mapM_some hflush hmem
    obtain ⟨rfl, hlayout⟩ := hpart day part hday
    exact hlayout
  · have hday : partitionOf row.timestampNs ∈ (rows.map fun row =>
        partitionOf row.timestampNs).dedup.mergeSort (· ≤ ·) :=
      List.mem_mergeSort.2 (List.mem_dedup.2 (List.mem_map_of_mem hrow))
    obtain ⟨part, hmem, hwritten⟩ := Runs.mem_of_mapM_some hflush hday
    exact ⟨part, hmem, (hpart _ part hwritten).1⟩

/-- The part of a day can be written where every field has a token. -/
theorem writePartFiles_ok {rowGroupSize : ℕ} (hpositive : 0 < rowGroupSize)
    (hsmall : rowGroupSize ≤ 65536) {rows : List Row}
    (hcanonical : ∀ row ∈ rows, Canonical row.structuredMetadata)
    (hfit : ∀ row ∈ rows, TokensFit row (Logql.extractJson P.parseJson row.line)) (id : String)
    {day : ℤ} (hday : ∃ row ∈ rows, partitionOf row.timestampNs = day) :
    ∃ part, writePartFiles P id day
        (sortRows (rows.filter fun row => partitionOf row.timestampNs = day)) rowGroupSize = some part ∧
      validateMetaFile id day part.info = true := by
  set kept := sortRows (rows.filter fun row => partitionOf row.timestampNs = day) with hkept
  have hof : ∀ row ∈ kept, row ∈ rows := fun row hrow =>
    List.mem_of_mem_filter (mem_sortRows.1 hrow)
  have hflat := flatten_rowGroupBounds hpositive (kept.map (parseRow P))
  have hindex : ((rowGroupBounds rowGroupSize (kept.map (parseRow P))).mapM
      (groupBlooms P)).isSome = true := by
    refine mapM_isSome fun group hg => groupBlooms_isSome fun r hr => ?_
    have hmem : r ∈ kept.map (parseRow P) := hflat ▸ List.mem_flatten.2 ⟨group, hg, hr⟩
    obtain ⟨row, hrow, rfl⟩ := List.mem_map.1 hmem
    exact hfit row (hof row hrow)
  obtain ⟨part, hwrite⟩ : ∃ part, writePartFiles P id day kept rowGroupSize = some part := by
    obtain ⟨index, hindex⟩ := Option.isSome_iff_exists.1 hindex
    exact ⟨_, by rw [writePartFiles, hindex]; rfl⟩
  have hlayout := layout_writePartFiles hpositive hsmall (sortedLT_sortRows _)
    (fun row hrow => hcanonical row (hof row hrow))
    (fun row hrow => by simpa using (List.mem_filter.1 (mem_sortRows.1 hrow)).2) hwrite
  -- some row is of the day
  have hne : kept.map (parseRow P) ≠ [] := by
    obtain ⟨row, hrow, hrowday⟩ := hday
    have : row ∈ kept := mem_sortRows.2 (List.mem_filter.2 ⟨hrow, by simpa using hrowday⟩)
    exact List.ne_nil_of_mem (List.mem_map_of_mem this)
  refine ⟨part, hwrite, ?_⟩
  have hcheck := hlayout.validates (by rwa [hflat])
  obtain ⟨index, hindex, rfl⟩ := Option.map_eq_some_iff.1 hwrite
  refine hcheck ?_ ?_ (List.length_map _) ?_ ?_
  · rw [hflat]
  · rw [hflat]
  · rw [LogPart.metadataKeys, List.length_map]
    exact length_selectMetadataColumns_le _
  · rw [LogPart.parsedKeys, List.length_map]
    exact length_selectMetadataColumns_le _

/-- A flush succeeds where every field has a token. -/
theorem flushRows_isSome {ids : ℤ → String} {rowGroupSize : ℕ} (hpositive : 0 < rowGroupSize)
    (hsmall : rowGroupSize ≤ 65536) {rows : List Row}
    (hcanonical : ∀ row ∈ rows, Canonical row.structuredMetadata)
    (hfit : ∀ row ∈ rows, TokensFit row (Logql.extractJson P.parseJson row.line)) :
    (flushRows P ids rowGroupSize rows).isSome = true := by
  refine mapM_isSome fun day hday => ?_
  obtain ⟨part, hwrite, hvalid⟩ := writePartFiles_ok hpositive hsmall hcanonical hfit (ids day)
    (List.mem_map.1 (List.mem_dedup.1 (List.mem_mergeSort.1 hday)))
  dsimp only
  rw [hwrite]
  simp [hvalid]

/-- A group that is rewritten is of one day. -/
theorem partition_of_rewriteGroup {result : List LogPart × ℕ × ℕ}
    (h : (rewriteGroup P env settings root readers keep oldDirs).1 = .ok result) :
    ∃ partition, ∀ reader ∈ readers, reader.part.info.partition = partition := by
  cases readers with
  | nil => exact ⟨0, fun reader hr => by cases hr⟩
  | cons first others =>
    refine ⟨first.part.info.partition, fun reader hr => ?_⟩
    rw [rewriteGroup] at h
    dsimp only at h
    split at h
    case h_1 => cases h
    case h_2 hnone => simpa using List.find?_eq_none.1 hnone reader hr

/-- Every part is laid out in row groups that hold what was written. -/
theorem Written.layout {rows : List Row} (h : Written P part rows) :
    ∃ groups, Layout P part groups ∧ groups.flatten.map Prod.fst = rows := by
  induction h with
  | flush hpositive hsmall hflush hpart =>
    obtain ⟨hparts, -⟩ := flushRows_spec hpositive hsmall (fun row hrow => by
      obtain ⟨e, -, rfl⟩ := List.mem_map.1 hrow
      exact canonical_canonicalize _) hflush
    exact hparts _ hpart
  | @merge env settings root inputs keep oldDirs parts dropped kept part _ hsound hpositive hsmall
      hrewrite hpart ih =>
    obtain ⟨groups, hgroups⟩ := exists_forall₂ ih
    obtain ⟨partition, hpartition⟩ := partition_of_rewriteGroup hrewrite
    have hmerge := mergeInputs_of_layouts hgroups hsound hpartition
    have hne : inputs.map Prod.fst ≠ [] := by
      intro hnil
      rw [hnil] at hrewrite
      obtain ⟨rfl, -⟩ : [] = parts ∧ 0 = dropped ∧ 0 = kept := by
        simpa [rewriteGroup] using hrewrite
      cases hpart
    obtain ⟨-, -, ⟨-, rfl, -⟩ | ⟨-, out, groups', rfl, -, hlayout, hflat⟩⟩ :=
      hmerge.rewriteGroup_ok hne hpositive hsmall (Prod.ext hrewrite rfl)
    · cases hpart
    · obtain rfl := List.mem_singleton.1 hpart
      exact ⟨groups', hlayout, by rw [hflat, keptRows, heldRows_eq_flatMap hgroups]⟩

/-! ### Conservation -/

/-- All rows of a part, as a merge reads them. -/
def readAllRows (P : Platform) (evict : ℕ → GroupCache.Eviction) (reader : PartReader) :
    Except String (List Row) :=
  readRowsInRowGroups P evict reader (0, reader.part.info.rowGroupCount)

theorem Layout.readAllRows (h : Layout P part groups) {cache : GroupCache}
    (hcache : cache.Sound part) (evict : ℕ → GroupCache.Eviction) :
    Part.readAllRows P evict ⟨part, cache⟩ = .ok (groups.flatten.map Prod.fst) := by
  rw [Part.readAllRows, readRowsInRowGroups_spec h hcache, ← flatMap_rowsOf]
  congr 2
  refine List.filter_eq_self.2 fun g hg => ?_
  simpa [h.rowGroupCount] using List.mem_range.1 hg

/-- A rewrite of parts of one day that succeeds leaves the rows of its inputs that are to be kept,
each once and in order, and counts the others as dropped; where none is to be kept it leaves
nothing.  Without faults of the file system, and with a fresh id, it succeeds. -/
theorem rewriteGroup_conserves {P : Platform} {env : Surroundings} {settings : MergeSettings}
    {root : PartsRoot} {inputs : List (SharedReader × List Row)} {partition : ℤ}
    (keep : Row → Bool) (oldDirs : List String) (hne : inputs ≠ [])
    (hwritten : ∀ input ∈ inputs, Written P input.1.part input.2)
    (hsound : ∀ input ∈ inputs, ∀ g, (input.1.cacheAt g).Sound input.1.part)
    (hpartition : ∀ input ∈ inputs, input.1.part.info.partition = partition)
    (hpositive : 0 < settings.rowGroupSize) (hsmall : settings.rowGroupSize ≤ 65536) :
    (∀ parts dropped kept root',
      rewriteGroup P env settings root (inputs.map Prod.fst) keep oldDirs
          = (.ok (parts, dropped, kept), root') →
        ∃ rows : List Row, rows.SortedLT ∧
          (∀ row, row ∈ rows ↔ keep row = true ∧ ∃ input ∈ inputs, row ∈ input.2) ∧
          kept = rows.length ∧
          dropped + kept = (inputs.flatMap Prod.snd).dedup.length ∧
          (rows = [] ∧ parts = [] ∧ root' = root ∨
            rows ≠ [] ∧ ∃ part, parts = [part] ∧ root' = root ++ [⟨part, some oldDirs⟩] ∧
              ∀ evict cache, cache.Sound part →
                readAllRows P evict ⟨part, cache⟩ = .ok rows)) ∧
    ((∀ step, env.faults step = none) →
      (∀ ts, root.taken partition (env.genPartId ts) = false) →
        ∃ result root', rewriteGroup P env settings root (inputs.map Prod.fst) keep oldDirs
          = (.ok result, root')) := by
  obtain ⟨groups, hgroups⟩ := exists_forall₂ fun input hi => (hwritten input hi).layout
  have hmerge := mergeInputs_of_layouts hgroups hsound (fun reader hr => by
    obtain ⟨input, hi, rfl⟩ := List.mem_map.1 hr
    exact hpartition input hi)
  have hheld := heldRows_eq_flatMap hgroups
  have hne' : inputs.map Prod.fst ≠ [] := by simpa using hne
  refine ⟨fun parts dropped kept root' hok => ?_, hmerge.rewriteGroup_isOk hne' hpositive hsmall⟩
  obtain ⟨hkept, hdropped, hparts⟩ := hmerge.rewriteGroup_ok hne' hpositive hsmall hok
  refine ⟨keptRows keep groups, sortedLT_keptRows keep groups, fun row => ?_, hkept, ?_, ?_⟩
  · rw [keptRows, List.mem_filter, mem_sortRows, hheld, List.mem_flatMap, and_comm]
  · have hsplit := List.length_eq_length_filter_add (l := sortRows (heldRows groups)) keep
    have hdistinct : (sortRows (heldRows groups)).length = (heldRows groups).dedup.length := by
      refine List.Perm.length_eq ((List.perm_ext_iff_of_nodup (sortedLT_sortRows _).nodup
        (List.nodup_dedup _)).2 fun row => ?_)
      rw [mem_sortRows, List.mem_dedup]
    rw [← hheld, ← hdistinct, hsplit, hkept, hdropped, keptRows, Nat.add_comm]
  · rcases hparts with hnone | ⟨hsome, part, groups', rfl, hroot, hlayout, hflat⟩
    · exact .inl hnone
    · refine .inr ⟨hsome, part, rfl, hroot, fun evict cache hcache => ?_⟩
      rw [hlayout.readAllRows hcache, hflat]

/-! ### A platform -/

/-- A platform for ASCII lines without fields. -/
def plainPlatform : Platform where
  text :=
    { write := fun pairs => String.ofList (List.replicate (Encodable.encode (pairCodes pairs)) '|')
      read := fun text => (Encodable.decode text.toList.length).map pairsOfCodes
      read_write := fun pairs => by simp [pairsOfCodes_pairCodes] }
  parseJson _ := none
  parseRegex _ := none
  charLower c := [c.toLower]
  textLower := List.map Char.toLower
  exactSizing _ := (1024, 16)
  lineSizing _ := (1024, 16)
  exactSizing_pos _ := by decide
  lineSizing_pos _ := by decide
  pageIndex _ := none
  pageIndex_first _ _ h := by cases h
  pageIndex_bounds _ _ h := by cases h

/-- A row without fields. -/
def plainEntry : String × LogEntry := ("tenant", ⟨.one, "up", []⟩)

def plainRow : Row := Row.fromEntry plainEntry.1 plainEntry.2.canonicalized

/-- A flush of one row whose tokens fit gives a part with it. -/
theorem exists_partOf {P : Platform} (entry : String × LogEntry)
    (htokens : TokensFit (Row.fromEntry entry.1 entry.2.canonicalized)
      (Logql.extractJson P.parseJson entry.2.line)) :
    ∃ part, Written P part [Row.fromEntry entry.1 entry.2.canonicalized] ∧
      part.info.partition = partitionOf entry.2.timestampNs := by
  set row := Row.fromEntry entry.1 entry.2.canonicalized with hrow
  have hpositive : 0 < 2 := by decide
  have hsmall : 2 ≤ 65536 := by decide
  have hcanonical : ∀ r ∈ [row], Canonical r.structuredMetadata := by
    intro r hr
    rw [List.mem_singleton.1 hr]
    exact canonical_canonicalize _
  have hfit : ∀ r ∈ [row], TokensFit r (Logql.extractJson P.parseJson r.line) := by
    intro r hr
    rw [List.mem_singleton.1 hr]
    exact htokens
  obtain ⟨parts, hflush⟩ := Option.isSome_iff_exists.1
    (flushRows_isSome hpositive hsmall hcanonical hfit :
      (flushRows P (fun _ => "part") 2 [row]).isSome = true)
  obtain ⟨-, hdays⟩ := flushRows_spec hpositive hsmall hcanonical hflush
  obtain ⟨part, hpart, hday⟩ := hdays row List.mem_cons_self
  have hwritten := @Written.flush P (fun _ => "part") 2 [entry] parts part
    hpositive hsmall hflush hpart
  refine ⟨part, ?_, hday⟩
  rw [hday] at hwritten
  have hrows : sortRows (([entry].map fun e => Row.fromEntry e.1 e.2.canonicalized).filter
      fun r => partitionOf r.timestampNs = partitionOf row.timestampNs) = [row] := by
    rw [List.map_singleton, List.filter_cons_of_pos (by simp [hrow])]
    simp [sortRows, hrow]
  rwa [hrows] at hwritten

theorem exists_plainPart : ∃ part, Written plainPlatform part [plainRow] ∧
    part.info.partition = 0 := by
  refine exists_partOf plainEntry fun p hp => ?_
  have hnone : indexedFields (Row.fromEntry plainEntry.1 plainEntry.2.canonicalized)
      (Logql.extractJson plainPlatform.parseJson plainEntry.2.line) = [] := by decide +kernel
  rw [hnone] at hp
  cases hp

/-- Surroundings in which nothing fails. -/
def calm : Surroundings where
  evict _ := ⟨id, fun _ => ⟨rfl, fun _ h => h, fun _ h => h⟩⟩
  faults _ := none
  genPartId _ := "merged"

/-- Two copies of a row become one. -/
theorem rewriteGroup_conserves_copies : ∃ part out : LogPart,
    Written plainPlatform part [plainRow] ∧
    rewriteGroup plainPlatform calm ⟨2, 2 ^ 30⟩ []
        [⟨part, fun _ => ⟨true, [], []⟩⟩, ⟨part, fun _ => ⟨true, [], []⟩⟩] (fun _ => true) ["a", "b"]
      = (.ok ([out], 0, 1), [⟨out, some ["a", "b"]⟩]) ∧
    readAllRows plainPlatform calm.evict ⟨out, ⟨true, [], []⟩⟩ = .ok [plainRow] := by
  obtain ⟨part, hwritten, hday⟩ := exists_plainPart
  set input : SharedReader × List Row := (⟨part, fun _ => ⟨true, [], []⟩⟩, [plainRow]) with hinput
  have hall : ∀ i ∈ [input, input], i = input := by simp
  obtain ⟨hok, hrun⟩ := @rewriteGroup_conserves plainPlatform calm ⟨2, 2 ^ 30⟩ []
    [input, input] 0 (fun _ => true) ["a", "b"] (by simp) (fun i hi => hall i hi ▸ hwritten)
    (fun i hi g => hall i hi ▸ GroupCache.sound_empty true) (fun i hi => hall i hi ▸ hday)
    (by decide) (by decide)
  obtain ⟨⟨parts, dropped, kept⟩, root', hresult⟩ := hrun (fun _ => rfl) (fun _ => rfl)
  obtain ⟨rows, hsorted, hmem, hkept, hcount, hparts⟩ := hok parts dropped kept root' hresult
  have hrows : rows = [plainRow] := by
    have hsame : ∀ row, row ∈ rows ↔ row ∈ [plainRow] := fun row => by
      rw [hmem]
      simp [hinput]
    rw [eq_sortRows hsorted hsame]
    simp [sortRows]
  have hdistinct : ([input, input].flatMap Prod.snd).dedup.length = 1 := by simp [hinput]
  obtain ⟨hnil, -⟩ | ⟨-, out, rfl, rfl, hread⟩ := hparts
  · rw [hrows] at hnil
    cases hnil
  · rw [hrows] at hkept hread
    rw [hdistinct, hkept] at hcount
    refine ⟨part, out, hwritten, ?_, hread _ _ (GroupCache.sound_empty true)⟩
    have hdropped : dropped = 0 := by simpa using hcount
    rw [hdropped, hkept] at hresult
    exact hresult

end Part

end Obsy
