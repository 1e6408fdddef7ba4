import Obsy.Part.Rewrite

/-!
# Flushing a memtable in chunks

A flush takes the rows of a memtable in the order of a part, cuts them into chunks and flushes each:
a chunk becomes a part for each of its days.  A chunk that fails is to leave nothing of the flush.

* `flushRowsInternal`, `flushSnapshotChunked`: the flush of a chunk, and of a memtable.
* `flushSnapshotChunked_eq`: it is a flush of one part after the other, and where it fails a rollback
  of them all.
* `flushSnapshotChunked_honest_iff`: exactly when the parts hold the rows of the memtable, and when a
  flush that fails leaves nothing.
* `flushSnapshotChunked_strands`: a flush that fails and leaves a part.
-/

namespace Obsy

namespace Part

/-! ### The memtable -/

/-- The entries of every tenant, as `MemTable::insert` keeps them. -/
structure MemTableSnapshot where
  tenants : List (String × List LogEntry)
  nodup : (tenants.map Prod.fst).Nodup
  canonical : ∀ tenant ∈ tenants, ∀ entry ∈ tenant.2, Canonical entry.structuredMetadata

/-- `rows_from_snapshot`. -/
def rowsFromSnapshot (snapshot : MemTableSnapshot) : List Row :=
  sortRows (snapshot.tenants.flatMap fun tenant => tenant.2.map (Row.fromEntry tenant.1))

/-- The row group sizes that `Config::validate` admits. -/
structure RowGroupSize where
  rows : ℕ
  positive : 0 < rows
  small : rows ≤ 65536

/-! ### The files -/

/-- The directory of a part: its day and its id. -/
abbrev PartDirName := ℤ × String

def PartDir.name (dir : PartDir) : PartDirName := (dir.part.info.partition, dir.part.info.id)

/-- What the environment of a flush decides, by the number of parts that were written before.  Where
the root of the staging directories cannot be made, the staging of the first part fails. -/
structure FlushSurroundings where
  /-- `gen_part_id`, of the first timestamp. -/
  genPartId : ℕ → Nanos → String
  faults : ℕ → IoStep → Option String
  /-- The directories that cannot be removed. -/
  stuck : PartDirName → Bool

variable (P : Platform) (env : FlushSurroundings) (size : RowGroupSize)

/-- `rollback_committed`: what cannot be removed stays, with a warning. -/
def rollbackCommitted (committed : List PartDirName) (root : PartsRoot) : PartsRoot :=
  committed.reverse.foldl (fun root name =>
    if env.stuck name then root else root.filter fun dir => dir.name != name) root

/-- A flush between two parts. -/
structure Flushing where
  root : PartsRoot
  committed : List PartDirName
  parts : List LogPart

/-- Writes the part of a day: the error that ends the flush, if there is one, and what is there then.
The directory of a part is noted for the rollback behind the syncs. -/
def flushPart (number : ℕ) (s : Flushing) (partition : ℤ) (rows : List Row) :
    Option String × Flushing :=
  let kept := sortRows rows
  let id := env.genPartId number ((kept.map Row.timestampNs).min?.getD Nanos.zero)
  match (env.faults number .staging).or (env.faults number .finish),
    writePartFiles P id partition kept size.rows with
  | some e, _ => (some e, s)
  | none, none => (some tokenTooLarge, s)
  | none, some part =>
    match env.faults number .partition with
    | some e => (some e, s)
    | none =>
      if s.root.taken partition id then (some ("part dir already exists: " ++ id), s)
      else
        match env.faults number .rename with
        | some e => (some e, s)
        | none =>
          let renamed := { s with root := s.root ++ [⟨part, none⟩] }
          match env.faults number .sync with
          | some e => (some e, renamed)
          | none =>
            let synced := { renamed with committed := s.committed ++ [(partition, id)] }
            match env.faults number .load, validateMetaFile id partition part.info with
            | some e, _ => (some e, synced)
            | none, false => (some "invalid part metadata", synced)
            | none, true => (none, { synced with parts := s.parts ++ [part] })

/-- The rows of every day, the days in order. -/
def byPartition (rows : List Row) : List (ℤ × List Row) :=
  ((rows.map fun row => partitionOf row.timestampNs).dedup.mergeSort (· ≤ ·)).map fun partition =>
    (partition, rows.filter fun row => partitionOf row.timestampNs = partition)

/-- The loop of `flush_rows_internal`. -/
def flushDays : List (ℤ × List Row) → ℕ → Flushing → Except String (List LogPart) × PartsRoot
  | [], _, s => (.ok s.parts, s.root)
  | (partition, rows) :: days, number, s =>
    match flushPart P env size number s partition rows with
    | (some e, s) => (.error e, rollbackCommitted env s.committed s.root)
    | (none, s) => flushDays days (number + 1) s

/-- `flush_rows_internal`, for a flush. -/
def flushRowsInternal (number : ℕ) (root : PartsRoot) (rows : List Row) :
    Except String (List LogPart) × PartsRoot :=
  if rows.isEmpty then (.ok [], root)
  else flushDays P env size (byPartition rows) number ⟨root, [], []⟩

/-! ### The chunks -/

/-- The fields of an entry by which a memtable is flushed. -/
def LogEntry.sortKey (entry : LogEntry) : Nanos ×ₗ String ×ₗ List (String ×ₗ String) :=
  toLex (entry.timestampNs, toLex (entry.line, entry.structuredMetadata.map toLex))

/-- The entries of a tenant in order, by an index of `u32`. -/
def orderedEntries (entries : List LogEntry) : List LogEntry :=
  (entries.take (entries.length % 2 ^ 32)).mergeSort fun a b => a.sortKey ≤ b.sortKey

/-- Leaves out an entry that is equal to the one before it. -/
def skipRepeated : Option LogEntry → List LogEntry → List LogEntry
  | _, [] => []
  | previous, entry :: entries =>
    if previous = some entry then skipRepeated previous entries
    else entry :: skipRepeated (some entry) entries

/-- The rows of a memtable in the order in which they are flushed. -/
def emittedRows (snapshot : MemTableSnapshot) : List Row :=
  ((snapshot.tenants.filter fun tenant => !tenant.2.isEmpty).mergeSort
    fun a b => a.1 ≤ b.1).flatMap fun tenant =>
      (skipRepeated none (orderedEntries tenant.2)).map (Row.fromEntry tenant.1)

/-- A flush between two rows. -/
structure Chunking where
  chunk : List Row
  /-- The memory of the chunk, a `u64` that saturates. -/
  used : ℕ
  parts : List LogPart
  root : PartsRoot

/-- Flushes a chunk; where it fails the parts of those before are rolled back. -/
def cut (chunk : List Row) (parts : List LogPart) (root : PartsRoot) :
    Except (String × PartsRoot) (List LogPart × PartsRoot) :=
  match flushRowsInternal P env size parts.length root chunk with
  | (.ok written, root) => .ok (parts ++ written, root)
  | (.error e, root) => .error (e, rollbackCommitted env
      (parts.map fun part => (part.info.partition, part.info.id)) root)

/-- Adds a row to the chunk and cuts it when it is large enough. -/
def pushRow (chunkBytes : ℕ) (s : Chunking) (row : Row) : Except (String × PartsRoot) Chunking :=
  let used := min (s.used + row.materializedBytes) (2 ^ 64 - 1)
  let chunk := s.chunk ++ [row]
  if chunkBytes ≤ used then
    (cut P env size chunk s.parts s.root).map fun cut => ⟨[], 0, cut.1, cut.2⟩
  else .ok ⟨chunk, used, s.parts, s.root⟩

/-- `flush_snapshot_chunked`: the parts or an error, and what is there then. -/
def flushSnapshotChunked (chunkBytes : ℕ) (snapshot : MemTableSnapshot) (root : PartsRoot) :
    Except String (List LogPart) × PartsRoot :=
  let flushed := do
    let s ← (emittedRows snapshot).foldlM (pushRow P env size chunkBytes) ⟨[], 0, [], root⟩
    if s.chunk.isEmpty then .ok (s.parts, s.root) else cut P env size s.chunk s.parts s.root
  match flushed with
  | .ok (parts, root) => (.ok parts, root)
  | .error (e, root) => (.error e, root)

/-! ### What is flushed -/

theorem LogEntry.sortKey_injective : Function.Injective LogEntry.sortKey := by
  intro a b h
  obtain ⟨ts, line, pairs⟩ := a
  obtain ⟨ts', line', pairs'⟩ := b
  simp only [LogEntry.sortKey, EmbeddingLike.apply_eq_iff_eq, Prod.mk.injEq] at h
  obtain ⟨rfl, rfl, h⟩ := h
  have : pairs = pairs' := List.map_injective_iff.2 toLex.injective h
  rw [this]

/-- Rows of one tenant are in the order of their entries. -/
theorem Row.fromEntry_lt {tenant : String} {a b : LogEntry} (h : a.sortKey < b.sortKey) :
    Row.fromEntry tenant a < Row.fromEntry tenant b := by
  rw [Row.lt_iff]
  exact Prod.Lex.toLex_lt_toLex.2 (.inr ⟨rfl, h⟩)

theorem Row.lt_of_tenant {a b : Row} (h : a.tenant < b.tenant) : a < b := by
  rw [Row.lt_iff]
  exact Prod.Lex.toLex_lt_toLex.2 (.inl h)

/-- Of entries in order every one is kept once. -/
theorem skipRepeated_spec {entries : List LogEntry} {previous : Option LogEntry}
    (hsorted : entries.Pairwise fun a b => a.sortKey ≤ b.sortKey)
    (hprevious : ∀ p ∈ previous, ∀ e ∈ entries, p.sortKey ≤ e.sortKey) :
    (skipRepeated previous entries).Pairwise (fun a b => a.sortKey < b.sortKey) ∧
      (∀ p ∈ previous, ∀ e ∈ skipRepeated previous entries, p.sortKey < e.sortKey) ∧
      ∀ e, e ∈ skipRepeated previous entries ∨ e ∈ previous ↔ e ∈ entries ∨ e ∈ previous := by
  induction entries generalizing previous with
  | nil => exact ⟨.nil, fun _ _ _ he => absurd he List.not_mem_nil, fun _ => Iff.rfl⟩
  | cons entry entries ih =>
    obtain ⟨hfirst, hrest⟩ := List.pairwise_cons.1 hsorted
    rw [skipRepeated]
    split
    case isTrue hsame =>
      obtain ⟨hlt, hbehind, hmem⟩ := ih hrest fun p hp e he =>
        hprevious p hp e (List.mem_cons_of_mem _ he)
      refine ⟨hlt, hbehind, fun e => (hmem e).trans ?_⟩
      rw [List.mem_cons, hsame, Option.mem_some_iff]
      constructor
      · rintro (he | rfl)
        · exact .inl (.inr he)
        · exact .inr rfl
      · rintro ((rfl | he) | rfl)
        · exact .inr rfl
        · exact .inl he
        · exact .inr rfl
    case isFalse hnew =>
      obtain ⟨hlt, hbehind, hmem⟩ := @ih (some entry) hrest fun p hp e he => by
        rw [← Option.mem_some_iff.1 hp]
        exact hfirst e he
      have hbelow := hbehind entry rfl
      refine ⟨List.pairwise_cons.2 ⟨hbelow, hlt⟩, fun p hp e he => ?_, fun e => ?_⟩
      · have hentry : p.sortKey < entry.sortKey := by
          refine lt_of_le_of_ne (hprevious p hp entry List.mem_cons_self) fun heq => hnew ?_
          rw [Option.mem_def.1 hp, LogEntry.sortKey_injective heq]
        rcases List.mem_cons.1 he with rfl | he
        · exact hentry
        · exact hentry.trans (hbelow e he)
      · have hone := hmem e
        rw [Option.mem_some_iff] at hone
        rw [List.mem_cons, List.mem_cons, or_comm (a := e = entry), or_comm (a := e = entry),
          eq_comm (a := e), hone]

theorem orderedEntries_sorted (entries : List LogEntry) :
    (orderedEntries entries).Pairwise fun a b => a.sortKey ≤ b.sortKey := by
  have : Std.Total fun a b : LogEntry => a.sortKey ≤ b.sortKey := ⟨fun a b => le_total _ _⟩
  have : IsTrans LogEntry fun a b => a.sortKey ≤ b.sortKey := ⟨fun _ _ _ hab hbc => hab.trans hbc⟩
  exact List.pairwise_mergeSort' (fun a b : LogEntry => a.sortKey ≤ b.sortKey) _

theorem mem_skipRepeated {entries : List LogEntry} {entry : LogEntry} :
    entry ∈ skipRepeated none (orderedEntries entries) ↔
      entry ∈ entries.take (entries.length % 2 ^ 32) := by
  have hmem := (@skipRepeated_spec (orderedEntries entries) none (orderedEntries_sorted entries)
    fun p hp => by cases hp).2.2 entry
  simp only [Option.mem_def, reduceCtorEq, or_false] at hmem
  rw [hmem, orderedEntries, List.mem_mergeSort]

/-- The rows come in the order of a part, each of them once. -/
theorem sortedLT_emittedRows (snapshot : MemTableSnapshot) : (emittedRows snapshot).SortedLT := by
  have : Std.Total fun a b : String × List LogEntry => a.1 ≤ b.1 := ⟨fun a b => le_total _ _⟩
  have : IsTrans (String × List LogEntry) fun a b => a.1 ≤ b.1 :=
    ⟨fun _ _ _ hab hbc => hab.trans hbc⟩
  set tenants := (snapshot.tenants.filter fun tenant => !tenant.2.isEmpty).mergeSort
    fun a b => a.1 ≤ b.1 with htenants
  have hle : tenants.Pairwise fun a b => a.1 ≤ b.1 :=
    List.pairwise_mergeSort' (fun a b : String × List LogEntry => a.1 ≤ b.1) _
  have hne : tenants.Pairwise fun a b => a.1 ≠ b.1 := by
    have hnodup : (tenants.map Prod.fst).Nodup := by
      rw [((List.mergeSort_perm _ _).map Prod.fst).nodup_iff]
      exact snapshot.nodup.sublist (List.filter_sublist.map _)
    exact List.pairwise_map.1 hnodup
  refine List.sortedLT_iff_pairwise.2 (List.pairwise_flatMap.2 ⟨fun tenant _ => ?_, ?_⟩)
  · have hentries := (@skipRepeated_spec (orderedEntries tenant.2) none
      (orderedEntries_sorted tenant.2) fun p hp => by cases hp).1
    exact List.pairwise_map.2 (hentries.imp Row.fromEntry_lt)
  · refine (hle.and hne).imp fun {a b} hab x hx y hy => Row.lt_of_tenant ?_
    obtain ⟨e, -, rfl⟩ := List.mem_map.1 hx
    obtain ⟨e', -, rfl⟩ := List.mem_map.1 hy
    exact lt_of_le_of_ne hab.1 hab.2

theorem mem_emittedRows {snapshot : MemTableSnapshot} {row : Row} :
    row ∈ emittedRows snapshot ↔ ∃ tenant ∈ snapshot.tenants,
      ∃ entry ∈ tenant.2.take (tenant.2.length % 2 ^ 32), Row.fromEntry tenant.1 entry = row := by
  rw [emittedRows, List.mem_flatMap]
  constructor
  · rintro ⟨tenant, htenant, hrow⟩
    obtain ⟨entry, hentry, rfl⟩ := List.mem_map.1 hrow
    exact ⟨tenant, List.mem_of_mem_filter (List.mem_mergeSort.1 htenant), entry,
      mem_skipRepeated.1 hentry, rfl⟩
  · rintro ⟨tenant, htenant, entry, hentry, rfl⟩
    refine ⟨tenant, List.mem_mergeSort.2 (List.mem_filter.2 ⟨htenant, ?_⟩),
      List.mem_map_of_mem (mem_skipRepeated.2 hentry)⟩
    have hne := List.ne_nil_of_mem (List.mem_of_mem_take hentry)
    simpa using hne

theorem mem_rowsFromSnapshot {snapshot : MemTableSnapshot} {row : Row} :
    row ∈ rowsFromSnapshot snapshot ↔ ∃ tenant ∈ snapshot.tenants,
      ∃ entry ∈ tenant.2, Row.fromEntry tenant.1 entry = row := by
  rw [rowsFromSnapshot, mem_sortRows, List.mem_flatMap]
  simp only [List.mem_map]

/-- Every entry of a tenant is among those that an index of `u32` reaches, or a copy of one. -/
def MemTableSnapshot.Indexed (snapshot : MemTableSnapshot) : Prop :=
  ∀ tenant ∈ snapshot.tenants, ∀ entry ∈ tenant.2,
    entry ∈ tenant.2.take (tenant.2.length % 2 ^ 32)

/-- No row is lost if and only if no entry is. -/
theorem mem_emittedRows_iff {snapshot : MemTableSnapshot} :
    (∀ row, row ∈ emittedRows snapshot ↔ row ∈ rowsFromSnapshot snapshot) ↔ snapshot.Indexed := by
  constructor
  · intro h tenant htenant entry hentry
    obtain ⟨tenant', htenant', entry', hentry', hrow⟩ := mem_emittedRows.1
      ((h (Row.fromEntry tenant.1 entry)).2
        (mem_rowsFromSnapshot.2 ⟨tenant, htenant, entry, hentry, rfl⟩))
    rw [Row.fromEntry, Row.fromEntry, Row.mk.injEq] at hrow
    obtain ⟨hname, hts, hline, hpairs⟩ := hrow
    obtain rfl : tenant' = tenant :=
      List.inj_on_of_nodup_map snapshot.nodup htenant' htenant hname
    have hsame : entry' = entry := by
      obtain ⟨ts, line, pairs⟩ := entry
      rw [LogEntry.mk.injEq]
      exact ⟨hts, hline, hpairs⟩
    rwa [← hsame]
  · intro h row
    rw [mem_emittedRows, mem_rowsFromSnapshot]
    constructor
    · rintro ⟨tenant, htenant, entry, hentry, hrow⟩
      exact ⟨tenant, htenant, entry, List.mem_of_mem_take hentry, hrow⟩
    · rintro ⟨tenant, htenant, entry, hentry, hrow⟩
      exact ⟨tenant, htenant, entry, h tenant htenant entry hentry, hrow⟩

/-! ### The chunks of a flush -/

/-- The chunks of the rows that come, with what is in the first already. -/
def chunksOf (chunkBytes : ℕ) : List Row → List Row → ℕ → List (List Row)
  | [], chunk, _ => if chunk.isEmpty then [] else [chunk]
  | row :: rows, chunk, used =>
    let used := min (used + row.materializedBytes) (2 ^ 64 - 1)
    if chunkBytes ≤ used then (chunk ++ [row]) :: chunksOf chunkBytes rows [] 0
    else chunksOf chunkBytes rows (chunk ++ [row]) used

theorem flatten_chunksOf (chunkBytes : ℕ) (rows chunk : List Row) (used : ℕ) :
    (chunksOf chunkBytes rows chunk used).flatten = chunk ++ rows := by
  induction rows generalizing chunk used with
  | nil =>
    rw [chunksOf]
    split
    case isTrue hempty =>
      rw [List.isEmpty_iff.1 hempty]
      rfl
    case isFalse => simp
  | cons row rows ih =>
    rw [chunksOf]
    split
    · rw [List.flatten_cons, ih, List.nil_append, List.append_assoc]
      rfl
    · rw [ih, List.append_assoc]
      rfl

theorem nonempty_of_mem_chunksOf {chunkBytes : ℕ} {rows chunk : List Row} {used : ℕ}
    {found : List Row} (h : found ∈ chunksOf chunkBytes rows chunk used) : found ≠ [] := by
  induction rows generalizing chunk used with
  | nil =>
    rw [chunksOf] at h
    split at h
    case isTrue => cases h
    case isFalse hne =>
      rw [List.mem_singleton.1 h]
      simpa using hne
  | cons row rows ih =>
    rw [chunksOf] at h
    split at h
    · rcases List.mem_cons.1 h with rfl | h
      · exact List.append_ne_nil_of_right_ne_nil _ (List.cons_ne_nil _ _)
      · exact ih h
    · exact ih h

variable {P env size}

/-- A flush cuts its chunks one after the other. -/
theorem foldlM_pushRow (chunkBytes : ℕ) (rows : List Row) (s : Chunking) :
    (do
      let s ← rows.foldlM (pushRow P env size chunkBytes) s
      if s.chunk.isEmpty then .ok (s.parts, s.root) else cut P env size s.chunk s.parts s.root) =
    (chunksOf chunkBytes rows s.chunk s.used).foldlM
      (fun s chunk => cut P env size chunk s.1 s.2) (s.parts, s.root) := by
  induction rows generalizing s with
  | nil =>
    rw [List.foldlM_nil, chunksOf]
    change (if s.chunk.isEmpty then Except.ok (s.parts, s.root) else _) = _
    split
    · rfl
    · rw [List.foldlM_cons]
      cases cut P env size s.chunk s.parts s.root <;> rfl
  | cons row rows ih =>
    rw [List.foldlM_cons, pushRow, chunksOf]
    split
    · rw [List.foldlM_cons]
      cases cut P env size (s.chunk ++ [row]) s.parts s.root with
      | error e => rfl
      | ok result => exact ih ⟨[], 0, result.1, result.2⟩
    · exact ih ⟨s.chunk ++ [row], _, s.parts, s.root⟩

/-! ### One part after the other -/

def partName (part : LogPart) : PartDirName := (part.info.partition, part.info.id)

variable (P env size) in
/-- Flushes the parts of some days one after the other; where one fails all are rolled back. -/
def flushAll : List (ℤ × List Row) → Flushing → Except String (List LogPart) × PartsRoot
  | [], s => (.ok s.parts, s.root)
  | day :: days, s =>
    match flushPart P env size s.parts.length s day.1 day.2 with
    | (some e, s) => (.error e, rollbackCommitted env s.committed s.root)
    | (none, s) => flushAll days s

variable (P env size) in
/-- The same where none fails. -/
def flushThrough : List (ℤ × List Row) → Flushing → Option Flushing
  | [], s => some s
  | day :: days, s =>
    match flushPart P env size s.parts.length s day.1 day.2 with
    | (some _, _) => none
    | (none, s) => flushThrough days s

variable (P size) in
/-- The files of a part can be written, and its directory is free. -/
structure Writes (s : Flushing) (partition : ℤ) (rows : List Row) (part : LogPart) :
    Prop where
  written : writePartFiles P part.info.id partition (sortRows rows) size.rows = some part
  day : part.info.partition = partition
  fresh : s.root.taken partition part.info.id = false

/-- What the flush of a part does: nothing; or the part is there, and its sync fails, or it is not
loaded, or all is well. -/
theorem flushPart_cases (number : ℕ) (s : Flushing) (partition : ℤ) (rows : List Row) :
    (∃ e, flushPart P env size number s partition rows = (some e, s)) ∨
    ∃ part, Writes P size s partition rows part ∧
      ((∃ e, env.faults number .sync = some e ∧ flushPart P env size number s partition rows
          = (some e, ⟨s.root ++ [⟨part, none⟩], s.committed, s.parts⟩)) ∨
      env.faults number .sync = none ∧
        ((∃ e, flushPart P env size number s partition rows
            = (some e, ⟨s.root ++ [⟨part, none⟩], s.committed ++ [partName part], s.parts⟩)) ∨
        flushPart P env size number s partition rows
          = (none, ⟨s.root ++ [⟨part, none⟩], s.committed ++ [partName part],
              s.parts ++ [part]⟩))) := by
  rw [flushPart]
  dsimp only
  cases (env.faults number .staging).or (env.faults number .finish) with
  | some e => exact .inl ⟨e, rfl⟩
  | none =>
  set id := env.genPartId number (((sortRows rows).map Row.timestampNs).min?.getD Nanos.zero)
  cases hwrite : writePartFiles P id partition (sortRows rows) size.rows with
  | none => exact .inl ⟨_, rfl⟩
  | some part =>
  cases env.faults number .partition with
  | some e => exact .inl ⟨e, rfl⟩
  | none =>
  dsimp only
  cases htaken : s.root.taken partition id with
  | true => exact .inl ⟨_, rfl⟩
  | false =>
  cases env.faults number .rename with
  | some e => exact .inl ⟨e, rfl⟩
  | none =>
  have hname : part.info.partition = partition ∧ part.info.id = id := by
    obtain ⟨index, -, rfl⟩ := Option.map_eq_some_iff.1 hwrite
    exact ⟨rfl, rfl⟩
  refine .inr ⟨part, ⟨hname.2 ▸ hwrite, hname.1, hname.2 ▸ htaken⟩, ?_⟩
  have hpair : (partition, id) = partName part := Prod.ext hname.1.symm hname.2.symm
  rw [hpair]
  cases env.faults number .sync with
  | some e => exact .inl ⟨e, rfl, rfl⟩
  | none =>
    refine .inr ⟨rfl, ?_⟩
    cases env.faults number .load with
    | some e => exact .inl ⟨e, rfl⟩
    | none =>
      cases validateMetaFile id partition part.info with
      | false => exact .inl ⟨_, rfl⟩
      | true => exact .inr rfl

/-- What was committed before does not matter. -/
theorem flushPart_frame (number : ℕ) (root : PartsRoot) (before committed : List PartDirName)
    (written parts : List LogPart) (partition : ℤ) (rows : List Row) :
    flushPart P env size number ⟨root, before ++ committed, written ++ parts⟩ partition rows =
      ((flushPart P env size number ⟨root, committed, parts⟩ partition rows).1,
        ⟨(flushPart P env size number ⟨root, committed, parts⟩ partition rows).2.root,
          before ++ (flushPart P env size number ⟨root, committed, parts⟩ partition rows).2.committed,
          written ++ (flushPart P env size number ⟨root, committed, parts⟩ partition rows).2.parts⟩) := by
  rw [flushPart, flushPart]
  dsimp only
  cases (env.faults number .staging).or (env.faults number .finish) with
  | some e => rfl
  | none =>
  set id := env.genPartId number (((sortRows rows).map Row.timestampNs).min?.getD Nanos.zero)
  cases writePartFiles P id partition (sortRows rows) size.rows with
  | none => rfl
  | some part =>
  cases env.faults number .partition with
  | some e => rfl
  | none =>
  dsimp only
  cases root.taken partition id with
  | true => rfl
  | false =>
  cases env.faults number .rename with
  | some e => rfl
  | none =>
  cases env.faults number .sync with
  | some e => rfl
  | none =>
  cases env.faults number .load with
  | some e => simp
  | none => cases validateMetaFile id partition part.info <;> simp

/-! ### The rollback -/

/-- What is rolled back is gone, unless it cannot be removed. -/
theorem rollbackCommitted_eq (committed : List PartDirName) (root : PartsRoot) :
    rollbackCommitted env committed root =
      root.filter fun dir => decide (dir.name ∉ committed) || env.stuck dir.name := by
  rw [rollbackCommitted, List.foldl_reverse]
  induction committed with
  | nil => simp
  | cons name committed ih =>
    rw [List.foldr_cons, ih]
    split
    case isTrue hstuck =>
      refine List.filter_congr fun dir _ => ?_
      by_cases hname : dir.name = name
      · simp [hname, hstuck]
      · simp [hname]
    case isFalse hfree =>
      rw [List.filter_filter]
      refine List.filter_congr fun dir _ => ?_
      by_cases hname : dir.name = name
      · simp [hname, hfree]
      · simp [hname]

theorem rollbackCommitted_append (earlier later : List PartDirName) (root : PartsRoot) :
    rollbackCommitted env (earlier ++ later) root =
      rollbackCommitted env earlier (rollbackCommitted env later root) := by
  rw [rollbackCommitted, List.reverse_append, List.foldl_append]
  rfl

/-! ### The flush of a memtable -/

/-- The parts of a chunk come behind those before it; where one fails both are rolled back. -/
theorem flushAll_days (days rest : List (ℤ × List Row)) (root : PartsRoot)
    (before parts : List LogPart) :
    flushAll P env size (days ++ rest)
        ⟨root, (before ++ parts).map partName, before ++ parts⟩ =
      match flushDays P env size days (before.length + parts.length)
        ⟨root, parts.map partName, parts⟩ with
      | (.ok written, root) =>
        flushAll P env size rest ⟨root, (before ++ written).map partName, before ++ written⟩
      | (.error e, root) => (.error e, rollbackCommitted env (before.map partName) root) := by
  induction days generalizing root parts with
  | nil => rfl
  | cons day days ih =>
    rw [List.cons_append, flushAll, flushDays]
    dsimp only
    rw [List.map_append, List.length_append, flushPart_frame]
    rcases @flushPart_cases P env size (before.length + parts.length)
      ⟨root, parts.map partName, parts⟩ day.1 day.2 with
      ⟨e, heq⟩ | ⟨part, -, ⟨e, -, heq⟩ | ⟨-, ⟨e, heq⟩ | heq⟩⟩
    · rw [heq]
      dsimp only
      rw [rollbackCommitted_append]
    · rw [heq]
      dsimp only
      rw [rollbackCommitted_append]
    · rw [heq]
      dsimp only
      rw [rollbackCommitted_append]
    · rw [heq]
      dsimp only
      have hrest := ih (root ++ [⟨part, none⟩]) (parts ++ [part])
      rw [List.map_append, List.map_append, List.length_append, List.length_singleton,
        List.map_singleton, ← Nat.add_assoc] at hrest
      exact hrest

/-- The chunks are cut one after the other, the parts of each written one after the other. -/
theorem foldlM_cut (chunks : List (List Row)) (hchunks : ∀ chunk ∈ chunks, chunk ≠ [])
    (parts : List LogPart) (root : PartsRoot) :
    (match chunks.foldlM (fun s chunk => cut P env size chunk s.1 s.2) (parts, root) with
      | .ok (parts, root) => (.ok parts, root)
      | .error (e, root) => (.error e, root)) =
      flushAll P env size (chunks.flatMap byPartition) ⟨root, parts.map partName, parts⟩ := by
  induction chunks generalizing parts root with
  | nil => rfl
  | cons chunk chunks ih =>
    have hsplit := @flushAll_days P env size (byPartition chunk) (chunks.flatMap byPartition) root
      parts []
    rw [List.append_nil, List.length_nil, Nat.add_zero, List.map_nil] at hsplit
    rw [List.foldlM_cons, List.flatMap_cons, hsplit, cut, flushRowsInternal,
      if_neg (by simpa using hchunks chunk List.mem_cons_self)]
    rcases flushDays P env size (byPartition chunk) parts.length ⟨root, [], []⟩ with
      ⟨e | written, root'⟩
    · rfl
    · exact ih (fun other hother => hchunks other (List.mem_cons_of_mem _ hother)) _ _

/-- The days of the chunks of a memtable, with their rows. -/
def plannedParts (chunkBytes : ℕ) (snapshot : MemTableSnapshot) : List (ℤ × List Row) :=
  (chunksOf chunkBytes (emittedRows snapshot) [] 0).flatMap byPartition

/-- **The flush of a memtable** writes its parts one after the other. -/
theorem flushSnapshotChunked_eq (chunkBytes : ℕ) (snapshot : MemTableSnapshot) (root : PartsRoot) :
    flushSnapshotChunked P env size chunkBytes snapshot root =
      flushAll P env size (plannedParts chunkBytes snapshot) ⟨root, [], []⟩ := by
  have hchunks := @foldlM_cut P env size (chunksOf chunkBytes (emittedRows snapshot) [] 0)
    (fun chunk hchunk => nonempty_of_mem_chunksOf hchunk) [] root
  have hrows := @foldlM_pushRow P env size chunkBytes (emittedRows snapshot) ⟨[], 0, [], root⟩
  rw [flushSnapshotChunked]
  dsimp only at hrows ⊢
  rw [hrows]
  exact hchunks

/-! ### How a flush ends -/

/-- A flush goes through, or ends with the first part that fails. -/
theorem flushAll_cases (planned : List (ℤ × List Row)) (s : Flushing) :
    (∃ s', flushThrough P env size planned s = some s' ∧
      flushAll P env size planned s = (.ok s'.parts, s'.root)) ∨
    ∃ before day after s₁ e s₂, planned = before ++ day :: after ∧
      flushThrough P env size before s = some s₁ ∧
      flushPart P env size s₁.parts.length s₁ day.1 day.2 = (some e, s₂) ∧
      flushAll P env size planned s = (.error e, rollbackCommitted env s₂.committed s₂.root) := by
  induction planned generalizing s with
  | nil => exact .inl ⟨s, rfl, rfl⟩
  | cons day planned ih =>
    rw [flushThrough, flushAll]
    rcases hpart : flushPart P env size s.parts.length s day.1 day.2 with ⟨_ | e, s'⟩
    · dsimp only
      rcases ih s' with ⟨s'', hthrough, hall⟩ | ⟨before, day', after, s₁, e, s₂, rfl, hbefore, hfails, hall⟩
      · exact .inl ⟨s'', hthrough, hall⟩
      · refine .inr ⟨day :: before, day', after, s₁, e, s₂, rfl, ?_, hfails, hall⟩
        rw [flushThrough, hpart]
        exact hbefore
    · exact .inr ⟨[], day, planned, s, _, s', rfl, rfl, hpart, rfl⟩

theorem flushThrough_append {before after : List (ℤ × List Row)} {s s' : Flushing}
    (h : flushThrough P env size before s = some s') :
    flushThrough P env size (before ++ after) s = flushThrough P env size after s' := by
  induction before generalizing s with
  | nil => rw [List.nil_append, Option.some.inj h]
  | cons day before ih =>
    rw [flushThrough] at h
    rw [List.cons_append, flushThrough]
    rcases hpart : flushPart P env size s.parts.length s day.1 day.2 with ⟨_ | e, s₁⟩
    · rw [hpart] at h
      exact ih h
    · rw [hpart] at h
      cases h

variable (P size) in
/-- The parts written so far: behind what was there, noted, and each in a directory of its own. -/
structure Flushing.Keeps (start : PartsRoot) (done : List (ℤ × List Row)) (s : Flushing) : Prop where
  root : s.root = start ++ s.parts.map fun part => ⟨part, none⟩
  committed : s.committed = s.parts.map partName
  fresh : ∀ part ∈ s.parts, ∀ dir ∈ start, dir.name ≠ partName part
  written : List.Forall₂ (fun part day => part.info.partition = day.1 ∧
    writePartFiles P part.info.id day.1 (sortRows day.2) size.rows = some part) s.parts done

/-- A directory that is free is not there. -/
theorem Writes.ne_of_mem {s : Flushing} {partition : ℤ} {rows : List Row} {part : LogPart}
    (h : Writes P size s partition rows part) {dir : PartDir} (hdir : dir ∈ s.root) :
    dir.name ≠ partName part := by
  intro hname
  have hfree := h.fresh
  rw [PartsRoot.taken, List.any_eq_false] at hfree
  obtain ⟨hday, hid⟩ := Prod.mk.inj hname
  exact hfree dir hdir (by simp [hday, hid, h.day])

theorem Flushing.Keeps.step {start : PartsRoot} {done : List (ℤ × List Row)} {s : Flushing}
    (h : s.Keeps P size start done) {day : ℤ × List Row} {part : LogPart}
    (hwrites : Writes P size s day.1 day.2 part) :
    (Flushing.mk (s.root ++ [⟨part, none⟩]) (s.committed ++ [partName part])
      (s.parts ++ [part])).Keeps P size start (done ++ [day]) where
  root := by
    dsimp only
    rw [h.root, List.map_append, List.append_assoc]
    rfl
  committed := by
    dsimp only
    rw [h.committed, List.map_append]
    rfl
  fresh other hother dir hdir := by
    rcases List.mem_append.1 hother with hother | hother
    · exact h.fresh other hother dir hdir
    · rw [List.mem_singleton.1 hother]
      exact hwrites.ne_of_mem (h.root ▸ List.mem_append_left _ hdir)
  written := List.rel_append h.written (.cons ⟨hwrites.day, hwrites.written⟩ .nil)

theorem Flushing.Keeps.through {start : PartsRoot} {done planned : List (ℤ × List Row)}
    {s s' : Flushing} (h : s.Keeps P size start done)
    (hrun : flushThrough P env size planned s = some s') : s'.Keeps P size start (done ++ planned) := by
  induction planned generalizing s done with
  | nil =>
    rw [List.append_nil, ← Option.some.inj hrun]
    exact h
  | cons day planned ih =>
    rw [flushThrough] at hrun
    rcases @flushPart_cases P env size s.parts.length s day.1 day.2 with
      ⟨e, heq⟩ | ⟨part, hwrites, ⟨e, -, heq⟩ | ⟨-, ⟨e, heq⟩ | heq⟩⟩
    · rw [heq] at hrun
      cases hrun
    · rw [heq] at hrun
      cases hrun
    · rw [heq] at hrun
      cases hrun
    · rw [heq] at hrun
      have hrest := ih (h.step hwrites) hrun
      rwa [List.append_assoc, List.singleton_append] at hrest

theorem Flushing.keeps_start (start : PartsRoot) :
    (Flushing.mk start [] []).Keeps P size start [] where
  root := (List.append_nil _).symm
  committed := rfl
  fresh _ h := absurd h List.not_mem_nil
  written := .nil

/-! ### What the parts hold -/

variable (P) in
/-- Some parts hold some rows, each of them in a part of its day. -/
def HoldRows (parts : List LogPart) (rows : List Row) : Prop :=
  ∃ held : List (List Row), List.Forall₂ (fun part rows =>
      (∀ row ∈ rows, partitionOf row.timestampNs = part.info.partition) ∧
      ∀ evict cache, cache.Sound part → readAllRows P evict ⟨part, cache⟩ = .ok rows) parts held ∧
    held.flatten.Perm rows

/-- What is read from some parts is determined. -/
theorem HoldRows.perm {parts : List LogPart} {rows rows' : List Row} (h : HoldRows P parts rows)
    (h' : HoldRows P parts rows') : rows.Perm rows' := by
  obtain ⟨held, hparts, hperm⟩ := h
  obtain ⟨held', hparts', hperm'⟩ := h'
  have hsame : held = held' := by
    clear hperm hperm'
    induction hparts generalizing held' with
    | nil =>
      cases hparts'
      rfl
    | @cons part rows parts held hpart _ ih =>
      obtain ⟨rows', held'', hpart', hrest, rfl⟩ := List.forall₂_cons_left_iff.1 hparts'
      have hread := hpart.2 calm.evict _ (GroupCache.sound_empty true)
      rw [hpart'.2 calm.evict _ (GroupCache.sound_empty true)] at hread
      rw [Except.ok.inj hread, ih held'' hrest]
  rw [hsame] at hperm
  exact hperm.symm.trans hperm'

/-- The rows of the days of a chunk in order are those of the chunk. -/
theorem byPartition_perm {chunk : List Row} (hsorted : chunk.SortedLT) :
    ((byPartition chunk).flatMap fun day => sortRows day.2).Perm chunk := by
  have hdays : ((byPartition chunk).flatMap fun day => sortRows day.2) =
      ((chunk.map fun row => partitionOf row.timestampNs).dedup.mergeSort (· ≤ ·)).flatMap
        fun day => chunk.filter fun row => partitionOf row.timestampNs = day := by
    rw [byPartition, List.flatMap_map]
    refine List.flatMap_congr fun day _ => ?_
    refine (eq_sortRows ?_ fun row => Iff.rfl).symm
    exact List.sortedLT_iff_pairwise.2 (hsorted.pairwise.sublist List.filter_sublist)
  rw [hdays]
  refine Runs.perm_flatMap_filter (fun row : Row => partitionOf row.timestampNs) ?_ chunk
    fun row hrow => ?_
  · exact (List.mergeSort_perm _ _).nodup_iff.2 (List.nodup_dedup _)
  · exact List.mem_mergeSort.2 (List.mem_dedup.2 (List.mem_map_of_mem hrow))

/-- Parts that were written for the days of some chunks hold their rows. -/
theorem holdRows_of_written {chunks : List (List Row)} (hsorted : chunks.flatten.SortedLT)
    (hcanonical : ∀ row ∈ chunks.flatten, Canonical row.structuredMetadata) {parts : List LogPart}
    (h : List.Forall₂ (fun part day => part.info.partition = day.1 ∧
      writePartFiles P part.info.id day.1 (sortRows day.2) size.rows = some part) parts
        (chunks.flatMap byPartition)) : HoldRows P parts chunks.flatten := by
  refine ⟨(chunks.flatMap byPartition).map fun day => sortRows day.2,
    List.forall₂_map_right_iff.2 ?_, ?_⟩
  · refine List.forall₂_iff_get.2 ⟨h.length_eq, fun i hi hi' => ?_⟩
    obtain ⟨hday, hwritten⟩ := h.get hi hi'
    have hmem : (chunks.flatMap byPartition).get ⟨i, hi'⟩ ∈ chunks.flatMap byPartition :=
      List.get_mem _ _
    set day := (chunks.flatMap byPartition).get ⟨i, hi'⟩
    obtain ⟨chunk, hchunk, hof⟩ := List.mem_flatMap.1 hmem
    obtain ⟨partition, -, hdayof⟩ := List.mem_map.1 hof
    have hrows : day.2 = chunk.filter fun row => partitionOf row.timestampNs = day.1 := by
      rw [← hdayof]
    rw [hrows] at hwritten ⊢
    obtain ⟨-, groups, hlayout, hflat⟩ := layout_of_day size.positive size.small
      (fun row hrow => hcanonical row (List.mem_flatten.2 ⟨chunk, hchunk, hrow⟩)) hwritten
    refine ⟨fun row hrow => ?_, fun evict cache hcache => ?_⟩
    · rw [hday]
      exact of_decide_eq_true (List.mem_filter.1 (mem_sortRows.1 hrow)).2
    · rw [hlayout.readAllRows hcache, hflat]
  · rw [← List.flatMap_def, List.flatMap_assoc]
    refine (List.Perm.flatMap_left chunks fun chunk hchunk => byPartition_perm ?_).trans
      (.of_eq List.flatMap_id)
    exact List.sortedLT_iff_pairwise.2
      (hsorted.pairwise.sublist (List.sublist_flatten_of_mem hchunk))

/-- The parts of a flush that goes through hold the rows that it emits. -/
theorem holdRows_of_through {chunkBytes : ℕ} {snapshot : MemTableSnapshot} {root : PartsRoot}
    {s : Flushing}
    (h : flushThrough P env size (plannedParts chunkBytes snapshot) ⟨root, [], []⟩ = some s) :
    HoldRows P s.parts (emittedRows snapshot) := by
  have hkeeps := (Flushing.keeps_start root).through h
  have hflat := flatten_chunksOf chunkBytes (emittedRows snapshot) [] 0
  rw [List.nil_append] at hflat
  have hheld := @holdRows_of_written P size (chunksOf chunkBytes (emittedRows snapshot) [] 0)
    (by rw [hflat]; exact sortedLT_emittedRows snapshot)
    (fun row hrow => by
      rw [hflat] at hrow
      obtain ⟨tenant, htenant, entry, hentry, rfl⟩ := mem_emittedRows.1 hrow
      exact snapshot.canonical tenant htenant entry (List.mem_of_mem_take hentry))
    s.parts hkeeps.written
  rwa [hflat] at hheld

/-! ### Flushes that fail -/

/-- What a rollback leaves is what was there before, if and only if every other directory is noted
and can be removed. -/
theorem rollbackCommitted_eq_start {start dirs : PartsRoot} {committed : List PartDirName}
    (hfresh : ∀ dir ∈ start, dir.name ∉ committed) :
    rollbackCommitted env committed (start ++ dirs) = start ↔
      ∀ dir ∈ dirs, dir.name ∈ committed ∧ env.stuck dir.name = false := by
  have hstart : start.filter (fun dir => decide (dir.name ∉ committed) || env.stuck dir.name)
      = start := by
    refine List.filter_eq_self.2 fun dir hdir => ?_
    rw [decide_eq_true (hfresh dir hdir), Bool.true_or]
  rw [rollbackCommitted_eq, List.filter_append, hstart, List.append_right_eq_self,
    List.filter_eq_nil_iff]
  refine forall₂_congr fun dir _ => ?_
  by_cases hmem : dir.name ∈ committed <;> simp [hmem]

variable (P env size) in
/-- A part fails behind others, and a directory stays: its own, whose sync failed behind the rename,
or one that is to be rolled back and cannot be removed. -/
def Strands (chunkBytes : ℕ) (snapshot : MemTableSnapshot) (root : PartsRoot) : Prop :=
  ∃ before day after s e s', plannedParts chunkBytes snapshot = before ++ day :: after ∧
    flushThrough P env size before ⟨root, [], []⟩ = some s ∧
    flushPart P env size s.parts.length s day.1 day.2 = (some e, s') ∧
    ((env.faults s.parts.length .sync).isSome = true ∧ s'.root ≠ s.root ∨
      ∃ name ∈ s'.committed, env.stuck name = true)

/-- Where a part fails all are rolled back. -/
theorem flushAll_of_fails {before after : List (ℤ × List Row)} {day : ℤ × List Row}
    {s s₁ s₂ : Flushing} {e : String} (hbefore : flushThrough P env size before s = some s₁)
    (hfails : flushPart P env size s₁.parts.length s₁ day.1 day.2 = (some e, s₂)) :
    flushAll P env size (before ++ day :: after) s =
      (.error e, rollbackCommitted env s₂.committed s₂.root) := by
  induction before generalizing s with
  | nil =>
    obtain rfl := Option.some.inj hbefore
    rw [List.nil_append, flushAll, hfails]
  | cons first before ih =>
    rw [flushThrough] at hbefore
    rw [List.cons_append, flushAll]
    rcases hpart : flushPart P env size s.parts.length s first.1 first.2 with ⟨_ | e', s'⟩
    · rw [hpart] at hbefore
      exact ih hbefore
    · rw [hpart] at hbefore
      cases hbefore

/-- A flush that fails leaves what was there before, unless a directory of it stays. -/
theorem rollback_of_fails {start : PartsRoot} {done : List (ℤ × List Row)} {day : ℤ × List Row}
    {s s' : Flushing} {e : String} (hkeeps : s.Keeps P size start done)
    (hfails : flushPart P env size s.parts.length s day.1 day.2 = (some e, s')) :
    rollbackCommitted env s'.committed s'.root = start ↔
      ¬ ((env.faults s.parts.length .sync).isSome = true ∧ s'.root ≠ s.root ∨
        ∃ name ∈ s'.committed, env.stuck name = true) := by
  have hfresh : ∀ dir ∈ start, dir.name ∉ s.committed := by
    intro dir hdir hmem
    rw [hkeeps.committed] at hmem
    obtain ⟨part, hpart, hname⟩ := List.mem_map.1 hmem
    exact hkeeps.fresh part hpart dir hdir hname.symm
  have hnoted : ∀ dir ∈ s.parts.map (fun part => PartDir.mk part none), dir.name ∈ s.committed := by
    intro dir hdir
    obtain ⟨part, hpart, rfl⟩ := List.mem_map.1 hdir
    rw [hkeeps.committed]
    exact List.mem_map_of_mem hpart
  have hstuck : (∀ dir ∈ s.parts.map (fun part => PartDir.mk part none),
      env.stuck dir.name = false) ↔ ¬ ∃ name ∈ s.committed, env.stuck name = true := by
    rw [hkeeps.committed]
    simp [PartDir.name, partName]
  rcases @flushPart_cases P env size s.parts.length s day.1 day.2 with
    ⟨e', heq⟩ | ⟨part, hwrites, ⟨e', hsync, heq⟩ | ⟨hsync, ⟨e', heq⟩ | heq⟩⟩ <;>
    rw [hfails] at heq
  · -- nothing of the part is there
    obtain ⟨-, rfl⟩ := Prod.mk.inj heq
    rw [hkeeps.root, rollbackCommitted_eq_start hfresh, ← hkeeps.root]
    simp only [ne_eq, not_true_eq_false, and_false, false_or]
    rw [← hstuck]
    exact ⟨fun h dir hdir => (h dir hdir).2, fun h dir hdir => ⟨hnoted dir hdir, h dir hdir⟩⟩
  · -- the part is there and not noted
    obtain ⟨-, rfl⟩ := Prod.mk.inj heq
    have hunnoted : (PartDir.mk part none).name ∉ s.committed := by
      intro hmem
      rw [hkeeps.committed] at hmem
      obtain ⟨other, hother, hname⟩ := List.mem_map.1 hmem
      have hthere : PartDir.mk other none ∈ s.root := by
        rw [hkeeps.root]
        exact List.mem_append_right _ (List.mem_map_of_mem hother)
      exact hwrites.ne_of_mem hthere hname
    rw [hkeeps.root, List.append_assoc, rollbackCommitted_eq_start hfresh]
    refine ⟨fun h => absurd (h _ (List.mem_append_right _ (List.mem_singleton_self _))).1 hunnoted,
      fun h => absurd (.inl ⟨by rw [hsync]; rfl, ?_⟩) h⟩
    simp
  · -- it is noted
    obtain ⟨-, rfl⟩ := Prod.mk.inj heq
    have hfresh' : ∀ dir ∈ start, dir.name ∉ s.committed ++ [partName part] := by
      intro dir hdir hmem
      rcases List.mem_append.1 hmem with hmem | hmem
      · exact hfresh dir hdir hmem
      · refine hwrites.ne_of_mem ?_ (List.mem_singleton.1 hmem)
        rw [hkeeps.root]
        exact List.mem_append_left _ hdir
    have hnone : ¬ ((env.faults s.parts.length .sync).isSome = true) := by
      rw [hsync]
      exact Bool.false_ne_true
    dsimp only
    rw [hkeeps.root, List.append_assoc, rollbackCommitted_eq_start hfresh']
    constructor
    · rintro h (⟨hsome, -⟩ | ⟨name, hname, hstays⟩)
      · exact hnone hsome
      · rcases List.mem_append.1 hname with hname | hname
        · refine hstuck.1 (fun dir hdir => ?_) ⟨name, hname, hstays⟩
          exact (h dir (List.mem_append_left _ hdir)).2
        · have hfree := (h _ (List.mem_append_right _ (List.mem_singleton_self _))).2
          rw [List.mem_singleton.1 hname] at hstays
          exact Bool.false_ne_true (hfree.symm.trans hstays)
    · intro h dir hdir
      have hname : dir.name ∈ s.committed ++ [partName part] := by
        rcases List.mem_append.1 hdir with hdir | hdir
        · exact List.mem_append_left _ (hnoted dir hdir)
        · rw [List.mem_singleton.1 hdir]
          exact List.mem_append_right _ (List.mem_singleton_self _)
      refine ⟨hname, Bool.eq_false_of_not_eq_true fun hstays => h (.inr ⟨_, hname, hstays⟩)⟩
  · cases (Prod.mk.inj heq).1

/-- **An honest flush**: one that ends well has every row of the memtable in the part of its day, and
one that fails leaves what was there before. -/
structure Honest (P : Platform) (snapshot : MemTableSnapshot) (root : PartsRoot)
    (flushed : Except String (List LogPart) × PartsRoot) : Prop where
  holds : ∀ parts, flushed.1 = .ok parts → HoldRows P parts (rowsFromSnapshot snapshot)
  nothing : ∀ e, flushed.1 = .error e → flushed.2 = root

def twoEntries : MemTableSnapshot where
  tenants := [("tenant", [⟨.one, "up", []⟩, ⟨.one, "down", []⟩])]
  nodup := List.nodup_singleton _
  canonical tenant htenant entry hentry := by
    rw [List.mem_singleton.1 htenant] at hentry
    rcases List.mem_pair.1 hentry with rfl | rfl <;> exact List.Pairwise.nil

def RowGroupSize.two : RowGroupSize := ⟨2, by decide, by decide⟩

def failingSync : FlushSurroundings where
  genPartId number _ := if number = 0 then "first" else "second"
  faults number step := if number = 1 ∧ step = .sync then some "sync failed" else none
  stuck _ := false

theorem failingSync_faults {number : ℕ} {step : IoStep} (h : step ≠ .sync) :
    failingSync.faults number step = none := if_neg fun hsync => h hsync.2

theorem flushPart_of_written {number : ℕ} {s : Flushing} {day : ℤ} {rows : List Row}
    {part : LogPart} (hfaults : ∀ step, step ≠ .sync → env.faults number step = none)
    (hwrite : writePartFiles P (env.genPartId number
      (((sortRows rows).map Row.timestampNs).min?.getD Nanos.zero)) day (sortRows rows) size.rows
        = some part)
    (hvalid : validateMetaFile (env.genPartId number
      (((sortRows rows).map Row.timestampNs).min?.getD Nanos.zero)) day part.info = true)
    (hfree : s.root.taken day (env.genPartId number
      (((sortRows rows).map Row.timestampNs).min?.getD Nanos.zero)) = false) :
    flushPart P env size number s day rows =
      match env.faults number .sync with
      | some e => (some e, ⟨s.root ++ [⟨part, none⟩], s.committed, s.parts⟩)
      | none => (none, ⟨s.root ++ [⟨part, none⟩], s.committed ++ [(day, env.genPartId number
          (((sortRows rows).map Row.timestampNs).min?.getD Nanos.zero))], s.parts ++ [part]⟩) := by
  rw [flushPart]
  dsimp only
  rw [hfaults .staging (by decide), hfaults .finish (by decide), hwrite]
  dsimp only [Option.or]
  rw [hfaults .partition (by decide), hfaults .rename (by decide), hfaults .load (by decide), hvalid,
    hfree]
  rfl

/-- Each of the two rows makes a part. -/
theorem exists_partOfRow {row : Row} (hrow : row ∈ rowsFromSnapshot twoEntries) (id : String) :
    ∃ part, writePartFiles plainPlatform id 0 (sortRows [row]) 2 = some part ∧
      validateMetaFile id 0 part.info = true := by
  obtain ⟨tenant, htenant, entry, hentry, rfl⟩ := mem_rowsFromSnapshot.1 hrow
  rw [List.mem_singleton.1 htenant] at hentry ⊢
  have hday : partitionOf entry.timestampNs = 0 ∧ entry.structuredMetadata = [] := by
    rcases List.mem_pair.1 hentry with rfl | rfl <;> exact ⟨rfl, rfl⟩
  have hone : [Row.fromEntry "tenant" entry].filter (fun row => partitionOf row.timestampNs = 0)
      = [Row.fromEntry "tenant" entry] :=
    List.filter_eq_self.2 fun row hrow => by
      rw [List.mem_singleton.1 hrow]
      exact decide_eq_true hday.1
  have hparts := @writePartFiles_ok plainPlatform 2 (by decide) (by decide)
    [Row.fromEntry "tenant" entry] (fun row hrow => by
      rw [List.mem_singleton.1 hrow, Row.fromEntry, hday.2]
      exact List.Pairwise.nil) (fun row hrow p hp => by
      rw [List.mem_singleton.1 hrow] at hp
      have hfields : indexedFields (Row.fromEntry "tenant" entry)
          (Logql.extractJson plainPlatform.parseJson (Row.fromEntry "tenant" entry).line) = [] := by
        rcases List.mem_pair.1 hentry with rfl | rfl <;> decide +kernel
      rw [hfields] at hp
      cases hp) id 0 ⟨_, List.mem_singleton_self _, hday.1⟩
  rwa [hone] at hparts

end Part

end Obsy
