import Obsy.Part.LogScan
import Obsy.Trace.Store
import Obsy.Visibility.Sound

/-!
# The memtables of logs and traces

Both keep a live and a frozen buffer and read them in one section.  The log memtable aborts a flush
in one section too; the trace memtable does so in two.

* `MemTable.insert`, `beginFlush`, `commitFlush`, `abortFlush`: the moves of the log memtable.
* `logTable`, `traceTable`: the two as tables.
-/

namespace Obsy

open Visibility (Table Discipline)

/-! ### Logs -/

namespace Part

namespace MemTable

abbrev Buffer := List (String × List LogEntry)

def extend (tenant : String) (entries : List LogEntry) : Buffer → Buffer
  | [] => [(tenant, entries)]
  | held :: rest =>
    if held.1 = tenant then (tenant, held.2 ++ entries) :: rest
    else held :: extend tenant entries rest

def mergeSnapshot (target source : Buffer) : Buffer :=
  source.foldl (fun target held => extend held.1 held.2 target) target

/-- The metadata of every entry takes its canonical form. -/
def insert (memtable : MemTable) (tenant : String) (entries : List LogEntry) : MemTable :=
  { memtable with inner := extend tenant (entries.map LogEntry.canonicalized) memtable.inner }

/-- The live buffer becomes the snapshot; one that is there still is merged into it. -/
def beginFlush (memtable : MemTable) : MemTable :=
  ⟨[], some (mergeSnapshot memtable.inner (memtable.flushing.getD []))⟩

def commitFlush (memtable : MemTable) : MemTable := { memtable with flushing := none }

/-- The snapshot goes back, in the section that clears it. -/
def abortFlush (memtable : MemTable) (snapshot : Buffer) : MemTable :=
  ⟨mergeSnapshot memtable.inner snapshot, none⟩

def entriesIn (buffer : Buffer) (tenant : String) : List LogEntry := (buffer.lookup tenant).getD []

theorem entriesIn_cons (key tenant : String) (entries : List LogEntry) (rest : Buffer) :
    entriesIn ((key, entries) :: rest) tenant =
      if tenant = key then entries else entriesIn rest tenant := by
  rw [entriesIn, List.lookup_cons]
  by_cases h : tenant = key
  · rw [if_pos h, beq_iff_eq.2 h]
    rfl
  · rw [if_neg h, beq_eq_false_iff_ne.2 h]
    rfl

theorem entriesIn_extend (tenant other : String) (entries : List LogEntry) (buffer : Buffer) :
    entriesIn (extend tenant entries buffer) other =
      entriesIn buffer other ++ if other = tenant then entries else [] := by
  induction buffer with
  | nil => exact entriesIn_cons tenant other entries []
  | cons held rest ih =>
    obtain ⟨key, before⟩ := held
    rw [extend, entriesIn_cons]
    by_cases hkey : key = tenant
    · subst hkey
      rw [if_pos rfl, entriesIn_cons]
      split
      · rfl
      · rw [List.append_nil]
    · rw [if_neg hkey, entriesIn_cons]
      split
      · rename_i hother
        rw [if_neg (hother ▸ hkey), List.append_nil]
      · exact ih

theorem mem_keys_extend {tenant : String} {entries : List LogEntry} {buffer : Buffer} {key : String} :
    key ∈ (extend tenant entries buffer).map Prod.fst ↔
      key ∈ buffer.map Prod.fst ∨ key = tenant := by
  induction buffer with
  | nil => simp [extend]
  | cons held rest ih =>
    rw [extend]
    split
    · rename_i heq
      subst heq
      simp only [List.map_cons, List.mem_cons]
      tauto
    · simp only [List.map_cons, List.mem_cons, ih]
      tauto

theorem nodup_extend {tenant : String} {entries : List LogEntry} {buffer : Buffer}
    (h : (buffer.map Prod.fst).Nodup) : ((extend tenant entries buffer).map Prod.fst).Nodup := by
  induction buffer with
  | nil => simp [extend]
  | cons held rest ih =>
    rw [List.map_cons, List.nodup_cons] at h
    rw [extend]
    split
    · rename_i heq
      subst heq
      rw [List.map_cons, List.nodup_cons]
      exact h
    · rename_i hne
      rw [List.map_cons, List.nodup_cons]
      refine ⟨fun hmem => ?_, ih h.2⟩
      rcases mem_keys_extend.1 hmem with hmem | heq
      · exact h.1 hmem
      · exact hne heq

theorem nodup_mergeSnapshot {target source : Buffer} (h : (target.map Prod.fst).Nodup) :
    ((mergeSnapshot target source).map Prod.fst).Nodup := by
  induction source generalizing target with
  | nil => exact h
  | cons held rest ih => exact ih (nodup_extend h)

theorem entriesIn_mergeSnapshot {target source : Buffer} (h : (source.map Prod.fst).Nodup)
    (tenant : String) : entriesIn (mergeSnapshot target source) tenant =
      entriesIn target tenant ++ entriesIn source tenant := by
  induction source generalizing target with
  | nil => exact (List.append_nil _).symm
  | cons held rest ih =>
    rw [List.map_cons, List.nodup_cons] at h
    have hrest : entriesIn (mergeSnapshot target (held :: rest)) tenant =
        entriesIn (extend held.1 held.2 target) tenant ++ entriesIn rest tenant := ih h.2
    rw [hrest, entriesIn_extend, List.append_assoc]
    congr 1
    rw [entriesIn_cons]
    by_cases htenant : tenant = held.1
    · have hnone : rest.lookup tenant = none :=
        List.lookup_eq_none_iff.2 fun other ho => by
          have hne : tenant ≠ other.1 := fun heq =>
            h.1 (htenant ▸ heq ▸ List.mem_map_of_mem ho)
          simpa using hne
      rw [if_pos htenant, if_pos htenant, entriesIn, hnone]
      exact List.append_nil _
    · rw [if_neg htenant, if_neg htenant]
      rfl

/-- The tenants of each buffer are there once. -/
structure Valid (memtable : MemTable) : Prop where
  inner : (memtable.inner.map Prod.fst).Nodup
  flushing : ((memtable.flushing.getD []).map Prod.fst).Nodup

end MemTable

def logTable (tenant : String) :
    Table MemTable MemTable.Buffer (String × List LogEntry) LogEntry Unit where
  live memtable := MemTable.entriesIn memtable.inner tenant
  frozen memtable := MemTable.entriesIn (memtable.flushing.getD []) tenant
  items snapshot := MemTable.entriesIn snapshot tenant
  keyOf _ := ()
  keys _ := [()]
  insert memtable batch := memtable.insert batch.1 batch.2
  accepted _ batch :=
    Multiset.ofList (if tenant = batch.1 then batch.2.map LogEntry.canonicalized else [])
  beginFlush := MemTable.beginFlush
  snapshot memtable := memtable.flushing
  commitFlush := MemTable.commitFlush
  abortClear memtable := { memtable with flushing := none }
  abortRestore memtable snapshot :=
    { memtable with inner := MemTable.mergeSnapshot memtable.inner snapshot }
  retireFlushed memtable _ := memtable
  readAll memtable := memtable.entriesOf tenant
  readFrozen memtable _ := MemTable.entriesIn (memtable.flushing.getD []) tenant
  readLive memtable _ := MemTable.entriesIn memtable.inner tenant

/-- Aborts and reads are one section each. -/
def logDiscipline : Discipline Unit := ⟨true, true, fun _ => false⟩

theorem logTable_lawful (tenant : String) :
    (logTable tenant).Lawful MemTable.Valid (fun snapshot => (snapshot.map Prod.fst).Nodup)
      (fun _ _ => True) where
  insert_valid _ _ h _ := ⟨MemTable.nodup_extend h.inner, h.flushing⟩
  live_insert memtable batch _ _ := by
    simp only [logTable, MemTable.insert, MemTable.entriesIn_extend]
    rw [← Multiset.coe_add]
  frozen_insert _ _ := rfl
  keys_insert _ _ _ h := h
  keys_accepted _ _ _ _ := List.mem_singleton_self _
  begin_valid memtable h := ⟨List.nodup_nil, MemTable.nodup_mergeSnapshot h.inner⟩
  live_begin _ := rfl
  frozen_begin memtable h := by
    simp only [logTable, MemTable.beginFlush, Option.getD_some,
      MemTable.entriesIn_mergeSnapshot h.flushing]
    rw [← Multiset.coe_add, add_comm]
  keys_begin _ := rfl
  snapshot_begin memtable snapshot h hs := by
    obtain rfl := Option.some.inj hs
    exact ⟨rfl, MemTable.nodup_mergeSnapshot h.inner⟩
  commit_valid _ h := ⟨h.inner, List.nodup_nil⟩
  live_commit _ := rfl
  frozen_commit _ := rfl
  keys_commit _ := rfl
  clear_valid _ h := ⟨h.inner, List.nodup_nil⟩
  live_clear _ := rfl
  frozen_clear _ := rfl
  keys_clear _ := rfl
  restore_valid _ _ h _ := ⟨MemTable.nodup_mergeSnapshot h.inner, h.flushing⟩
  live_restore memtable snapshot _ hs := by
    simp only [logTable, MemTable.entriesIn_mergeSnapshot hs]
    rw [← Multiset.coe_add]
  frozen_restore _ _ := rfl
  keys_restore _ _ _ h := h
  retire_valid _ _ h := h
  live_retire _ _ _ := rfl
  frozen_retire _ _ := rfl
  keys_retire _ _ _ _ _ h := h
  keys_nodup _ _ := List.nodup_singleton _
  readAll_eq memtable := by
    simp only [logTable, MemTable.entriesOf]
    rw [← Multiset.coe_add]
    cases memtable.flushing <;> rfl
  readFrozen_eq _ _ := (Multiset.filter_eq_self.2 fun _ _ => rfl).symm
  readLive_eq _ _ _ := (Multiset.filter_eq_self.2 fun _ _ => rfl).symm

end Part

/-! ### Traces -/

namespace Trace

namespace TraceMemTable

variable {π : Type}

/-- The first section of `abort_flush`. -/
def abortClear (memtable : TraceMemTable π) : TraceMemTable π := { memtable with flushing := none }

/-- The second section. -/
def abortRestore (memtable : TraceMemTable π) (snapshot : List (TraceSpan π)) : TraceMemTable π :=
  { memtable with inner := memtable.inner ++ snapshot }

end TraceMemTable

variable {π : Type}

def spansOf (spans : List (TraceSpan π)) (tenant : String) : List (TraceSpan π) :=
  spans.filter fun span => span.tenant = tenant

theorem spansOf_append (spans more : List (TraceSpan π)) (tenant : String) :
    (spansOf (spans ++ more) tenant : Multiset (TraceSpan π)) =
      spansOf spans tenant + spansOf more tenant := by
  rw [spansOf, List.filter_append, ← Multiset.coe_add]
  rfl

def traceTable (π : Type) (tenant : String) :
    Table (TraceMemTable π) (List (TraceSpan π)) (List (TraceSpan π)) (TraceSpan π) Unit where
  live memtable := spansOf memtable.inner tenant
  frozen memtable := spansOf (memtable.flushing.getD []) tenant
  items snapshot := spansOf snapshot tenant
  keyOf _ := ()
  keys _ := [()]
  insert := TraceMemTable.insert
  accepted _ batch := spansOf batch tenant
  beginFlush := TraceMemTable.beginFlush
  snapshot memtable := memtable.flushing
  commitFlush := TraceMemTable.commitFlush
  abortClear := TraceMemTable.abortClear
  abortRestore := TraceMemTable.abortRestore
  retireFlushed memtable _ := memtable
  readAll memtable := spansOf memtable.spans tenant
  readFrozen memtable _ := spansOf (memtable.flushing.getD []) tenant
  readLive memtable _ := spansOf memtable.inner tenant

/-- Reads are one section, aborts are two. -/
def traceDiscipline : Discipline Unit := ⟨false, true, fun _ => false⟩

theorem traceTable_lawful (π : Type) (tenant : String) :
    (traceTable π tenant).Lawful (fun _ => True) (fun _ => True) (fun _ _ => True) where
  insert_valid _ _ _ _ := trivial
  live_insert _ _ _ _ := spansOf_append ..
  frozen_insert _ _ := rfl
  keys_insert _ _ _ h := h
  keys_accepted _ _ _ _ := List.mem_singleton_self _
  begin_valid _ _ := trivial
  live_begin _ := rfl
  frozen_begin _ _ := (spansOf_append ..).trans (add_comm ..)
  keys_begin _ := rfl
  snapshot_begin _ _ _ hs := by
    obtain rfl := Option.some.inj hs
    exact ⟨rfl, trivial⟩
  commit_valid _ _ := trivial
  live_commit _ := rfl
  frozen_commit _ := rfl
  keys_commit _ := rfl
  clear_valid _ _ := trivial
  live_clear _ := rfl
  frozen_clear _ := rfl
  keys_clear _ := rfl
  restore_valid _ _ _ _ := trivial
  live_restore _ _ _ _ := spansOf_append ..
  frozen_restore _ _ := rfl
  keys_restore _ _ _ h := h
  retire_valid _ _ _ := trivial
  live_retire _ _ _ := rfl
  frozen_retire _ _ := rfl
  keys_retire _ _ _ _ _ h := h
  keys_nodup _ _ := List.nodup_singleton _
  readAll_eq _ := spansOf_append ..
  readFrozen_eq _ _ := (Multiset.filter_eq_self.2 fun _ _ => rfl).symm
  readLive_eq _ _ _ := (Multiset.filter_eq_self.2 fun _ _ => rfl).symm

end Trace

end Obsy
