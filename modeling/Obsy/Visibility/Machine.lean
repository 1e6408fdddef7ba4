import Mathlib.Algebra.BigOperators.Group.Multiset.Basic
import Mathlib.Algebra.Order.Group.Multiset
import Mathlib.Data.Multiset.Count
import Obsy.Machine.Run

/-!
# What readers see of a buffered table

Items arrive in a live buffer.  A flush moves it into a frozen one and writes parts from a snapshot
of that; then it registers the parts and clears the frozen buffer in one section that excludes
readers, or it gives the snapshot back.  A reader holds a guard against the sections of that kind
only, and reads the buffers and then the parts.

* `Table`, `Table.Lawful`: the buffers, and what their operations do.
* `Discipline`: which moves and reads are one section.
* `tableMachine`: the interleavings.
* `Smooth`: the steps that keep apart what is two sections.
-/

namespace Obsy

namespace Visibility

/-! ### Tables -/

/-- A table of items `α` with keys `κ`: its states `M`, snapshots `S` and batches `β`. -/
structure Table (M S β α κ : Type) where
  live : M → Multiset α
  frozen : M → Multiset α
  items : S → Multiset α
  keyOf : α → κ
  /-- The keys that a reader looks for. -/
  keys : M → List κ
  insert : M → β → M
  /-- The items that a batch adds. -/
  accepted : M → β → Multiset α
  beginFlush : M → M
  snapshot : M → Option S
  commitFlush : M → M
  abortClear : M → M
  abortRestore : M → S → M
  /-- What is forgotten once the snapshot is on the disk. -/
  retireFlushed : M → S → M
  /-- Both buffers, read in one section. -/
  readAll : M → Multiset α
  /-- The items of a key in each buffer, read in a section of its own. -/
  readFrozen : M → κ → Multiset α
  readLive : M → κ → Multiset α

variable {M S β α κ : Type}

/-- What the operations do to the items.  `valid` is what they keep, `sound` what a snapshot is, and
`fits` what a batch must be. -/
structure Table.Lawful [DecidableEq κ] (T : Table M S β α κ) (valid : M → Prop) (sound : S → Prop)
    (fits : M → β → Prop) : Prop where
  insert_valid : ∀ m b, valid m → fits m b → valid (T.insert m b)
  live_insert : ∀ m b, valid m → fits m b → T.live (T.insert m b) = T.live m + T.accepted m b
  frozen_insert : ∀ m b, T.frozen (T.insert m b) = T.frozen m
  keys_insert : ∀ m b k, k ∈ T.keys m → k ∈ T.keys (T.insert m b)
  keys_accepted : ∀ m b a, a ∈ T.accepted m b → T.keyOf a ∈ T.keys (T.insert m b)
  begin_valid : ∀ m, valid m → valid (T.beginFlush m)
  live_begin : ∀ m, T.live (T.beginFlush m) = 0
  frozen_begin : ∀ m, valid m → T.frozen (T.beginFlush m) = T.frozen m + T.live m
  keys_begin : ∀ m, T.keys (T.beginFlush m) = T.keys m
  snapshot_begin : ∀ m s, valid m → T.snapshot (T.beginFlush m) = some s →
    T.items s = T.frozen (T.beginFlush m) ∧ sound s
  commit_valid : ∀ m, valid m → valid (T.commitFlush m)
  live_commit : ∀ m, T.live (T.commitFlush m) = T.live m
  frozen_commit : ∀ m, T.frozen (T.commitFlush m) = 0
  keys_commit : ∀ m, T.keys (T.commitFlush m) = T.keys m
  clear_valid : ∀ m, valid m → valid (T.abortClear m)
  live_clear : ∀ m, T.live (T.abortClear m) = T.live m
  frozen_clear : ∀ m, T.frozen (T.abortClear m) = 0
  keys_clear : ∀ m, T.keys (T.abortClear m) = T.keys m
  restore_valid : ∀ m s, valid m → sound s → valid (T.abortRestore m s)
  live_restore : ∀ m s, valid m → sound s → T.live (T.abortRestore m s) = T.live m + T.items s
  frozen_restore : ∀ m s, T.frozen (T.abortRestore m s) = T.frozen m
  keys_restore : ∀ m s k, k ∈ T.keys m → k ∈ T.keys (T.abortRestore m s)
  retire_valid : ∀ m s, valid m → valid (T.retireFlushed m s)
  live_retire : ∀ m s, valid m → T.live (T.retireFlushed m s) = T.live m
  frozen_retire : ∀ m s, T.frozen (T.retireFlushed m s) = T.frozen m
  keys_retire : ∀ m s a, valid m → a ∈ T.live m → T.keyOf a ∈ T.keys m →
    T.keyOf a ∈ T.keys (T.retireFlushed m s)
  keys_nodup : ∀ m, valid m → (T.keys m).Nodup
  readAll_eq : ∀ m, T.readAll m = T.live m + T.frozen m
  readFrozen_eq : ∀ m k, T.readFrozen m k = (T.frozen m).filter fun a => T.keyOf a = k
  readLive_eq : ∀ m k, valid m → T.readLive m k = (T.live m).filter fun a => T.keyOf a = k

/-- What a table does in one section. -/
structure Discipline (κ : Type) where
  /-- An aborted flush clears the snapshot and gives it back. -/
  atomicAbort : Bool
  /-- A reader reads both buffers. -/
  jointRead : Bool
  /-- The keys that a reader looks at before it reads them. -/
  probes : κ → Bool

/-! ### The machine -/

/-- The flush: it holds a snapshot until its parts are registered, or until an abort is over. -/
inductive Flight (S : Type) where
  | idle
  | flushing (snapshot : S)
  | aborting (snapshot : S)
  | retiring (snapshot : S)

/-- How far a reader is.  Between the two sections of a key it has read the frozen buffer only. -/
inductive Phase (κ : Type) where
  | guarded
  | probing (todo : List κ) (half : Option Bool) (chosen : List κ)
  | reading (todo : List κ) (half : Bool)
  | buffered
  | complete
  | finished

/-- A reader: the keys it wants, what it has seen, and what was held when it took its guard and
when it gave it up. -/
structure Reader (α κ : Type) where
  wanted : κ → Bool
  phase : Phase κ
  seen : Multiset α
  before : Multiset α
  after : Multiset α

/-- Whether a reader has given up its guard. -/
def Reader.free (reader : Reader α κ) : Bool :=
  match reader.phase with
  | .finished => true
  | _ => false

/-- A table with its flush, its registered parts and its readers.  `held` is what was accepted, less
what retention has dropped. -/
structure Store (M S α κ : Type) where
  memtable : M
  flight : Flight S
  parts : List (String × Multiset α)
  held : Multiset α
  readers : List (Reader α κ)

namespace Store

/-- The items of some parts. -/
def inParts (parts : List (String × Multiset α)) : Multiset α := (parts.map Prod.snd).sum

/-- The items of the registered parts. -/
def stored (store : Store M S α κ) : Multiset α := inParts store.parts

/-- No reader holds a guard. -/
def free (store : Store M S α κ) : Bool := store.readers.all Reader.free

/-- The parts that some ids leave, and those they take. -/
def others (store : Store M S α κ) (ids : List String) : List (String × Multiset α) :=
  store.parts.filter fun part => part.1 ∉ ids

def chosen (store : Store M S α κ) (ids : List String) : List (String × Multiset α) :=
  store.parts.filter fun part => part.1 ∈ ids

def withReader (store : Store M S α κ) (q : ℕ) (reader : Reader α κ) : Store M S α κ :=
  { store with readers := store.readers.set q reader }

end Store

inductive Event (β α κ : Type) where
  | insert (batch : β)
  | beginFlush
  /-- The parts are registered and the frozen buffer is cleared. -/
  | commitFlush (parts : List (String × Multiset α))
  | retireFlushed
  /-- An abort in one section. -/
  | abortFlush
  | abortClear
  | abortRestore
  /-- A merge or a compaction: parts take the place of others. -/
  | replace (ids : List String) (parts : List (String × Multiset α))
  /-- Retention: parts that have expired whole. -/
  | expire (ids : List String)
  | start (wanted : κ → Bool)
  | readAll (q : ℕ)
  | readKeys (q : ℕ)
  | probe (q : ℕ)
  | read (q : ℕ)
  | readParts (q : ℕ)
  | finish (q : ℕ)

section

variable [DecidableEq α] [DecidableEq κ] (T : Table M S β α κ) (D : Discipline κ)

/-- One look at a key, in two sections if it is one that is probed. -/
def probeStep (m : M) (reader : Reader α κ) : Option (Reader α κ) :=
  match reader.phase with
  | .probing [] _ chosen => some { reader with phase := .reading chosen false }
  | .probing (k :: todo) half chosen =>
    if D.probes k then
      match half with
      | none =>
        let phase := .probing (k :: todo) (some (decide (T.readFrozen m k ≠ 0))) chosen
        some { reader with phase }
      | some found =>
        let chosen := if found || decide (T.readLive m k ≠ 0) then chosen ++ [k] else chosen
        some { reader with phase := .probing todo none chosen }
    else some { reader with phase := .probing todo none (chosen ++ [k]) }
  | _ => none

/-- One section of the read of a key. -/
def readStep (m : M) (reader : Reader α κ) : Option (Reader α κ) :=
  match reader.phase with
  | .reading [] _ => some { reader with phase := .buffered }
  | .reading (k :: todo) false =>
    some { reader with phase := .reading (k :: todo) true, seen := reader.seen + T.readFrozen m k }
  | .reading (k :: todo) true =>
    some { reader with phase := .reading todo false, seen := reader.seen + T.readLive m k }
  | _ => none

def readerStep (store : Store M S α κ) (reader : Reader α κ) :
    Event β α κ → Option (Reader α κ)
  | .readAll _ =>
    match D.jointRead, reader.phase with
    | true, .guarded => some { reader with
        phase := .buffered
        seen := (T.readAll store.memtable).filter fun a => reader.wanted (T.keyOf a) }
    | _, _ => none
  | .readKeys _ =>
    match D.jointRead, reader.phase with
    | false, .guarded => some { reader with
        phase := .probing ((T.keys store.memtable).filter reader.wanted) none [] }
    | _, _ => none
  | .probe _ => probeStep T D store.memtable reader
  | .read _ => readStep T store.memtable reader
  | .readParts _ =>
    match reader.phase with
    | .buffered => some { reader with
        phase := .complete
        seen := reader.seen + store.stored.filter fun a => reader.wanted (T.keyOf a) }
    | _ => none
  | .finish _ =>
    match reader.phase with
    | .complete => some { reader with phase := .finished, after := store.held }
    | _ => none
  | _ => none

/-- The reader that takes a step. -/
def Event.reader? : Event β α κ → Option ℕ
  | .readAll q | .readKeys q | .probe q | .read q | .readParts q | .finish q => some q
  | _ => none

/-- A step of the flush, of the writers, of the compactor or of the retention. -/
def passStep (store : Store M S α κ) : Event β α κ → Option (Store M S α κ)
  | .insert batch => some { store with
      memtable := T.insert store.memtable batch
      held := store.held + T.accepted store.memtable batch }
  | .beginFlush =>
    match store.flight with
    | .idle => (T.snapshot (T.beginFlush store.memtable)).map fun s =>
        { store with memtable := T.beginFlush store.memtable, flight := .flushing s }
    | _ => none
  | .commitFlush parts =>
    match store.flight with
    | .flushing s =>
      if store.free ∧ Store.inParts parts = T.items s then some { store with
        memtable := T.commitFlush store.memtable
        flight := .retiring s
        parts := store.parts ++ parts }
      else none
    | _ => none
  | .retireFlushed =>
    match store.flight with
    | .retiring s => some { store with
        memtable := T.retireFlushed store.memtable s
        flight := .idle }
    | _ => none
  | .abortFlush =>
    match D.atomicAbort, store.flight with
    | true, .flushing s => some { store with
        memtable := T.abortRestore (T.abortClear store.memtable) s
        flight := .idle }
    | _, _ => none
  | .abortClear =>
    match D.atomicAbort, store.flight with
    | false, .flushing s => some { store with
        memtable := T.abortClear store.memtable
        flight := .aborting s }
    | _, _ => none
  | .abortRestore =>
    match store.flight with
    | .aborting s => some { store with
        memtable := T.abortRestore store.memtable s
        flight := .idle }
    | _ => none
  | .replace ids parts =>
    if store.free ∧ Store.inParts parts = Store.inParts (store.chosen ids) then
      some { store with parts := store.others ids ++ parts }
    else none
  | .expire ids =>
    if store.free then some { store with
      parts := store.others ids
      held := store.held - Store.inParts (store.chosen ids) }
    else none
  | .start wanted => some { store with
      readers := store.readers ++ [⟨wanted, .guarded, 0, store.held, 0⟩] }
  | _ => none

/-- The table, its flush, its parts and any number of readers, in any order. -/
def tableMachine : Machine (Store M S α κ) (Event β α κ) where
  step store event :=
    match event.reader? with
    | some q => (store.readers[q]?).bind fun reader =>
        (readerStep T D store reader event).map (store.withReader q)
    | none => passStep T D store event

end

/-! ### Smooth steps -/

/-- Whether a reader is between the two sections of a key. -/
def Reader.halfway (reader : Reader α κ) : Bool :=
  match reader.phase with
  | .probing _ (some _) _ | .reading _ true => true
  | _ => false

def Flight.isAborting : Flight S → Bool
  | .aborting _ => true
  | _ => false

/-- Whether the next section of a reader reads the frozen buffer. -/
def Reader.meetsFrozen (D : Discipline κ) (reader : Reader α κ) : Bool :=
  match reader.phase with
  | .guarded => D.jointRead
  | .probing (k :: _) none _ => D.probes k
  | .reading (_ :: _) false => true
  | _ => false

/-- The steps that keep apart what is in two sections: no reader reads the frozen buffer between
the sections of an abort, nothing moves between the buffers while a reader is between the sections
of a key, and every batch fits. -/
def Smooth (D : Discipline κ) (fits : M → β → Prop) (store : Store M S α κ) : Event β α κ → Prop
  | .insert batch => fits store.memtable batch
  | .beginFlush | .abortFlush | .abortRestore => ∀ reader ∈ store.readers, reader.halfway = false
  | .readAll q | .probe q | .read q =>
    ∀ reader, store.readers[q]? = some reader → reader.meetsFrozen D = true →
      store.flight.isAborting = false
  | _ => True

end Visibility

end Obsy
