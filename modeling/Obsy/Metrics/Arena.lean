import Obsy.Metrics.Gorilla
import Obsy.Metrics.Memtable
import Obsy.Runs.Counters
import Obsy.Runs.Tally

/-!
# The metric memtable as it is kept

A tenant's index has an entry for each live series; the buffers, the running histogram totals and
the reservations of requests are in arenas beside it.  Counters follow what the memtable holds.

* `TenantSeries`: the index and its arenas, and the changes of one series.
* `SeriesMemTable`: the tenants, what a flush has taken and the counters.
* `step`: one call of any of the operations.  The code makes its counters smaller by saturating;
  here it is a parameter how it does.
-/

namespace Obsy

namespace Metrics

namespace Arena

open Part (Nanos)
open Runs (Table Release)
open Runs.Table (tally mapValues)

variable {ν : Type}

/-! ### Sizes -/

/-- `SPILL_SAMPLE_BYTES`. -/
def spillSampleBytes : ℕ := 16

/-- `INLINE_SAMPLE_BYTES`. -/
def inlineSampleBytes : ℕ := 16

/-- `HISTOGRAM_POINT_BYTES`. -/
def histogramPointBytes : ℕ := 56

/-- What an allocator hands out for one canonical label. -/
def labelAllocBytes (labels : SeriesLabels) : ℕ := (labels.bytes.length + 16 + 7) / 8 * 8

section Sizes

variable (bits : ν → Word)

/-- The encoder that was fed some samples; `bits` is `to_bits`. -/
def encoderOf (samples : List (Nanos × ν)) : Encoder :=
  .ofSamples (samples.map fun sample => (BitVec.ofInt 64 sample.1.1, bits sample.2))

/-- The length of the chunk that some samples are closed to. -/
def chunkBytes (samples : List (Nanos × ν)) : ℕ := (encoderOf bits samples).byteLen

/-- What the open stream counts for. -/
def openBytes (samples : List (Nanos × ν)) : ℕ :=
  if (encoderOf bits samples).isEmpty then 0 else (encoderOf bits samples).byteLen

/-- What a point counts for. -/
def pointBytes (point : HistogramPoint ν) : ℕ := point.cumulative.length * 8 + histogramPointBytes

/-- What a buffer counts for. -/
def accountedBytes : SeriesBufferStorage ν → ℕ
  | .empty => 0
  | .inline .. => inlineSampleBytes
  | .stream buffer =>
    (buffer.closed.map (chunkBytes bits)).sum + openBytes bits buffer.opened +
      buffer.spill.length * spillSampleBytes
  | .histogram buffer => (buffer.points.map fun point => pointBytes point.2).sum

/-- What a series of a snapshot counts for. -/
def snapshotBytes (series : SnapshotSeries ν) : ℕ :=
  (series.chunks.map (chunkBytes bits)).sum + series.spill.length * spillSampleBytes +
    (series.points.map fun point => pointBytes point.2).sum

end Sizes

/-! ### The index and its arenas -/

/-- The running total of a series: none, a number, or where it is in the arena. -/
inductive Total (ν : Type) where
  | none
  | running (total : ν)
  | histogram (id : ℕ)
deriving DecidableEq

/-- What the index keeps of a series. -/
structure SeriesState (ν : Type) where
  bufferId : Option ℕ
  lastTs : Option Nanos
  total : Total ν
deriving DecidableEq

namespace SeriesState

def new : SeriesState ν := ⟨none, none, .none⟩

def runningTotal (state : SeriesState ν) : Option ν :=
  match state.total with
  | .running total => some total
  | _ => none

def histogramTotalId (state : SeriesState ν) : Option ℕ :=
  match state.total with
  | .histogram id => some id
  | _ => none

/-- Whether storage could not rebuild the state. -/
def carriesATotal (state : SeriesState ν) : Bool :=
  state.runningTotal.isSome || state.histogramTotalId.isSome

/-- The newest timestamp after one more sample. -/
def advance (state : SeriesState ν) (ts : Nanos) : SeriesState ν :=
  { state with lastTs := if state.lastTs.all (· ≤ ts) then some ts else state.lastTs }

end SeriesState

/-- The requests that were let in and are not settled, and how new their samples are. -/
structure ReservationState where
  refs : ℕ
  admittedTs : Nanos
deriving DecidableEq

/-- The index of a tenant and its arenas. -/
structure TenantSeries (ν : Type) where
  states : Table SeriesLabels (SeriesState ν)
  buffers : Table ℕ (SeriesBufferStorage ν)
  reservations : Table SeriesLabels ReservationState
  histogramTotals : Table ℕ (HistogramPoint ν)
  nextBufferId : ℕ
  nextTotalId : ℕ

/-- A tenant after a change, with the bytes and the entries that came or went. -/
structure Change (ν : Type) where
  series : TenantSeries ν
  bytes : ℕ
  entries : ℕ

/-- The next id that is neither zero nor in use; the search goes round once. -/
def freshId (live : List ℕ) : ℕ → ℕ → Option ℕ
  | 0, _ => none
  | fuel + 1, last =>
    let raw := (last + 1) % 2 ^ 32
    if raw = 0 ∨ raw ∈ live then freshId live fuel raw else some raw

namespace TenantSeries

def new : TenantSeries ν := ⟨∅, ∅, ∅, ∅, 0, 0⟩

/-- What is kept of a series; a new state from its first sample on. -/
def stateOf (t : TenantSeries ν) (labels : SeriesLabels) : SeriesState ν :=
  (t.states.lookup labels).getD .new

/-- `alloc_buffer`. -/
def allocBuffer (t : TenantSeries ν) : Option (ℕ × TenantSeries ν) :=
  (freshId t.buffers.keys (2 ^ 32) t.nextBufferId).map fun id =>
    (id, { t with buffers := t.buffers.insert id .empty, nextBufferId := id })

/-- The buffer of a series; one is made if there is none. -/
def bufferFor (t : TenantSeries ν) (state : SeriesState ν) : Option (ℕ × TenantSeries ν) :=
  match state.bufferId with
  | some id => some (id, t)
  | none => t.allocBuffer

def bufferOf (t : TenantSeries ν) (state : SeriesState ν) : Option (SeriesBufferStorage ν) :=
  state.bufferId.bind fun id => t.buffers.lookup id

def hasSamples (t : TenantSeries ν) (state : SeriesState ν) : Bool :=
  (t.bufferOf state).any SeriesBufferStorage.hasSamples

/-- Free what an index entry owned. -/
def release (t : TenantSeries ν) (state : SeriesState ν) : TenantSeries ν :=
  { t with
    buffers := state.bufferId.elim t.buffers fun id => t.buffers.erase id
    histogramTotals := state.histogramTotalId.elim t.histogramTotals fun id =>
      t.histogramTotals.erase id }

/-- An entry leaves the index with what it owned. -/
def forget (t : TenantSeries ν) (labels : SeriesLabels) : TenantSeries ν :=
  match t.states.lookup labels with
  | some state => { t with states := t.states.erase labels }.release state
  | none => t

/-! ### Reservations -/

/-- One more request is to insert into a series. -/
def reserve (t : TenantSeries ν) (labels : SeriesLabels) (admittedTs : Nanos) : TenantSeries ν :=
  { t with
    reservations := t.reservations.insert labels <|
      match t.reservations.lookup labels with
      | none => ⟨1, admittedTs⟩
      | some r => ⟨min (r.refs + 1) (2 ^ 32 - 1), max r.admittedTs admittedTs⟩ }

def clearReservationAfterInsert (t : TenantSeries ν) (labels : SeriesLabels) : TenantSeries ν :=
  if (t.reservations.lookup labels).any fun r => r.refs = 0 then
    { t with reservations := t.reservations.erase labels }
  else t

/-- The entry of a series that is to be there before its samples are. -/
def create (c : Change ν) (labels : SeriesLabels) : Change ν :=
  if labels ∈ c.series.states then c
  else
    ⟨{ c.series with states := c.series.states.insert labels .new },
      c.bytes + labelAllocBytes labels, c.entries + 1⟩

/-- A request has succeeded, of one series. -/
def commitAdmission (t : TenantSeries ν) (labels : SeriesLabels) : TenantSeries ν :=
  match t.reservations.lookup labels with
  | none => t
  | some r =>
    let refs := r.refs - 1
    if refs = 0 ∧ (t.states.lookup labels).any fun state => state.bufferId.isSome then
      { t with reservations := t.reservations.erase labels }
    else { t with reservations := t.reservations.insert labels { r with refs := refs } }

/-- The references to a series that are left when one is given back. -/
def refsAfterDrop (t : TenantSeries ν) (labels : SeriesLabels) : ℕ :=
  (t.reservations.lookup labels).elim 0 fun r => r.refs - 1

/-- One of them is given back. -/
def dropReference (t : TenantSeries ν) (labels : SeriesLabels) :
    Table SeriesLabels ReservationState :=
  match t.reservations.lookup labels with
  | none => t.reservations
  | some r => t.reservations.insert labels { r with refs := r.refs - 1 }

/-- A request has failed, of one series. -/
def rollbackAdmission (t : TenantSeries ν) (labels : SeriesLabels) : Change ν :=
  let refs := t.refsAfterDrop labels
  let state := t.states.lookup labels
  let removed := state.any (·.bufferId.isNone) && refs = 0
  ⟨{ t with
      states := if removed then t.states.erase labels else t.states
      reservations :=
        if refs = 0 ∧ (state.any (·.bufferId.isSome) || removed) then
          (t.dropReference labels).erase labels
        else t.dropReference labels },
    if removed then labelAllocBytes labels else 0, if removed then 1 else 0⟩

/-! ### Series that leave -/

/-- Nothing is buffered, and neither a sample nor a request is new. -/
def idle (t : TenantSeries ν) (cutoff : Nanos) (labels : SeriesLabels) (state : SeriesState ν) :
    Bool :=
  !t.hasSamples state && state.lastTs.all (· < cutoff) &&
    (t.reservations.lookup labels).all fun r => r.refs = 0 && r.admittedTs < cutoff

/-- One idle series is evicted. -/
def evict (c : Change ν) (labels : SeriesLabels) : Change ν :=
  ⟨{ c.series.forget labels with reservations := c.series.reservations.erase labels },
    c.bytes + labelAllocBytes labels, c.entries + 1⟩

/-- `evict_idle_locked`. -/
def evictIdleLocked (t : TenantSeries ν) (cutoff : Nanos) : Change ν :=
  ((t.states.entries.filter fun e => t.idle cutoff e.1 e.2).map Sigma.fst).foldl evict ⟨t, 0, 0⟩

/-- A series of a snapshot that became durable leaves if nothing but its history keeps it. -/
def retire (c : Change ν) (labels : SeriesLabels) : Change ν :=
  match c.series.states.lookup labels with
  | none => c
  | some state =>
    if !c.series.hasSamples state && !state.carriesATotal && labels ∉ c.series.reservations then
      ⟨c.series.forget labels, c.bytes + labelAllocBytes labels, c.entries + 1⟩
    else c

/-! ### Samples -/

section

variable [DecidableEq ν] (F : Floats ν) (bits : ν → Word) (sub : Release)

/-- What is stored of a sample: a delta is folded into the total of its series. -/
def resolve (t : TenantSeries ν) (state : SeriesState ν) (sample : MetricSample ν) :
    Option (MetricValue ν × SeriesState ν × TenantSeries ν) :=
  match sample.value, sample.kind with
  | .scalar raw, .delta =>
    let total := F.add (state.runningTotal.getD (F.ofCount 0)) raw
    some (.scalar total, { state with total := .running total }, t)
  | .histogram point, .delta =>
    match state.histogramTotalId with
    | some id =>
      let total := (t.histogramTotals.lookup id).elim point fun total => total.accumulate F point
      some (.histogram total, state,
        { t with histogramTotals := t.histogramTotals.insert id total })
    | none =>
      (freshId t.histogramTotals.keys (2 ^ 32) t.nextTotalId).map fun id =>
        (.histogram point, { state with total := .histogram id },
          { t with histogramTotals := t.histogramTotals.insert id point, nextTotalId := id })
  | value, _ => some (value, state, t)

/-- A value goes to a buffer. -/
def record (storage : SeriesBufferStorage ν) (lastTs : Option Nanos) (ts : Nanos) :
    MetricValue ν → SeriesBufferStorage ν
  | .scalar value => storage.append lastTs ts value
  | .histogram point => storage.appendHistogram ts point

/-- What `insert` charges for the entry of a series. -/
def entryCharge (t : TenantSeries ν) (labels : SeriesLabels) : ℕ × ℕ :=
  if labels ∈ t.states then (0, 0) else (labelAllocBytes labels, 1)

def insertSample (t : TenantSeries ν) (sample : MetricSample ν) : Option (Change ν) := do
  let state := t.stateOf sample.labels
  let (id, opened) ← t.bufferFor state
  let (value, state, resolved) ← opened.resolve F { state with bufferId := some id } sample
  let storage ← resolved.buffers.lookup id
  let after := record storage state.lastTs sample.tsNs value
  let grown ← sub (accountedBytes bits after) (accountedBytes bits storage)
  some ⟨{ resolved with
      states := resolved.states.insert sample.labels (state.advance sample.tsNs)
      buffers := resolved.buffers.insert id after }.clearReservationAfterInsert sample.labels,
    (t.entryCharge sample.labels).1 + grown, (t.entryCharge sample.labels).2⟩

/-- What a buffer is once a series of a snapshot is in front of it again. -/
def putBack (series : SnapshotSeries ν) (lastTs : Option Nanos)
    (storage : SeriesBufferStorage ν) : SeriesBufferStorage ν :=
  if series.isHistogram then
    match storage with
    | .empty => .histogram ⟨series.points, none⟩
    | .histogram buffer => .histogram { buffer with points := series.points ++ buffer.points }
    | other => other
  else storage.prependAborted series.chunks series.spill lastTs

/-- One series of an aborted flush goes back; its entry is made again if it has left, and no
entry is counted for it. -/
def restore (c : Change ν) (series : SnapshotSeries ν) : Option (Change ν) := do
  let state := c.series.stateOf series.labels
  let (id, opened) ← c.series.bufferFor state
  let storage ← opened.buffers.lookup id
  let after := putBack series state.lastTs storage
  let grown ← sub (accountedBytes bits after) (accountedBytes bits storage)
  some ⟨{ opened with
      states := opened.states.insert series.labels { state with bufferId := some id }
      buffers := opened.buffers.insert id (after.absorb series.bounds) },
    c.bytes + (c.series.entryCharge series.labels).1 + grown, c.entries⟩

/-! ### Flushes -/

/-- What a flush has taken of a tenant so far. -/
structure Taken (ν : Type) where
  /-- The buffers that were not asked for yet. -/
  buffers : Table ℕ (SeriesBufferStorage ν)
  list : List (SnapshotSeries ν)
  /-- The accounted bytes of what was taken. -/
  moved : ℕ

/-- A flush takes the buffer of one series. -/
def takeBuffer (taken : Taken ν) (entry : (_ : SeriesLabels) × SeriesState ν) : Taken ν :=
  match entry.2.bufferId with
  | none => taken
  | some id =>
    match taken.buffers.lookup id with
    | none => taken
    | some storage =>
      let taken := { taken with buffers := taken.buffers.erase id }
      match SnapshotSeries.ofState entry.1 ⟨entry.2.lastTs, none, none, some storage, none⟩ with
      | none => taken
      | some series =>
        { taken with
          list := taken.list ++ [series]
          moved := taken.moved + accountedBytes bits storage }

/-- A flush takes the buffers of a tenant. -/
def takeBuffers (t : TenantSeries ν) : Taken ν :=
  t.states.entries.foldl (takeBuffer bits) ⟨t.buffers, [], 0⟩

/-- The index that a flush leaves behind. -/
def flushed (t : TenantSeries ν) : TenantSeries ν :=
  { t with
    states := mapValues (fun _ state => { state with bufferId := none }) t.states
    buffers := ∅ }

end

end TenantSeries

/-! ### The memtable -/

/-- What a flush has taken, by tenant. -/
abbrev SeriesSnapshot (ν : Type) := Table String (List (SnapshotSeries ν))

/-- A series of a tenant. -/
abbrev SeriesKey := String × SeriesLabels

/-- The pieces of an export, one for each tenant it names. -/
abbrev Groups (ν : Type) := List (String × List (MetricSample ν))

/-- Why an export is not let in. -/
structure AdmissionError where
  newSeries : ℕ
  activeSeries : ℕ
  limit : ℕ
deriving DecidableEq

structure SeriesMemTable (ν : Type) where
  inner : Table String (TenantSeries ν)
  flushing : Option (SeriesSnapshot ν)
  innerBytes : ℕ
  flushingBytes : ℕ
  activeSeries : ℕ

namespace SeriesMemTable

def new : SeriesMemTable ν := ⟨∅, none, 0, 0, 0⟩

/-- The series of a tenant, none if it is not known. -/
def tenantOf (m : SeriesMemTable ν) (tenant : String) : TenantSeries ν :=
  (m.inner.lookup tenant).getD .new

/-- Put the series of a tenant in place. -/
def setTenant (m : SeriesMemTable ν) (tenant : String) (t : TenantSeries ν) : SeriesMemTable ν :=
  { m with inner := m.inner.insert tenant t }

theorem tenantOf_of_lookup {m : SeriesMemTable ν} {tenant : String} {t : TenantSeries ν}
    (h : m.inner.lookup tenant = some t) : m.tenantOf tenant = t := by
  rw [tenantOf, h]
  rfl

theorem tenantOf_insert {m m' : SeriesMemTable ν} {tenant : String} {t : TenantSeries ν}
    (h : m'.inner = m.inner.insert tenant t) (other : String) :
    m'.tenantOf other = if other = tenant then t else m.tenantOf other := by
  rw [tenantOf, h]
  split_ifs with heq
  · rw [heq, AList.lookup_insert, Option.getD_some]
  · rw [AList.lookup_insert_ne heq]
    rfl

theorem tenantOf_setTenant (m : SeriesMemTable ν) (tenant : String) (t : TenantSeries ν)
    (other : String) :
    (m.setTenant tenant t).tenantOf other = if other = tenant then t else m.tenantOf other :=
  tenantOf_insert rfl other

section

variable (sub : Release)

/-! ### Idle series -/

/-- The idle series of one tenant are evicted; their bytes are still to be given back. -/
def evictIdleOf (cutoff : Nanos) (acc : SeriesMemTable ν × ℕ) (tenant : String) :
    Option (SeriesMemTable ν × ℕ) :=
  match acc.1.inner.lookup tenant with
  | none => some acc
  | some t => do
    let c := t.evictIdleLocked cutoff
    let active ← sub acc.1.activeSeries c.entries
    some ({ acc.1.setTenant tenant c.series with activeSeries := active }, acc.2 + c.bytes)

/-- Give back bytes of the live part. -/
def giveBack (acc : SeriesMemTable ν × ℕ) : Option (SeriesMemTable ν) := do
  let bytes ← sub acc.1.innerBytes acc.2
  some { acc.1 with innerBytes := bytes }

def evictIdle (cutoff : Nanos) (m : SeriesMemTable ν) : Option (SeriesMemTable ν) := do
  let acc ← m.inner.keys.foldlM (evictIdleOf sub cutoff) (m, 0)
  giveBack sub acc

/-! ### Admission -/

/-- The series of a tenant that an export needs, each once. -/
def requestedOf (groups : Groups ν) (tenant : String) : List SeriesLabels :=
  ((groups.filter fun group => group.1 = tenant).flatMap fun group =>
    group.2.map (·.labels)).dedup

/-- The newest sample of a series in an export. -/
def requestedNewest (groups : Groups ν) (tenant : String) (labels : SeriesLabels) : Option Nanos :=
  ((((groups.filter fun group => group.1 = tenant).flatMap fun group => group.2).filter
    fun sample => sample.labels = labels).map (·.tsNs)).max?

/-- How many series an export would create. -/
def newCount (m : SeriesMemTable ν) (groups : Groups ν) : ℕ :=
  ((groups.map Prod.fst).dedup.map fun tenant =>
    min ((requestedOf groups tenant).filter fun labels => labels ∉ (m.tenantOf tenant).states).length
      (2 ^ 64 - 1 - (m.tenantOf tenant).states.entries.length)).sum

/-- Every requested series of one tenant gets its entry. -/
def createFor (groups : Groups ν) (m : SeriesMemTable ν) (tenant : String) : SeriesMemTable ν :=
  let c := (requestedOf groups tenant).foldl TenantSeries.create ⟨m.tenantOf tenant, 0, 0⟩
  { m.setTenant tenant c.series with
    activeSeries := m.activeSeries + c.entries
    innerBytes := m.innerBytes + c.bytes }

def toReserve (m : SeriesMemTable ν) (group : String × List (MetricSample ν)) :
    List SeriesLabels :=
  (group.2.map (·.labels)).dedup.filter fun labels =>
    ((m.tenantOf group.1).states.lookup labels).any (·.bufferId.isNone)

/-- One group reserves the series it needs that have no buffer. -/
def reserveGroup (groups : Groups ν) (acc : SeriesMemTable ν × List (List SeriesKey))
    (group : String × List (MetricSample ν)) : SeriesMemTable ν × List (List SeriesKey) :=
  let labels := toReserve acc.1 group
  (acc.1.setTenant group.1 (labels.foldl
      (fun t labels => t.reserve labels ((requestedNewest groups group.1 labels).getD .min))
      (acc.1.tenantOf group.1)),
    acc.2 ++ [labels.map fun labels => (group.1, labels)])

/-- Idle series make room before an export is let in. -/
def makeRoom (cutoff : Nanos) (m : SeriesMemTable ν) : Option (SeriesMemTable ν) :=
  m.inner.keys.foldlM (fun m tenant => do giveBack sub (← evictIdleOf sub cutoff (m, 0) tenant)) m

/-- The entries and the reservations of an export that is let in. -/
def admitted (groups : Groups ν) (m : SeriesMemTable ν) :
    SeriesMemTable ν × List (List SeriesKey) :=
  groups.foldl (reserveGroup groups) ((groups.map Prod.fst).dedup.foldl (createFor groups) m, [])

/-- `admit_request`: the reservations of each group, or why there are none. -/
def admitRequest (groups : Groups ν) (maxActive : Option ℕ) (cutoff : Nanos)
    (m : SeriesMemTable ν) :
    Option (SeriesMemTable ν × Except AdmissionError (List (List SeriesKey))) := do
  let m ← makeRoom sub cutoff m
  match maxActive with
  | none => some ((admitted groups m).1, .ok (admitted groups m).2)
  | some limit =>
    if limit < min (m.activeSeries + m.newCount groups) (2 ^ 64 - 1) then
      some (m, .error ⟨m.newCount groups, m.activeSeries, limit⟩)
    else some ((admitted groups m).1, .ok (admitted groups m).2)

/-- `commit_admission`. -/
def commitAdmission (m : SeriesMemTable ν) (reserved : List SeriesKey) : SeriesMemTable ν :=
  reserved.foldl (fun m key =>
    match m.inner.lookup key.1 with
    | none => m
    | some t => m.setTenant key.1 (t.commitAdmission key.2)) m

/-- One series of a request that failed, with the bytes and the entries that are gone so far. -/
def rollbackOne (acc : SeriesMemTable ν × ℕ × ℕ) (key : SeriesKey) : SeriesMemTable ν × ℕ × ℕ :=
  match acc.1.inner.lookup key.1 with
  | none => acc
  | some t =>
    let c := t.rollbackAdmission key.2
    (acc.1.setTenant key.1 c.series, acc.2.1 + c.bytes, acc.2.2 + c.entries)

/-- The counters after entries have left the index. -/
def settle (acc : SeriesMemTable ν × ℕ × ℕ) : Option (SeriesMemTable ν) := do
  let bytes ← sub acc.1.innerBytes acc.2.1
  let active ← sub acc.1.activeSeries acc.2.2
  some { acc.1 with innerBytes := bytes, activeSeries := active }

/-- `rollback_admission`. -/
def rollbackAdmission (m : SeriesMemTable ν) (reserved : List SeriesKey) :
    Option (SeriesMemTable ν) :=
  settle sub (reserved.foldl rollbackOne (m, 0, 0))

/-- `retire_flushed`, of one tenant. -/
def retireTenant (acc : SeriesMemTable ν × ℕ × ℕ)
    (entry : (_ : String) × List (SnapshotSeries ν)) : SeriesMemTable ν × ℕ × ℕ :=
  match acc.1.inner.lookup entry.1 with
  | none => acc
  | some t =>
    let c := (entry.2.map (·.labels)).foldl TenantSeries.retire ⟨t, 0, 0⟩
    (acc.1.setTenant entry.1 c.series, acc.2.1 + c.bytes, acc.2.2 + c.entries)

def retireFlushed (snapshot : SeriesSnapshot ν) (m : SeriesMemTable ν) :
    Option (SeriesMemTable ν) :=
  settle sub (snapshot.entries.foldl retireTenant (m, 0, 0))

/-! ### Samples and flushes -/

/-- The lists of an earlier snapshot go in front of those of a later one. -/
def foldIn (tenants : SeriesSnapshot ν) (entry : (_ : String) × List (SnapshotSeries ν)) :
    SeriesSnapshot ν :=
  tenants.insert entry.1 (entry.2 ++ (tenants.lookup entry.1).getD [])

/-- An earlier snapshot is added to a later one. -/
theorem tally_foldl_foldIn {M : Type} [AddCommMonoid M] {f : String → List (SnapshotSeries ν) → M}
    (hnil : ∀ tenant, f tenant [] = 0)
    (happend : ∀ tenant first second, f tenant (first ++ second) = f tenant first + f tenant second)
    (entries : List ((_ : String) × List (SnapshotSeries ν))) (tenants : SeriesSnapshot ν) :
    tally f (entries.foldl foldIn tenants) =
      (entries.map fun entry => f entry.1 entry.2).sum + tally f tenants := by
  induction entries generalizing tenants with
  | nil => exact (zero_add _).symm
  | cons entry entries ih =>
    rw [List.foldl_cons, ih, foldIn, Table.tally_insert, happend, add_assoc,
      ← Table.tally_getD (hnil entry.1), List.map_cons, List.sum_cons, ← add_assoc]
    exact congrArg (· + _) (add_comm _ _)

variable [DecidableEq ν] (F : Floats ν) (bits : ν → Word)

/-- One sample, with the bytes that came so far. -/
def insertSample (acc : SeriesMemTable ν × ℕ) (sample : MetricSample ν) :
    Option (SeriesMemTable ν × ℕ) := do
  let c ← (acc.1.tenantOf sample.tenant).insertSample F bits sub sample
  some ({ acc.1.setTenant sample.tenant c.series with
      activeSeries := acc.1.activeSeries + c.entries },
    acc.2 + c.bytes)

def insert (samples : List (MetricSample ν)) (m : SeriesMemTable ν) :
    Option (SeriesMemTable ν) := do
  let acc ← samples.foldlM (insertSample sub F bits) (m, 0)
  some { acc.1 with innerBytes := acc.1.innerBytes + acc.2 }

/-- What a flush takes, by tenant. -/
def takenOf (m : SeriesMemTable ν) : SeriesSnapshot ν :=
  (mapValues (fun _ t => (t.takeBuffers bits).list) m.inner).filter fun _ list => !list.isEmpty

/-- `begin_flush`: all samples go to the snapshot. -/
def beginFlush (m : SeriesMemTable ν) : Option (SeriesMemTable ν) := do
  let bytes ← sub m.innerBytes (tally (fun _ t => (t.takeBuffers bits).moved) m.inner)
  some
    { m with
      inner := mapValues (fun _ t => t.flushed) m.inner
      flushing := some <| (m.flushing.elim [] AList.entries).foldl foldIn (m.takenOf bits)
      innerBytes := bytes
      flushingBytes := m.flushingBytes +
        tally (fun _ list => (list.map (snapshotBytes bits)).sum) (m.takenOf bits) }

def commitFlush (m : SeriesMemTable ν) : SeriesMemTable ν :=
  { m with flushing := none, flushingBytes := 0 }

/-- One tenant's series go back, with the bytes that were restored so far. -/
def restoreTenant (acc : SeriesMemTable ν × ℕ)
    (entry : (_ : String) × List (SnapshotSeries ν)) : Option (SeriesMemTable ν × ℕ) := do
  let c ← entry.2.foldlM (TenantSeries.restore bits sub) ⟨acc.1.tenantOf entry.1, 0, 0⟩
  some (acc.1.setTenant entry.1 c.series, acc.2 + c.bytes)

def abortFlush (snapshot : SeriesSnapshot ν) (m : SeriesMemTable ν) :
    Option (SeriesMemTable ν) := do
  let acc ← snapshot.entries.foldlM (restoreTenant sub bits) ({ m with flushing := none }, 0)
  some { acc.1 with flushingBytes := 0, innerBytes := acc.1.innerBytes + acc.2 }

end

end SeriesMemTable

/-! ### Steps -/

/-- A call of an operation of the memtable. -/
inductive Event (ν : Type) where
  | admitRequest (groups : Groups ν) (maxActive : Option ℕ) (cutoff : Nanos)
  | commitAdmission (reserved : List SeriesKey)
  | rollbackAdmission (reserved : List SeriesKey)
  | insert (samples : List (MetricSample ν))
  | beginFlush
  | commitFlush
  | abortFlush (snapshot : SeriesSnapshot ν)
  | retireFlushed (snapshot : SeriesSnapshot ν)
  | evictIdle (cutoff : Nanos)

/-- What a call leaves behind, if it returns. -/
def step [DecidableEq ν] (F : Floats ν) (bits : ν → Word) (sub : Release) (m : SeriesMemTable ν) :
    Event ν → Option (SeriesMemTable ν)
  | .admitRequest groups maxActive cutoff =>
    (m.admitRequest sub groups maxActive cutoff).map Prod.fst
  | .commitAdmission reserved => some (m.commitAdmission reserved)
  | .rollbackAdmission reserved => m.rollbackAdmission sub reserved
  | .insert samples => m.insert sub F bits samples
  | .beginFlush => m.beginFlush sub bits
  | .commitFlush => some m.commitFlush
  | .abortFlush snapshot => m.abortFlush sub bits snapshot
  | .retireFlushed snapshot => m.retireFlushed sub snapshot
  | .evictIdle cutoff => m.evictIdle sub cutoff

end Arena

end Metrics

end Obsy
