import Obsy.Metrics.Memtable
import Obsy.Visibility.Sound

/-!
# The metric memtable

It keeps the samples of each series by themselves, reads the snapshot and the buffer of a series in
two sections, and aborts a flush in two.

* `SeriesBufferStorage.items`, `SnapshotSeries.items`: the samples that are held.
* `Conforms`: each series has samples of one shape; what does not is dropped.
* `seriesTable`: the memtable as a table.
-/

namespace Obsy

namespace Metrics

open Part (Nanos)
open Visibility (Table Discipline)

variable {ν : Type}

/-! ### Items -/

/-- A sample as it is stored: its series, its time and its value. -/
abbrev StoredSample (ν : Type) := SeriesLabels × Nanos × MetricValue ν

def scalarItem (labels : SeriesLabels) (sample : Nanos × ν) : StoredSample ν :=
  (labels, sample.1, .scalar sample.2)

def histogramItem (labels : SeriesLabels) (point : Nanos × HistogramPoint ν) : StoredSample ν :=
  (labels, point.1, .histogram point.2)

def MetricValue.kind : MetricValue ν → SeriesRowKind
  | .scalar _ => .scalar
  | .histogram _ => .histogram

namespace SeriesBufferStorage

def items (labels : SeriesLabels) : SeriesBufferStorage ν → Multiset (StoredSample ν)
  | .empty => 0
  | .inline ts value => {scalarItem labels (ts, value)}
  | .stream buffer => (buffer.samples.map (scalarItem labels) : List (StoredSample ν))
  | .histogram buffer => (buffer.points.map (histogramItem labels) : List (StoredSample ν))

/-- A buffer has samples of one shape only. -/
def Conforms (kind : SeriesRowKind) : SeriesBufferStorage ν → Prop
  | .empty => True
  | .inline .. | .stream _ => kind = .scalar
  | .histogram _ => kind = .histogram

end SeriesBufferStorage

namespace SnapshotSeries

def items (series : SnapshotSeries ν) : Multiset (StoredSample ν) :=
  ((series.chunks.flatten ++ series.spill).map (scalarItem series.labels) : List (StoredSample ν)) +
    (series.points.map (histogramItem series.labels) : List (StoredSample ν))

/-- A snapshot has samples of one shape, and points if it is of that shape. -/
def Conforms (kind : SeriesRowKind) (series : SnapshotSeries ν) : Prop :=
  match kind with
  | .scalar => series.points = []
  | .histogram => series.chunks = [] ∧ series.spill = [] ∧ series.points ≠ []

end SnapshotSeries

def SeriesState.items (labels : SeriesLabels) (state : SeriesState ν) : Multiset (StoredSample ν) :=
  (state.buffer.getD .empty).items labels

/-- The samples of a tenant's series. -/
def itemsOf (series : TenantSeries ν) : Multiset (StoredSample ν) :=
  (series.map fun entry => entry.2.items entry.1).sum

def snapshotItems (list : List (SnapshotSeries ν)) : Multiset (StoredSample ν) :=
  (list.map SnapshotSeries.items).sum

/-! ### Buffers -/

namespace SeriesBufferStorage

variable {labels : SeriesLabels} {storage : SeriesBufferStorage ν} {lastTs : Option Nanos}
  {ts : Nanos}

theorem items_observe : (storage.observe ts).items labels = storage.items labels := by
  cases storage <;> rfl

theorem conforms_observe {kind : SeriesRowKind} :
    (storage.observe ts).Conforms kind ↔ storage.Conforms kind := by
  cases storage <;> rfl

theorem items_absorb {bounds : Option (Nanos × Nanos)} :
    (storage.absorb bounds).items labels = storage.items labels := by
  cases bounds with
  | none => rfl
  | some b => rw [absorb, items_observe, items_observe]

theorem conforms_absorb {kind : SeriesRowKind} {bounds : Option (Nanos × Nanos)} :
    (storage.absorb bounds).Conforms kind ↔ storage.Conforms kind := by
  cases bounds with
  | none => rfl
  | some b => rw [absorb, conforms_observe, conforms_observe]

/-- A sample that is put into a stream is one more. -/
theorem samples_put (lastTs : Option Nanos) (buffer : SeriesBuffer ν) (sample : Nanos × ν) :
    (buffer.put lastTs sample).samples.Perm (buffer.samples ++ [sample]) := by
  rw [SeriesBuffer.put]
  split
  · simp [SeriesBuffer.samples]
  · simp only [SeriesBuffer.samples, List.append_assoc]
    exact (List.perm_append_comm.append_left _).append_left _

theorem samples_observe (buffer : SeriesBuffer ν) : (buffer.observe ts).samples = buffer.samples :=
  rfl

theorem items_promote : (storage.promote lastTs).items labels = storage.items labels := by
  cases storage with
  | inline ts value =>
    have hput := samples_put lastTs (SeriesBuffer.new.observe ts) (ts, value)
    simp only [promote, items]
    rw [Multiset.coe_eq_coe.2 (hput.map _)]
    rfl
  | _ => rfl

theorem conforms_promote {kind : SeriesRowKind} (h : storage.Conforms kind) :
    (storage.promote lastTs).Conforms kind := by
  cases storage <;> exact h

/-- A scalar is one more sample of a scalar series. -/
theorem items_append {value : ν} (h : storage.Conforms .scalar) :
    (storage.append lastTs ts value).items labels =
      storage.items labels + {scalarItem labels (ts, value)} := by
  have hpromote : (storage.promote lastTs).items labels = storage.items labels := items_promote
  have hconforms : (storage.promote lastTs).Conforms .scalar := conforms_promote h
  rw [append, ← hpromote]
  cases hstorage : storage.promote lastTs with
  | empty => exact (zero_add _).symm
  | inline first other =>
    -- a promoted buffer is not a single sample
    cases storage <;> cases hstorage
  | stream buffer =>
    have hput := samples_put lastTs buffer (ts, value)
    simp only [items, samples_observe]
    rw [Multiset.coe_eq_coe.2 (hput.map _), List.map_append, ← Multiset.coe_add]
    rfl
  | histogram buffer =>
    rw [hstorage] at hconforms
    cases hconforms

theorem conforms_append {value : ν} (h : storage.Conforms .scalar) :
    (storage.append lastTs ts value).Conforms .scalar := by
  have hconforms : (storage.promote lastTs).Conforms .scalar := conforms_promote h
  rw [append]
  cases hstorage : storage.promote lastTs with
  | histogram buffer =>
    rw [hstorage] at hconforms
    cases hconforms
  | _ => rfl

/-- A point is one more of a histogram series. -/
theorem items_appendHistogram {point : HistogramPoint ν} (h : storage.Conforms .histogram) :
    (storage.appendHistogram ts point).items labels =
      storage.items labels + {histogramItem labels (ts, point)} := by
  cases storage with
  | empty => exact (zero_add _).symm
  | histogram buffer =>
    rw [appendHistogram, items, List.map_append, ← Multiset.coe_add]
    rfl
  | _ => cases h

theorem conforms_appendHistogram {point : HistogramPoint ν} :
    (storage.appendHistogram ts point).Conforms .histogram := by
  cases storage <;> rfl

theorem prependAborted_empty (chunks : List (List (Nanos × ν))) (spill : List (Nanos × ν)) :
    (empty : SeriesBufferStorage ν).prependAborted chunks spill lastTs =
      match chunks, spill with
      | [[(ts, value)]], [] => inline ts value
      | _, _ => stream ⟨chunks, [], spill, none⟩ := rfl

/-- What an abort gives back is in a scalar series again. -/
theorem items_prependAborted {chunks : List (List (Nanos × ν))} {spill : List (Nanos × ν)}
    (h : storage.Conforms .scalar) :
    (storage.prependAborted chunks spill lastTs).items labels = storage.items labels +
      ((chunks.flatten ++ spill).map (scalarItem labels) : List (StoredSample ν)) := by
  cases storage with
  | empty =>
    rw [prependAborted_empty]
    split
    · simp [items]
    · simp [items, SeriesBuffer.samples]
  | inline ts value =>
    have hput := samples_put lastTs (SeriesBuffer.observe ⟨chunks, [], [], none⟩ ts)
      (ts, value)
    have hsamples : ∀ buffer : SeriesBuffer ν,
        ({ buffer with spill := buffer.spill ++ spill } : SeriesBuffer ν).samples =
          buffer.samples ++ spill := fun buffer => by simp [SeriesBuffer.samples]
    simp only [prependAborted, items, hsamples]
    have hperm := hput.append_right spill
    rw [Multiset.coe_eq_coe.2 (hperm.map _)]
    simp only [SeriesBuffer.samples, SeriesBuffer.observe, List.append_nil, List.map_append,
      List.map_cons, List.map_nil, ← Multiset.coe_add, Multiset.coe_singleton]
    abel
  | stream buffer =>
    simp only [prependAborted, items, SeriesBuffer.samples, List.flatten_append, List.map_append,
      ← Multiset.coe_add]
    abel
  | histogram buffer => cases h

theorem conforms_prependAborted {chunks : List (List (Nanos × ν))} {spill : List (Nanos × ν)}
    (h : storage.Conforms .scalar) :
    (storage.prependAborted chunks spill lastTs).Conforms .scalar := by
  cases storage with
  | empty =>
    rw [prependAborted_empty]
    split <;> rfl
  | histogram buffer => cases h
  | _ => rfl

theorem items_of_not_hasSamples (h : storage.hasSamples = false) : storage.items labels = 0 := by
  cases storage with
  | empty => rfl
  | inline ts value => cases h
  | stream buffer =>
    simp only [hasSamples, SeriesBuffer.hasSamples, Bool.or_eq_false_iff, Bool.not_eq_false',
      List.isEmpty_iff] at h
    obtain ⟨⟨hclosed, hopened⟩, hspill⟩ := h
    simp [items, SeriesBuffer.samples, hclosed, hopened, hspill]
  | histogram buffer =>
    simp only [hasSamples, Bool.not_eq_false', List.isEmpty_iff] at h
    simp [items, h]

end SeriesBufferStorage

/-! ### Series -/

/-- What is known of a series. -/
def stateOf (series : TenantSeries ν) (labels : SeriesLabels) : SeriesState ν :=
  (series.lookup labels).getD .new

/-- The buffer of every series has samples of its shape. -/
def SeriesState.Conforms (kind : SeriesRowKind) (state : SeriesState ν) : Prop :=
  (state.buffer.getD .empty).Conforms kind

theorem stateOf_cons (key labels : SeriesLabels) (state : SeriesState ν) (rest : TenantSeries ν) :
    stateOf ((key, state) :: rest) labels =
      if labels = key then state else stateOf rest labels := by
  rw [stateOf, List.lookup_cons]
  by_cases h : labels = key
  · rw [if_pos h, beq_iff_eq.2 h]
    rfl
  · rw [if_neg h, beq_eq_false_iff_ne.2 h]
    rfl

/-- A change of a series that adds samples to it adds them to the tenant. -/
theorem itemsOf_modify {series : TenantSeries ν} {labels : SeriesLabels}
    {change : SeriesState ν → SeriesState ν} {extra : Multiset (StoredSample ν)}
    (h : (change (stateOf series labels)).items labels =
      (stateOf series labels).items labels + extra) :
    itemsOf (TenantSeries.modify labels change series) = itemsOf series + extra := by
  induction series with
  | nil =>
    have hnew : (change .new).items labels = 0 + extra := h
    simpa [TenantSeries.modify, itemsOf] using hnew
  | cons entry rest ih =>
    obtain ⟨key, state⟩ := entry
    rw [stateOf_cons] at h
    rw [TenantSeries.modify]
    split
    · rename_i heq
      obtain rfl : key = labels := heq
      rw [if_pos rfl] at h
      simp only [itemsOf, List.map_cons, List.sum_cons, h]
      abel
    · rename_i hne
      rw [if_neg (Ne.symm hne)] at h
      have hrest := ih h
      simp only [itemsOf, List.map_cons, List.sum_cons] at hrest ⊢
      rw [hrest, add_assoc]

theorem mem_keys_modify {series : TenantSeries ν} {labels key : SeriesLabels}
    {change : SeriesState ν → SeriesState ν} :
    key ∈ (TenantSeries.modify labels change series).map Prod.fst ↔
      key ∈ series.map Prod.fst ∨ key = labels := by
  induction series with
  | nil => simp [TenantSeries.modify]
  | cons entry rest ih =>
    rw [TenantSeries.modify]
    split
    · rename_i heq
      simp only [List.map_cons, List.mem_cons, heq]
      tauto
    · simp only [List.map_cons, List.mem_cons, ih]
      tauto

theorem nodup_modify {series : TenantSeries ν} {labels : SeriesLabels}
    {change : SeriesState ν → SeriesState ν} (h : (series.map Prod.fst).Nodup) :
    ((TenantSeries.modify labels change series).map Prod.fst).Nodup := by
  induction series with
  | nil => simp [TenantSeries.modify]
  | cons entry rest ih =>
    rw [List.map_cons, List.nodup_cons] at h
    rw [TenantSeries.modify]
    split
    · rename_i heq
      rw [List.map_cons, List.nodup_cons]
      exact heq ▸ h
    · rename_i hne
      rw [List.map_cons, List.nodup_cons]
      refine ⟨fun hmem => ?_, ih h.2⟩
      rcases mem_keys_modify.1 hmem with hmem | heq
      · exact h.1 hmem
      · exact hne heq

/-- The series of a tenant: each is there once, with samples of its shape. -/
structure TenantSeries.Valid (shape : SeriesLabels → SeriesRowKind) (series : TenantSeries ν) :
    Prop where
  nodup : (series.map Prod.fst).Nodup
  conforms : ∀ entry ∈ series, entry.2.Conforms (shape entry.1)

variable {shape : SeriesLabels → SeriesRowKind} {series : TenantSeries ν} {labels : SeriesLabels}

theorem TenantSeries.Valid.stateOf (h : series.Valid shape) :
    (stateOf series labels).Conforms (shape labels) := by
  rw [Metrics.stateOf]
  cases hlookup : series.lookup labels with
  | none => trivial
  | some state =>
    obtain ⟨before, after, rfl, -⟩ := List.lookup_eq_some_iff.1 hlookup
    exact h.conforms (labels, state) (by simp)

theorem TenantSeries.Valid.modify (h : series.Valid shape)
    {change : SeriesState ν → SeriesState ν}
    (hchange : ∀ state, state.Conforms (shape labels) → (change state).Conforms (shape labels)) :
    (TenantSeries.modify labels change series).Valid shape := by
  refine ⟨nodup_modify h.nodup, ?_⟩
  have hconforms := h.conforms
  clear h
  induction series with
  | nil =>
    intro entry hentry
    obtain rfl := List.mem_singleton.1 hentry
    exact hchange _ trivial
  | cons entry rest ih =>
    rw [List.forall_mem_cons] at hconforms
    rw [TenantSeries.modify]
    split
    · rename_i heq
      rw [List.forall_mem_cons]
      exact ⟨hchange _ (heq ▸ hconforms.1), hconforms.2⟩
    · rw [List.forall_mem_cons]
      exact ⟨hconforms.1, ih hconforms.2⟩

/-! ### Inserts -/

section

variable [DecidableEq ν] (F : Floats ν)

theorem resolve_buffer (state : SeriesState ν) (sample : MetricSample ν) :
    (state.resolve F sample).2.buffer = state.buffer := by
  rw [SeriesState.resolve]
  split <;> rfl

/-- What is stored of a sample has its shape. -/
theorem resolve_kind (state : SeriesState ν) (sample : MetricSample ν) :
    (state.resolve F sample).1.kind = sample.value.kind := by
  rw [SeriesState.resolve]
  split
  · rename_i hvalue _
    rw [hvalue]
    rfl
  · rename_i hvalue _
    rw [hvalue]
    rfl
  · rfl

theorem items_insert {state : SeriesState ν} {sample : MetricSample ν}
    (h : state.Conforms sample.value.kind) :
    (state.insert F sample).items labels =
      state.items labels + {(labels, sample.tsNs, (state.resolve F sample).1)} := by
  have hkind := resolve_kind F state sample
  have hbuffer := resolve_buffer F state sample
  rw [SeriesState.Conforms, ← hkind] at h
  simp only [SeriesState.insert, SeriesState.items]
  cases hvalue : (state.resolve F sample).1 with
  | scalar value =>
    rw [hvalue] at h
    dsimp only
    rw [hbuffer, Option.getD_some, SeriesBufferStorage.items_append h]
    rfl
  | histogram point =>
    rw [hvalue] at h
    dsimp only
    rw [hbuffer, Option.getD_some, SeriesBufferStorage.items_appendHistogram h]
    rfl

theorem conforms_insert {state : SeriesState ν} {sample : MetricSample ν}
    (h : state.Conforms sample.value.kind) :
    (state.insert F sample).Conforms sample.value.kind := by
  have hkind := resolve_kind F state sample
  have hbuffer := resolve_buffer F state sample
  rw [← hkind] at h ⊢
  simp only [SeriesState.Conforms, SeriesState.insert] at h ⊢
  cases hvalue : (state.resolve F sample).1 with
  | scalar value =>
    rw [hvalue] at h
    dsimp only
    rw [hbuffer]
    exact SeriesBufferStorage.conforms_append h
  | histogram point => exact SeriesBufferStorage.conforms_appendHistogram

end

/-! ### Flushes -/

/-- What a snapshot has of a series is what its buffer had. -/
theorem ofState_spec (labels : SeriesLabels) {kind : SeriesRowKind} {state : SeriesState ν}
    (h : state.Conforms kind) :
    match SnapshotSeries.ofState labels state with
    | some series =>
      series.labels = labels ∧ series.items = state.items labels ∧ series.Conforms kind
    | none => state.items labels = 0 := by
  rw [SeriesState.Conforms] at h
  rw [SeriesState.items, SnapshotSeries.ofState]
  cases hbuffer : state.buffer with
  | none => rfl
  | some storage =>
    rw [hbuffer] at h
    dsimp only [Option.getD_some] at h ⊢
    by_cases hsamples : storage.hasSamples = true
    · rw [Option.filter_some, if_pos hsamples, Option.map_some]
      have hitems : (storage.promote state.lastTs).items labels = storage.items labels :=
        SeriesBufferStorage.items_promote
      cases storage with
      | empty => cases hsamples
      | inline ts value =>
        rw [← hitems]
        obtain rfl : kind = .scalar := h
        have hclosed : ((SeriesBuffer.new.observe ts).put state.lastTs (ts, value)).closed = [] := by
          rw [SeriesBuffer.put]
          split <;> rfl
        refine ⟨rfl, ?_, rfl⟩
        simp only [SnapshotSeries.items, SeriesBufferStorage.promote, SeriesBufferStorage.items,
          SeriesBuffer.samples]
        split <;> simp_all
      | stream buffer =>
        obtain rfl : kind = .scalar := h
        refine ⟨rfl, ?_, rfl⟩
        simp only [SnapshotSeries.items, SeriesBufferStorage.items, SeriesBuffer.samples]
        split <;> simp_all
      | histogram buffer =>
        obtain rfl : kind = .histogram := h
        refine ⟨rfl, ?_, rfl, rfl, ?_⟩
        · simp [SnapshotSeries.items, SeriesBufferStorage.items]
        · simpa [SeriesBufferStorage.hasSamples] using hsamples
    · rw [Option.filter_some, if_neg hsamples]
      exact SeriesBufferStorage.items_of_not_hasSamples (by simpa using hsamples)

theorem snapshotItems_append (first second : List (SnapshotSeries ν)) :
    snapshotItems (first ++ second) = snapshotItems first + snapshotItems second := by
  rw [snapshotItems, List.map_append, List.sum_append]
  rfl

/-- **A flush takes the samples of every series.** -/
theorem snapshotItems_filterMap (h : ∀ entry ∈ series, entry.2.Conforms (shape entry.1)) :
    snapshotItems (series.filterMap fun entry => SnapshotSeries.ofState entry.1 entry.2) =
      itemsOf series := by
  induction series with
  | nil => rfl
  | cons entry rest ih =>
    rw [List.forall_mem_cons] at h
    have hrest := ih h.2
    have hentry := ofState_spec entry.1 h.1
    rw [List.filterMap_cons]
    split at hentry
    · rename_i snapped hsnapped
      rw [hsnapped]
      simp only [snapshotItems, itemsOf, List.map_cons, List.sum_cons] at hrest ⊢
      rw [hrest, hentry.2.1]
    · rename_i hnone
      rw [hnone, hrest]
      simp only [itemsOf, List.map_cons, List.sum_cons]
      rw [hentry, zero_add]

/-- A buffer that a flush has emptied has nothing. -/
theorem itemsOf_emptied (series : TenantSeries ν) :
    itemsOf (series.map fun entry => (entry.1, { entry.2 with buffer := none })) = 0 := by
  induction series with
  | nil => rfl
  | cons entry rest ih =>
    simp only [itemsOf, List.map_cons, List.sum_cons] at ih ⊢
    rw [ih, add_zero]
    rfl

theorem isHistogram_of_conforms {snapped : SnapshotSeries ν} {kind : SeriesRowKind}
    (h : snapped.Conforms kind) : snapped.isHistogram = decide (kind = .histogram) := by
  cases kind with
  | scalar =>
    have hpoints : snapped.points = [] := h
    simp [SnapshotSeries.isHistogram, hpoints]
  | histogram =>
    have hpoints : snapped.points ≠ [] := h.2.2
    simpa [SnapshotSeries.isHistogram] using hpoints

/-- **A series goes back as it was taken.** -/
theorem items_restoreSeries {snapped : SnapshotSeries ν} {state : SeriesState ν}
    {kind : SeriesRowKind} (hsnapped : snapped.Conforms kind) (h : state.Conforms kind) :
    (SeriesMemTable.restoreSeries snapped state).items snapped.labels =
      state.items snapped.labels + snapped.items := by
  rw [SeriesState.Conforms] at h
  simp only [SeriesState.items, SeriesMemTable.restoreSeries, Option.getD_some,
    SeriesBufferStorage.items_absorb]
  have hshape := isHistogram_of_conforms hsnapped
  cases kind with
  | scalar =>
    have hpoints : snapped.points = [] := hsnapped
    rw [if_neg (by simpa using hshape), SeriesBufferStorage.items_prependAborted h]
    simp [SnapshotSeries.items, hpoints]
  | histogram =>
    obtain ⟨hchunks, hspill, -⟩ := hsnapped
    rw [if_pos (by simpa using hshape)]
    cases hstorage : state.buffer.getD .empty with
    | empty => simp [SnapshotSeries.items, SeriesBufferStorage.items, hchunks, hspill]
    | histogram buffer =>
      simp only [SnapshotSeries.items, SeriesBufferStorage.items, hchunks, hspill, List.map_append,
        ← Multiset.coe_add, List.flatten_nil, List.append_nil, List.map_nil, Multiset.coe_nil]
      abel
    | _ =>
      rw [hstorage] at h
      cases h

theorem conforms_restoreSeries {snapped : SnapshotSeries ν} {state : SeriesState ν}
    {kind : SeriesRowKind} (hsnapped : snapped.Conforms kind) (h : state.Conforms kind) :
    (SeriesMemTable.restoreSeries snapped state).Conforms kind := by
  rw [SeriesState.Conforms] at h ⊢
  simp only [SeriesMemTable.restoreSeries, Option.getD_some, SeriesBufferStorage.conforms_absorb]
  have hshape := isHistogram_of_conforms hsnapped
  cases kind with
  | scalar =>
    rw [if_neg (by simpa using hshape)]
    exact SeriesBufferStorage.conforms_prependAborted h
  | histogram =>
    rw [if_pos (by simpa using hshape)]
    cases hstorage : state.buffer.getD .empty with
    | empty => rfl
    | histogram buffer => rfl
    | _ =>
      rw [hstorage] at h
      cases h

/-- The second section of an abort. -/
def restored (snapshot : List (SnapshotSeries ν)) (series : TenantSeries ν) : TenantSeries ν :=
  snapshot.foldl (fun series snapped =>
    TenantSeries.modify snapped.labels (SeriesMemTable.restoreSeries snapped) series) series

theorem TenantSeries.Valid.restored {snapshot : List (SnapshotSeries ν)} (h : series.Valid shape)
    (hsnapshot : ∀ snapped ∈ snapshot, snapped.Conforms (shape snapped.labels)) :
    (restored snapshot series).Valid shape := by
  induction snapshot generalizing series with
  | nil => exact h
  | cons snapped rest ih =>
    rw [List.forall_mem_cons] at hsnapshot
    exact ih (h.modify fun _ hstate => conforms_restoreSeries hsnapshot.1 hstate) hsnapshot.2

theorem itemsOf_restored {snapshot : List (SnapshotSeries ν)} (h : series.Valid shape)
    (hsnapshot : ∀ snapped ∈ snapshot, snapped.Conforms (shape snapped.labels)) :
    itemsOf (restored snapshot series) = itemsOf series + snapshotItems snapshot := by
  induction snapshot generalizing series with
  | nil => exact (add_zero _).symm
  | cons snapped rest ih =>
    rw [List.forall_mem_cons] at hsnapshot
    have hmodify := itemsOf_modify (items_restoreSeries hsnapshot.1 h.stateOf)
    have hrest := ih (h.modify fun _ hstate => conforms_restoreSeries hsnapshot.1 hstate)
      hsnapshot.2
    rw [hmodify, add_assoc] at hrest
    exact hrest

theorem mem_keys_restored {snapshot : List (SnapshotSeries ν)} (h : labels ∈ series.map Prod.fst) :
    labels ∈ (restored snapshot series).map Prod.fst := by
  induction snapshot generalizing series with
  | nil => exact h
  | cons snapped rest ih => exact ih (mem_keys_modify.2 (.inl h))

/-! ### Keys -/

theorem key_of_mem_items {storage : SeriesBufferStorage ν} {sample : StoredSample ν}
    (h : sample ∈ storage.items labels) : sample.1 = labels := by
  cases storage with
  | empty => cases h
  | inline ts value => exact Multiset.mem_singleton.1 h ▸ rfl
  | stream buffer =>
    obtain ⟨_, _, rfl⟩ := List.mem_map.1 h
    rfl
  | histogram buffer =>
    obtain ⟨_, _, rfl⟩ := List.mem_map.1 h
    rfl

theorem key_of_mem_snapshot {snapped : SnapshotSeries ν} {sample : StoredSample ν}
    (h : sample ∈ snapped.items) : sample.1 = snapped.labels := by
  rcases Multiset.mem_add.1 h with h | h
  all_goals
    obtain ⟨_, _, rfl⟩ := List.mem_map.1 h
    rfl

theorem exists_of_mem_itemsOf {sample : StoredSample ν} (h : sample ∈ itemsOf series) :
    ∃ entry ∈ series, sample ∈ entry.2.items entry.1 := by
  induction series with
  | nil => cases h
  | cons entry rest ih =>
    rw [itemsOf, List.map_cons, List.sum_cons] at h
    rcases Multiset.mem_add.1 h with h | h
    · exact ⟨entry, List.mem_cons_self, h⟩
    · obtain ⟨other, hother, hmem⟩ := ih h
      exact ⟨other, List.mem_cons_of_mem _ hother, hmem⟩

/-- A list of multisets whose items all have one key each, filtered by key. -/
theorem filter_sum {γ α κ : Type} [DecidableEq κ] (list : List γ) (name : γ → κ)
    (items : γ → Multiset α) (keyOf : α → κ) (h : ∀ c ∈ list, ∀ a ∈ items c, keyOf a = name c)
    (k : κ) :
    ((list.map items).sum.filter fun a => keyOf a = k) =
      ((list.filter fun c => name c = k).map items).sum := by
  induction list with
  | nil => rfl
  | cons c rest ih =>
    rw [List.forall_mem_cons] at h
    rw [List.map_cons, List.sum_cons, Multiset.filter_add, ih h.2]
    by_cases hc : name c = k
    · rw [List.filter_cons_of_pos (by simpa using hc), List.map_cons, List.sum_cons,
        Multiset.filter_eq_self.2 fun a ha => (h.1 a ha).trans hc]
    · rw [List.filter_cons_of_neg (by simpa using hc),
        Multiset.filter_eq_nil.2 fun a ha heq => hc ((h.1 a ha).symm.trans heq), zero_add]

theorem filter_snapshotItems (snapshot : List (SnapshotSeries ν)) (labels : SeriesLabels) :
    ((snapshotItems snapshot).filter fun sample => sample.1 = labels) =
      snapshotItems (snapshot.filter (·.labels = labels)) :=
  filter_sum snapshot SnapshotSeries.labels SnapshotSeries.items Prod.fst
    (fun _ _ _ h => key_of_mem_snapshot h) labels

/-- The samples of a series are those of its entry. -/
theorem filter_itemsOf (h : (series.map Prod.fst).Nodup) (labels : SeriesLabels) :
    ((itemsOf series).filter fun sample => sample.1 = labels) =
      (stateOf series labels).items labels := by
  rw [itemsOf, filter_sum series Prod.fst (fun entry => entry.2.items entry.1) Prod.fst
    fun _ _ _ h => key_of_mem_items h]
  induction series with
  | nil => rfl
  | cons entry rest ih =>
    obtain ⟨key, state⟩ := entry
    rw [List.map_cons, List.nodup_cons] at h
    rw [stateOf_cons]
    by_cases hkey : labels = key
    · subst hkey
      have hnone : rest.filter (fun entry => entry.1 = labels) = [] :=
        List.filter_eq_nil_iff.2 fun entry hentry heq =>
          h.1 (List.mem_map.2 ⟨entry, hentry, of_decide_eq_true heq⟩)
      rw [if_pos rfl, List.filter_cons_of_pos (by simp), hnone, List.map_singleton,
        List.sum_singleton]
    · rw [if_neg hkey, List.filter_cons_of_neg (by simpa using Ne.symm hkey), ih h.2]

/-! ### Forgotten series -/

/-- A series with samples is not forgotten. -/
theorem hasSamples_of_mem_items {state : SeriesState ν} {labels : SeriesLabels}
    {item : StoredSample ν} (h : item ∈ state.items labels) : state.hasSamples = true := by
  rw [SeriesState.items] at h
  rw [SeriesState.hasSamples]
  cases hbuffer : state.buffer with
  | none =>
    rw [hbuffer] at h
    cases h
  | some storage =>
    rw [hbuffer] at h
    by_contra hnone
    have hempty : storage.hasSamples = false := by simpa using hnone
    rw [Option.getD_some, SeriesBufferStorage.items_of_not_hasSamples hempty] at h
    cases h

theorem itemsOf_filter {series : TenantSeries ν} {keep : SeriesLabels × SeriesState ν → Bool}
    (h : ∀ entry ∈ series, entry.2.hasSamples = true → keep entry = true) :
    itemsOf (series.filter keep) = itemsOf series := by
  induction series with
  | nil => rfl
  | cons entry rest ih =>
    rw [List.forall_mem_cons] at h
    have hrest := ih h.2
    rw [List.filter_cons]
    split
    · simp only [itemsOf, List.map_cons, List.sum_cons] at hrest ⊢
      rw [hrest]
    · rename_i hdrop
      have hnone : entry.2.items entry.1 = 0 := by
        refine Multiset.eq_zero_of_forall_notMem fun item hitem => hdrop ?_
        exact h.1 (hasSamples_of_mem_items hitem)
      rw [hrest]
      simp only [itemsOf, List.map_cons, List.sum_cons]
      rw [hnone, zero_add]

theorem retire_keeps (snapshot : SeriesSnapshot ν) (tenant : String)
    {entry : SeriesLabels × SeriesState ν}
    (h : entry.2.hasSamples = true) :
    (!((snapshot tenant).any (·.labels == entry.1) && !entry.2.hasSamples &&
      !entry.2.carriesATotal && entry.2.reservation.isNone)) = true := by
  simp [h]

/-! ### The table -/

section

variable [DecidableEq ν] (F : Floats ν) (tenant : String)

/-- What is stored of a batch, sample by sample. -/
def acceptedOf (memtable : SeriesMemTable ν) :
    List (MetricSample ν) → Multiset (StoredSample ν)
  | [] => 0
  | sample :: rest =>
    let state := stateOf (memtable.inner sample.tenant) sample.labels
    (if sample.tenant = tenant then {(sample.labels, sample.tsNs, (state.resolve F sample).1)}
      else 0) + acceptedOf (memtable.insertSample F sample) rest

def flushingIn (memtable : SeriesMemTable ν) : List (SnapshotSeries ν) :=
  memtable.flushing.elim [] (· tenant)

def seriesTable :
    Table (SeriesMemTable ν) (SeriesSnapshot ν) (List (MetricSample ν)) (StoredSample ν)
      SeriesLabels where
  live memtable := itemsOf (memtable.inner tenant)
  frozen memtable := snapshotItems (flushingIn tenant memtable)
  items snapshot := snapshotItems (snapshot tenant)
  keyOf sample := sample.1
  keys memtable := memtable.seriesLabels tenant
  insert := SeriesMemTable.insert F
  accepted := acceptedOf F tenant
  beginFlush := SeriesMemTable.beginFlush
  snapshot memtable := memtable.flushing
  commitFlush := SeriesMemTable.commitFlush
  abortClear := SeriesMemTable.abortClear
  abortRestore := SeriesMemTable.abortRestore
  retireFlushed := SeriesMemTable.retireFlushed
  readAll memtable := itemsOf (memtable.inner tenant) + snapshotItems (flushingIn tenant memtable)
  readFrozen memtable labels := snapshotItems (memtable.flushingOf tenant labels)
  readLive memtable labels := ((memtable.bufferOf tenant labels).getD .empty).items labels

/-- Aborts and reads are two sections each, and a histogram is looked at first. -/
def seriesDiscipline (shape : SeriesLabels → SeriesRowKind) : Discipline SeriesLabels :=
  ⟨false, false, fun labels => shape labels = .histogram⟩

variable (shape : SeriesLabels → SeriesRowKind)

/-- The samples of the tenant have the shape of their series. -/
def FitsShape (_ : SeriesMemTable ν) (batch : List (MetricSample ν)) : Prop :=
  ∀ sample ∈ batch, sample.tenant = tenant → sample.value.kind = shape sample.labels

structure SeriesMemTable.Valid (memtable : SeriesMemTable ν) : Prop where
  inner : (memtable.inner tenant).Valid shape
  flushing : ∀ snapped ∈ flushingIn tenant memtable, snapped.Conforms (shape snapped.labels)

variable {F tenant shape} {memtable : SeriesMemTable ν} {sample : MetricSample ν}

theorem insertSample_inner :
    (memtable.insertSample F sample).inner tenant =
      if tenant = sample.tenant then
        TenantSeries.modify sample.labels (fun state => state.insert F sample)
          (memtable.inner tenant)
      else memtable.inner tenant := rfl

theorem flushing_insert (samples : List (MetricSample ν)) :
    (memtable.insert F samples).flushing = memtable.flushing := by
  induction samples generalizing memtable with
  | nil => rfl
  | cons sample rest ih => exact ih

/-- One sample of a batch. -/
theorem SeriesMemTable.Valid.insertSample (h : memtable.Valid tenant shape)
    (hfits : sample.tenant = tenant → sample.value.kind = shape sample.labels) :
    (memtable.insertSample F sample).Valid tenant shape := by
  refine ⟨?_, h.flushing⟩
  rw [insertSample_inner]
  split
  · rename_i htenant
    refine h.inner.modify fun state hstate => ?_
    rw [← hfits htenant.symm] at hstate ⊢
    exact conforms_insert F hstate
  · exact h.inner

theorem itemsOf_insertSample (h : memtable.Valid tenant shape)
    (hfits : sample.tenant = tenant → sample.value.kind = shape sample.labels) :
    itemsOf ((memtable.insertSample F sample).inner tenant) =
      itemsOf (memtable.inner tenant) + acceptedOf F tenant memtable [sample] := by
  rw [insertSample_inner, acceptedOf, acceptedOf, add_zero]
  by_cases htenant : tenant = sample.tenant
  · subst htenant
    rw [if_pos rfl, if_pos rfl]
    refine itemsOf_modify (items_insert F ?_)
    rw [hfits rfl]
    exact h.inner.stateOf
  · rw [if_neg htenant, if_neg (Ne.symm htenant), add_zero]

/-- **A batch is in the memtable, sample by sample.** -/
theorem SeriesMemTable.Valid.insert {samples : List (MetricSample ν)}
    (h : memtable.Valid tenant shape) (hfits : FitsShape tenant shape memtable samples) :
    (memtable.insert F samples).Valid tenant shape ∧
      itemsOf ((memtable.insert F samples).inner tenant) =
        itemsOf (memtable.inner tenant) + acceptedOf F tenant memtable samples := by
  induction samples generalizing memtable with
  | nil => exact ⟨h, (add_zero _).symm⟩
  | cons sample rest ih =>
    rw [FitsShape, List.forall_mem_cons] at hfits
    obtain ⟨hvalid, hitems⟩ := ih (h.insertSample (F := F) hfits.1) hfits.2
    refine ⟨hvalid, hitems.trans ?_⟩
    rw [itemsOf_insertSample h hfits.1]
    simp only [acceptedOf, add_zero, add_assoc]

/-- The series of a tenant stay. -/
theorem mem_keys_insert {samples : List (MetricSample ν)} {labels : SeriesLabels}
    (h : labels ∈ memtable.seriesLabels tenant) :
    labels ∈ (memtable.insert F samples).seriesLabels tenant := by
  induction samples generalizing memtable with
  | nil => exact h
  | cons sample rest ih =>
    refine ih ?_
    rw [SeriesMemTable.seriesLabels, insertSample_inner]
    split
    · exact mem_keys_modify.2 (.inl h)
    · exact h

theorem mem_keys_accepted {samples : List (MetricSample ν)} {item : StoredSample ν}
    (h : item ∈ acceptedOf F tenant memtable samples) :
    item.1 ∈ (memtable.insert F samples).seriesLabels tenant := by
  induction samples generalizing memtable with
  | nil => cases h
  | cons sample rest ih =>
    rw [acceptedOf] at h
    rcases Multiset.mem_add.1 h with h | h
    · split at h
      · rename_i htenant
        obtain rfl := Multiset.mem_singleton.1 h
        have hkey : sample.labels ∈ (memtable.insertSample F sample).seriesLabels tenant := by
          rw [SeriesMemTable.seriesLabels, insertSample_inner, if_pos htenant.symm]
          exact mem_keys_modify.2 (.inr rfl)
        have hinserted : sample.labels ∈
            ((memtable.insertSample F sample).insert F rest).seriesLabels tenant :=
          mem_keys_insert hkey
        exact hinserted
      · cases h
    · exact ih h

omit [DecidableEq ν] in
/-- What a flush takes has the shape that it had. -/
theorem SeriesMemTable.Valid.beginFlush (h : memtable.Valid tenant shape) :
    memtable.beginFlush.Valid tenant shape := by
  refine ⟨⟨?_, fun entry hentry => ?_⟩, fun snapped hsnapped => ?_⟩
  · simpa [SeriesMemTable.beginFlush, Function.comp_def] using h.inner.nodup
  · obtain ⟨old, _, rfl⟩ := List.mem_map.1 hentry
    trivial
  · rcases List.mem_append.1 hsnapped with hsnapped | hsnapped
    · exact h.flushing snapped hsnapped
    · obtain ⟨entry, hentry, hof⟩ := List.mem_filterMap.1 hsnapped
      have hspec := ofState_spec entry.1 (h.inner.conforms entry hentry)
      rw [hof] at hspec
      exact hspec.1 ▸ hspec.2.2

theorem seriesTable_lawful (F : Floats ν) (tenant : String)
    (shape : SeriesLabels → SeriesRowKind) :
    (seriesTable F tenant).Lawful (SeriesMemTable.Valid tenant shape)
      (fun snapshot => ∀ snapped ∈ snapshot tenant, snapped.Conforms (shape snapped.labels))
      (FitsShape tenant shape) where
  insert_valid _ _ h hfits := (h.insert hfits).1
  live_insert _ _ h hfits := (h.insert hfits).2
  frozen_insert memtable samples := by
    simp only [seriesTable, flushingIn, flushing_insert]
  keys_insert _ _ _ h := mem_keys_insert h
  keys_accepted _ _ _ h := mem_keys_accepted h
  begin_valid _ h := h.beginFlush
  live_begin _ := itemsOf_emptied _
  frozen_begin memtable h :=
    (snapshotItems_append ..).trans
      (congrArg _ (snapshotItems_filterMap h.inner.conforms))
  keys_begin memtable := by
    simp [seriesTable, SeriesMemTable.seriesLabels, SeriesMemTable.beginFlush]
  snapshot_begin memtable snapshot h hs := by
    obtain rfl := Option.some.inj hs
    exact ⟨rfl, h.beginFlush.flushing⟩
  commit_valid _ h := ⟨h.inner, fun _ hmem => absurd hmem List.not_mem_nil⟩
  live_commit _ := rfl
  frozen_commit _ := rfl
  keys_commit _ := rfl
  clear_valid _ h := ⟨h.inner, fun _ hmem => absurd hmem List.not_mem_nil⟩
  live_clear _ := rfl
  frozen_clear _ := rfl
  keys_clear _ := rfl
  restore_valid _ _ h hs := ⟨h.inner.restored hs, h.flushing⟩
  live_restore _ _ h hs := itemsOf_restored h.inner hs
  frozen_restore _ _ := rfl
  keys_restore _ _ _ h := mem_keys_restored h
  retire_valid _ _ h :=
    ⟨⟨h.inner.nodup.sublist (List.filter_sublist.map _),
      fun _ hentry => h.inner.conforms _ (List.mem_of_mem_filter hentry)⟩, h.flushing⟩
  live_retire _ _ _ := itemsOf_filter fun _ _ hsamples => retire_keeps _ _ hsamples
  frozen_retire _ _ := rfl
  keys_retire memtable snapshot item h hitem _ := by
    obtain ⟨entry, hentry, hmem⟩ := exists_of_mem_itemsOf hitem
    have hkept := retire_keeps snapshot tenant (hasSamples_of_mem_items hmem)
    refine List.mem_map.2 ⟨entry, List.mem_filter.2 ⟨hentry, hkept⟩, ?_⟩
    exact (key_of_mem_items hmem).symm
  keys_nodup _ h := h.inner.nodup
  readAll_eq _ := rfl
  readFrozen_eq memtable labels := by
    refine Eq.trans ?_ (filter_snapshotItems ..).symm
    simp only [seriesTable, SeriesMemTable.flushingOf, flushingIn]
    cases memtable.flushing <;> rfl
  readLive_eq memtable labels h := by
    refine Eq.trans ?_ (filter_itemsOf h.inner.nodup labels).symm
    simp only [seriesTable, SeriesMemTable.bufferOf, stateOf]
    cases (memtable.inner tenant).lookup labels <;> rfl

/-! ### Reads -/

end

end Metrics

end Obsy
