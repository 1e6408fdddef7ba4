import Obsy.Catalog.Agreement
import Obsy.Catalog.Publish

/-!
# The catalog and the deleted files

A process publishes, replaces and removes parts, rolls flushes back, compacts metrics and loads the
catalog, all at the same time, and other processes do so too.

* `WriterTask`, `writerMachine`: such runs.
* `Calm`: a turn that keeps the callers' rules, and in which no task that deletes files is misled
  by the catalog in memory.
* `listed_not_deleted`: in a calm run no load from the store lists a part of which a file was
  deleted before.
* `listed_deleted`: a flush whose publication fails between the two replicas of its commit is rolled
  back by the catalog in memory, and the next load lists its parts.
-/

namespace Obsy

namespace Catalog

open Machine Machine.Program

variable (digests : Digests) {f : Footprint} {s : Shared}

/-! ### Carrying out -/

/-- No two active parts of a signal have one name. -/
def CatalogState.Distinct (state : CatalogState) : Prop :=
  ∀ signal, ((state.listed signal).map (·.id)).Nodup

/-- The inputs that a mutation replaces are active. -/
def CatalogMutation.FindsIn (mutation : CatalogMutation) (state : CatalogState) : Prop :=
  ∀ signal, mutation.Replaces signal → ∀ id ∈ mutation.removed signal, state.Lists signal id

/-- A decision that a task may carry out on a state. -/
def Plan.Suits (f : Footprint) (fresh : TransactionId) (state : CatalogState) : Plan → Prop
  | .settled => f.Deletes → f.Content state
  | .refused _ => True
  | .commit mutation =>
    f.Owns mutation ∧ mutation.transactionId = fresh.value ∧ mutation.FindsIn state

theorem Shared.Seen.distinct {state : CatalogState} (h : s.Seen state) : state.Distinct := by
  intro signal
  rcases Nat.eq_zero_or_pos state.generation with hzero | hpos
  · have hreplay := h.2
    rw [hzero, List.take_zero] at hreplay
    rw [← Except.ok.inj hreplay]
    cases signal <;> exact List.nodup_nil
  · obtain ⟨_, _, -, happlied⟩ := h.last hpos
    exact happlied.nodup signal

/-- **What is carried out leaves nothing listed that the task deletes.** -/
theorem safe_carryOut (process : ProcessId) (fresh : TransactionId) {plan : CatalogState → Plan}
    (hplan : ∀ state, state.Distinct → (plan state).Suits f fresh state) :
    safe f (carryOut digests process fresh plan) (fun _ t => t.Gone f) s := by
  refine safe_bind _ (safe_loadCatalogState digests process) fun r t _ hload => ?_
  obtain ⟨state, fromStore⟩ := r
  refine safe_bind _ (safe_checkEpoch process state.writerEpoch) fun held u htu _ => ?_
  have hsuits := hplan state hload.1.distinct
  cases hdecided : plan state with
  | settled =>
    rw [hdecided] at hsuits
    refine safe_pure ?_
    by_cases hdeletes : f.Deletes
    · have hcontent := hsuits hdeletes
      exact (hload.1.grown htu.grown).gone hcontent ((hload.2.2 hcontent).later htu)
    · exact Shared.gone_of_not_deletes hdeletes u
  | refused error => exact safe_throw _
  | commit mutation =>
    rw [hdecided] at hsuits
    obtain ⟨howns, htransaction, hfinds⟩ := hsuits
    have hidentified : mutation.identified fresh = mutation :=
      if_neg (htransaction ▸ fresh.nonempty)
    refine safe_bind _ (safe_act fun v huv _ =>
      ⟨state, (hload.1.grown htu.grown).grown huv.grown, rfl, hfinds⟩) fun _ _ _ _ => ?_
    exact safe_bind _ (safe_commitCatalogMutation digests process mutation fresh
      (by rw [hidentified]; exact howns)) fun c v _ hc => safe_pure hc.2.2

theorem safe_eachFile {request : PartObject → CatalogProgram Unit} {signal : Signal}
    {parts : List ManifestPart}
    (h : ∀ part ∈ parts, ∀ file t, f.Later s t →
      safe f (request ⟨signal, part, file⟩) (fun _ _ => True) t) :
    safe f (eachFile request signal parts) (fun _ _ => True) s := by
  refine safe_bind _ (safe_each fun part hpart t hst => safe_each fun file _ u htu => ?_)
    fun _ _ _ _ => safe_pure trivial
  exact h part hpart file u (hst.trans htu)

theorem safe_uploadParts (signal : Signal) (parts : List ManifestPart) :
    safe f (uploadParts signal parts) (fun _ _ => True) s :=
  safe_eachFile fun _ _ _ _ _ => safe_act fun _ _ _ => trivial

theorem safe_deletePartObjects {signal : Signal} {parts : List ManifestPart}
    (hparts : ∀ part ∈ parts, f.deletes signal part.id) (hgone : s.Gone f) :
    safe f (deletePartObjects signal parts) (fun _ _ => True) s :=
  safe_eachFile fun part hpart _ _ hst => safe_act fun _ htu _ =>
    ⟨hparts part hpart, (hgone.later hst).later htu⟩

/-! ### Tasks -/

/-- What a process may be asked for. -/
inductive WriterTask
  /-- `load_catalog_state`. -/
  | load
  /-- `claim_writer_epoch`. -/
  | claim (fresh : TransactionId)
  /-- `publish_flush_parts`. -/
  | publishFlush (transaction : FlushTransaction) (fresh : TransactionId)
  /-- `rollback_flush_transaction`. -/
  | rollback (transaction : FlushTransaction) (fresh : TransactionId)
  /-- `publish`, with or without parts to remove. -/
  | publish (added : List ManifestPart) (removed : List String) (fresh : TransactionId)
  /-- `publish_trace_parts`. -/
  | publishTraces (added : List TraceManifestPart) (fresh : TransactionId)
  /-- `replace_trace_parts`. -/
  | replaceTraces (added removed : List TraceManifestPart) (fresh : TransactionId)
  /-- `remove_trace_parts`. -/
  | removeTraces (removed : List TraceManifestPart) (fresh : TransactionId)
  /-- `publish_metric_parts`. -/
  | publishMetrics (added removed : List MetricManifestPart) (fresh : TransactionId)
  /-- `remove_metric_parts`. -/
  | removeMetrics (removed : List MetricManifestPart) (fresh : TransactionId)
  /-- A metric compaction, whose output is not one of its inputs. -/
  | compactMetrics (added inputs : List MetricManifestPart) (fresh : TransactionId)
    (hnew : ∀ part ∈ added, part.id ∉ partIds inputs)

namespace WriterTask

/-- The parts a task adds. -/
def added : WriterTask → Signal → List ManifestPart
  | publishFlush transaction _, signal => transaction.parts signal
  | publish added _ _, .logs => added
  | publishTraces added _, .traces => added
  | replaceTraces added _ _, .traces => added
  | publishMetrics added _ _, .metrics => added
  | compactMetrics added _ _ _, .metrics => added
  | _, _ => []

/-- The parts whose files a task deletes. -/
def doomed : WriterTask → Signal → List ManifestPart
  | rollback transaction _, signal => transaction.parts signal
  | compactMetrics _ inputs _ _, .metrics => inputs
  | _, _ => []

/-- The transaction of a task's commit. -/
def transaction : WriterTask → Option String
  | load => none
  | claim fresh | publishFlush _ fresh | rollback _ fresh | publish _ _ fresh
  | publishTraces _ fresh | replaceTraces _ _ fresh | removeTraces _ fresh
  | publishMetrics _ _ fresh | removeMetrics _ fresh | compactMetrics _ _ fresh _ =>
    some fresh.value

theorem added_not_doomed (task : WriterTask) (signal : Signal) (id : String)
    (hadded : id ∈ partIds (task.added signal)) : id ∉ partIds (task.doomed signal) := by
  cases task with
  | compactMetrics added inputs fresh hnew =>
    cases signal with
    | metrics =>
      obtain ⟨part, hpart, rfl⟩ := List.mem_map.1 hadded
      exact hnew part hpart
    | logs => exact List.not_mem_nil
    | traces => exact List.not_mem_nil
  | rollback transaction fresh => cases hadded
  | _ => exact List.not_mem_nil

def footprint (task : WriterTask) : Footprint where
  adds signal id := id ∈ partIds (task.added signal)
  deletes signal id := id ∈ partIds (task.doomed signal)
  carries transaction := task.transaction = some transaction
  disjoint := task.added_not_doomed

end WriterTask

/-- What a task returns. -/
inductive WriterResult
  /-- The catalog, and whether it was read from the store. -/
  | loaded (state : CatalogState) (fromStore : Bool)
  /-- Another task succeeded. -/
  | done
deriving DecidableEq

def writerProgram (writer : ProcessId) : WriterTask → CatalogProgram WriterResult
  | .load => do
    let (state, fromStore) ← loadCatalogState digests writer
    return .loaded state fromStore
  | .claim fresh => do
    let _ ← claimWriterEpoch digests writer fresh
    return .done
  | .publishFlush transaction fresh => do
    let _ ← publishFlushParts digests writer fresh transaction
    return .done
  | .rollback transaction fresh => do
    rollbackFlushTransaction digests writer fresh transaction
    return .done
  | .publish added removed fresh => do
    let _ ← publish digests writer fresh added removed
    return .done
  | .publishTraces added fresh => do
    let _ ← publishTraceParts digests writer fresh added
    return .done
  | .replaceTraces added removed fresh => do
    let _ ← replaceTraceParts digests writer fresh added removed
    return .done
  | .removeTraces removed fresh => do
    let _ ← removeTraceParts digests writer fresh removed
    return .done
  | .publishMetrics added removed fresh => do
    let _ ← publishMetricParts digests writer fresh added removed
    return .done
  | .removeMetrics removed fresh => do
    let _ ← removeMetricParts digests writer fresh removed
    return .done
  | .compactMetrics added inputs fresh _ => do
    compactMetricParts digests writer fresh added inputs
    return .done

/-! ### Decisions suit their tasks -/

theorem mem_partIds {parts : List ManifestPart} {id : String} :
    id ∈ partIds parts ↔ ∃ part ∈ parts, part.id = id := List.mem_map

@[simp] theorem signalMutation_transactionId (signal : Signal) (fresh : TransactionId)
    (writerEpoch : ℕ) (added : List ManifestPart) (removed : List String) :
    (signalMutation signal fresh writerEpoch added removed).transactionId = fresh.value := by
  cases signal <;> rfl

theorem signalMutation_added (signal : Signal) (fresh : TransactionId) (writerEpoch : ℕ)
    (added : List ManifestPart) (removed : List String) (other : Signal) :
    (signalMutation signal fresh writerEpoch added removed).added other =
      if other = signal then added else [] := by
  cases signal <;> cases other <;> rfl

theorem signalMutation_removed (signal : Signal) (fresh : TransactionId) (writerEpoch : ℕ)
    (added : List ManifestPart) (removed : List String) (other : Signal) :
    (signalMutation signal fresh writerEpoch added removed).removed other =
      if other = signal then removed else [] := by
  cases signal <;> cases other <;> rfl

/-- A mutation that adds the parts of a task that deletes nothing. -/
theorem owns_of_added {task : WriterTask} {mutation : CatalogMutation}
    (hdoomed : ∀ signal, task.doomed signal = [])
    (hadded : ∀ signal, mutation.added signal ⊆ task.added signal)
    (hcarries : task.transaction = some mutation.transactionId) : task.footprint.Owns mutation where
  adds signal id := fun ⟨part, hpart, hid⟩ => mem_partIds.2 ⟨part, hadded signal hpart, hid⟩
  carries := hcarries
  settles := fun ⟨signal, id, hdeletes⟩ => by
    have hdeletes : id ∈ partIds (task.doomed signal) := hdeletes
    rw [hdoomed] at hdeletes
    cases hdeletes

theorem not_deletes_of_doomed {task : WriterTask} (hdoomed : ∀ signal, task.doomed signal = []) :
    ¬ task.footprint.Deletes := by
  rintro ⟨signal, id, hdeletes⟩
  have hdeletes : id ∈ partIds (task.doomed signal) := hdeletes
  rw [hdoomed] at hdeletes
  cases hdeletes

/-- A plan whose mutations are a task's own, for a task that deletes nothing. -/
theorem suits_of_owns {task : WriterTask} {fresh : TransactionId} {state : CatalogState}
    {plan : Plan} (hdoomed : ∀ signal, task.doomed signal = [])
    (hfresh : task.transaction = some fresh.value)
    (hplan : ∀ mutation, plan = .commit mutation → mutation.transactionId = fresh.value ∧
      (∀ signal, mutation.added signal ⊆ task.added signal) ∧ mutation.FindsIn state) :
    plan.Suits task.footprint fresh state := by
  cases plan with
  | settled => exact fun hdeletes => absurd hdeletes (not_deletes_of_doomed hdoomed)
  | refused error => trivial
  | commit mutation =>
    obtain ⟨htransaction, hadded, hfinds⟩ := hplan mutation rfl
    exact ⟨owns_of_added hdoomed hadded (htransaction ▸ hfresh), htransaction, hfinds⟩

/-- Where as many parts are active as are named, those are. -/
theorem lists_of_presentCount {state : CatalogState} (hdistinct : state.Distinct) {signal : Signal}
    {ids : List String} (h : presentCount (state.listed signal) ids = ids.length) {id : String}
    (hid : id ∈ ids) : state.Lists signal id := by
  set named := (state.listed signal).filter (·.id ∈ ids) with hnamed
  have hnodup : (named.map (·.id)).Nodup :=
    (hdistinct signal).sublist (List.filter_sublist.map _)
  have hsubset : named.map (·.id) ⊆ ids := fun x hx => by
    obtain ⟨part, hpart, rfl⟩ := List.mem_map.1 hx
    exact of_decide_eq_true (List.mem_filter.1 hpart).2
  have hlength : ids.length ≤ (named.map (·.id)).length := by
    rw [List.length_map, hnamed, ← List.countP_eq_length_filter]
    exact h.ge
  have hperm := (List.subperm_of_subset hnodup hsubset).perm_of_length_le hlength
  obtain ⟨part, hpart, rfl⟩ := List.mem_map.1 (hperm.mem_iff.2 hid)
  exact ⟨part, (List.mem_filter.1 hpart).1, rfl⟩

theorem findsIn_of_added_nil {mutation : CatalogMutation} (state : CatalogState)
    (h : ∀ signal, mutation.removed signal ≠ [] → mutation.added signal = []) :
    mutation.FindsIn state := fun signal hreplaces =>
  absurd (h signal hreplaces.2) hreplaces.1

/-- A mutation of one signal that was decided on a catalog with all its inputs. -/
theorem signalMutation_findsIn {state : CatalogState} (hdistinct : state.Distinct)
    {signal : Signal} (fresh : TransactionId) (writerEpoch : ℕ) {added : List ManifestPart}
    {removed : List String}
    (h : added ≠ [] → removed ≠ [] →
      presentCount (state.listed signal) removed = removed.length) :
    (signalMutation signal fresh writerEpoch added removed).FindsIn state := by
  rintro other ⟨hadded, hremoved⟩ id hid
  rw [signalMutation_added] at hadded
  rw [signalMutation_removed] at hremoved hid
  split_ifs at hadded hremoved hid with hother
  · subst hother
    exact lists_of_presentCount hdistinct (h hadded hremoved) hid
  · exact absurd rfl hadded

theorem publishPlan_commit {signal : Signal} {fresh : TransactionId} {added : List ManifestPart}
    {removed : List String} {state : CatalogState} {mutation : CatalogMutation}
    (h : publishPlan signal fresh added removed state = .commit mutation) :
    mutation = signalMutation signal fresh state.writerEpoch added removed ∧
      (added ≠ [] → removed ≠ [] →
        presentCount (state.listed signal) removed = removed.length) := by
  unfold publishPlan at h
  dsimp only at h
  split_ifs at h with _ hchanged hpresent
  · split at h <;> cases h
  · split at h
    · cases h
    · cases h
      refine ⟨rfl, fun hadded hremoved => ?_⟩
      by_contra hcount
      exact hchanged ⟨hremoved, hadded, hcount⟩

/-- A publication with nothing to do finds its parts there and the others gone. -/
theorem publishPlan_settled {signal : Signal} {fresh : TransactionId} {added : List ManifestPart}
    {removed : List String} {state : CatalogState}
    (h : publishPlan signal fresh added removed state = .settled) :
    allPresent (state.listed signal) added = true ∧
      presentCount (state.listed signal) removed = 0 := by
  unfold publishPlan at h
  dsimp only at h
  split_ifs at h with hgone hchanged hpresent
  · exact ⟨hgone.2.2, hgone.2.1⟩
  · refine ⟨hpresent.2, ?_⟩
    rw [hpresent.1, presentCount, List.countP_eq_zero]
    exact fun _ _ => by simp
  · split at h <;> cases h

theorem publishTracePlan_commit {fresh : TransactionId} {added : List TraceManifestPart}
    {state : CatalogState} {mutation : CatalogMutation}
    (h : publishTracePlan fresh added state = .commit mutation) :
    mutation = signalMutation .traces fresh state.writerEpoch added [] := by
  unfold publishTracePlan at h
  split at h
  · cases h
  · split_ifs at h
    cases h
    rfl

theorem replaceTracePlan_commit {fresh : TransactionId} {added : List TraceManifestPart}
    {removed : List String} {state : CatalogState} {mutation : CatalogMutation}
    (h : replaceTracePlan fresh added removed state = .commit mutation) :
    mutation = signalMutation .traces fresh state.writerEpoch added removed ∧
      presentCount (state.listed .traces) removed = removed.length := by
  unfold replaceTracePlan at h
  dsimp only at h
  split_ifs at h with _ hchanged
  split at h
  · cases h
  · cases h
    exact ⟨rfl, not_not.1 hchanged⟩

theorem removeTracePlan_commit {fresh : TransactionId} {removed : List String}
    {state : CatalogState} {mutation : CatalogMutation}
    (h : removeTracePlan fresh removed state = .commit mutation) :
    mutation = signalMutation .traces fresh state.writerEpoch [] removed := by
  unfold removeTracePlan at h
  split_ifs at h
  cases h
  rfl

theorem flushPlan_commit {fresh : TransactionId} {transaction : FlushTransaction}
    {state : CatalogState} {mutation : CatalogMutation}
    (h : flushPlan fresh transaction state = .commit mutation) :
    mutation.transactionId = fresh.value ∧
      (∀ signal, mutation.added signal = transaction.parts signal) ∧
      ∀ signal, mutation.removed signal = [] := by
  unfold flushPlan at h
  split at h
  · cases h
  split at h
  · cases h
  split at h
  · cases h
  split_ifs at h
  cases h
  refine ⟨rfl, fun signal => ?_, fun signal => ?_⟩ <;> cases signal <;> rfl

/-- A mutation of the signal whose parts a task adds. -/
theorem signalMutation_added_subset {task : WriterTask} {signal : Signal} {fresh : TransactionId}
    {writerEpoch : ℕ} {added : List ManifestPart} {removed : List String}
    (h : added ⊆ task.added signal) (other : Signal) :
    (signalMutation signal fresh writerEpoch added removed).added other ⊆ task.added other := by
  rw [signalMutation_added]
  split_ifs with hother
  · rw [hother]
    exact h
  · exact List.nil_subset _

theorem unlisted_of_presentCount {state : CatalogState} {signal : Signal} {ids : List String}
    (h : presentCount (state.listed signal) ids = 0) {id : String} (hid : id ∈ ids) :
    ¬ state.Lists signal id := by
  rintro ⟨part, hpart, rfl⟩
  exact List.countP_eq_zero.1 h part hpart (decide_eq_true hid)

/-- A compaction's decision. -/
theorem compactMetrics_suits (added inputs : List MetricManifestPart) (fresh : TransactionId)
    (hnew : ∀ part ∈ added, part.id ∉ partIds inputs) {state : CatalogState}
    (hdistinct : state.Distinct) :
    (publishPlan .metrics fresh added (partIds inputs) state).Suits
      (WriterTask.compactMetrics added inputs fresh hnew).footprint fresh state := by
  cases hplan : publishPlan .metrics fresh added (partIds inputs) state with
  | refused error => trivial
  | settled =>
    obtain ⟨hpresent, hgone⟩ := publishPlan_settled hplan
    refine fun _ => ⟨fun signal id hadds => ?_, fun signal id hdeletes => ?_⟩
    · obtain ⟨part, hpart, rfl⟩ := mem_partIds.1 hadds
      cases signal with
      | metrics => exact ⟨part, of_decide_eq_true (List.all_eq_true.1 hpresent part hpart), rfl⟩
      | logs => cases hpart
      | traces => cases hpart
    · cases signal with
      | metrics => exact unlisted_of_presentCount hgone hdeletes
      | logs => cases hdeletes
      | traces => cases hdeletes
  | commit mutation =>
    obtain ⟨rfl, hcount⟩ := publishPlan_commit hplan
    refine ⟨⟨fun signal id => ?_, ?_, fun _ => ⟨?_, ?_, ?_⟩⟩, signalMutation_transactionId ..,
      signalMutation_findsIn hdistinct fresh _ hcount⟩
    · rintro ⟨part, hpart, rfl⟩
      refine mem_partIds.2 ⟨part, ?_, rfl⟩
      cases signal with
      | metrics => exact hpart
      | logs => cases hpart
      | traces => cases hpart
    · exact congrArg some (signalMutation_transactionId ..).symm
    · intro signal id hdeletes
      cases signal with
      | metrics => exact hdeletes
      | logs => cases hdeletes
      | traces => cases hdeletes
    · rintro signal id hdeletes ⟨part, hpart, rfl⟩
      cases signal with
      | metrics => exact hnew part hpart hdeletes
      | logs => cases hdeletes
      | traces => cases hdeletes
    · intro signal id hadds
      obtain ⟨part, hpart, rfl⟩ := mem_partIds.1 hadds
      cases signal with
      | metrics => exact ⟨part, hpart, rfl⟩
      | logs => cases hpart
      | traces => cases hpart

/-- A rollback's decision. -/
theorem rollback_suits (transaction : FlushTransaction) (fresh : TransactionId)
    (state : CatalogState) : (rollbackPlan fresh transaction state).Suits
      (WriterTask.rollback transaction fresh).footprint fresh state := by
  unfold rollbackPlan
  dsimp only
  split_ifs with hlisted
  · refine ⟨⟨fun signal id => ?_, rfl, fun _ => ⟨?_, ?_, ?_⟩⟩, rfl,
      findsIn_of_added_nil state fun signal _ => (by cases signal <;> rfl)⟩
    · rintro ⟨part, hpart, -⟩
      cases signal <;> cases hpart
    · intro signal id hdeletes
      cases signal <;> exact hdeletes
    · rintro signal id - ⟨part, hpart, -⟩
      cases signal <;> cases hpart
    · intro signal id hadds
      cases hadds
  · rw [Bool.not_eq_true, Bool.or_eq_false_iff, Bool.or_eq_false_iff] at hlisted
    refine fun _ => ⟨fun signal id hadds => (by cases hadds), fun signal id hdeletes => ?_⟩
    rintro ⟨part, hpart, rfl⟩
    cases signal with
    | logs => exact List.any_eq_false.1 hlisted.1.1 part hpart (decide_eq_true hdeletes)
    | traces => exact List.any_eq_false.1 hlisted.1.2 part hpart (decide_eq_true hdeletes)
    | metrics => exact List.any_eq_false.1 hlisted.2 part hpart (decide_eq_true hdeletes)

/-! ### Every task is safe -/

/-- What a task's result says of the catalog when the task began and now. -/
def WriterTask.Answered (_ : WriterTask) (s₀ : Shared) :
    Except CatalogError WriterResult → Shared → Prop
  | .ok (.loaded state fromStore), s =>
    s.Seen state ∧ s₀.store.deleted ⊆ s.store.deleted ∧
      (fromStore = true → ∀ x ∈ s₀.store.deleted, x.2 ≤ state.generation)
  | _, _ => True

/-- A publication of a task that deletes nothing. -/
theorem safe_publication (writer : ProcessId) {task : WriterTask} {fresh : TransactionId}
    {plan : CatalogState → Plan} (hdoomed : ∀ signal, task.doomed signal = [])
    (hfresh : task.transaction = some fresh.value)
    (hplan : ∀ state, state.Distinct → ∀ mutation, plan state = .commit mutation →
      mutation.transactionId = fresh.value ∧
        (∀ signal, mutation.added signal ⊆ task.added signal) ∧ mutation.FindsIn state) :
    safe task.footprint (carryOut digests writer fresh plan) (fun _ _ => True) s :=
  safe_mono (safe_carryOut digests writer fresh fun state hdistinct =>
    suits_of_owns hdoomed hfresh (hplan state hdistinct)) fun _ _ _ => trivial

theorem safe_publishMetricParts (writer : ProcessId) {task : WriterTask} {fresh : TransactionId}
    {added removed : List MetricManifestPart} (hdoomed : ∀ signal, task.doomed signal = [])
    (hfresh : task.transaction = some fresh.value) (hadded : added ⊆ task.added .metrics) :
    safe task.footprint (publishMetricParts digests writer fresh added removed) (fun _ _ => True)
      s :=
  safe_bind _ (safe_uploadParts .metrics added) fun _ _ _ _ =>
    safe_publication digests writer hdoomed hfresh fun state hdistinct mutation hmutation => by
      obtain ⟨rfl, hcount⟩ := publishPlan_commit hmutation
      exact ⟨signalMutation_transactionId .., signalMutation_added_subset hadded,
        signalMutation_findsIn hdistinct fresh _ hcount⟩

theorem safe_load_manifest (process : ProcessId) :
    safe f (do
      let (state, _) ← loadCatalogState digests process
      return state) (fun _ _ => True) s :=
  safe_bind _ (safe_loadCatalogState digests process) fun _ _ _ _ => safe_pure trivial

/-- **Every task keeps to its footprint.** -/
theorem writerProgram_safe (writer : ProcessId) (task : WriterTask) (hs : s.Coherent) :
    safe task.footprint (writerProgram digests writer task)
      (fun result t => task.Answered s (.ok result) t) s := by
  have hdone : ∀ {β : Type} {p : CatalogProgram β}, safe task.footprint p (fun _ _ => True) s →
      safe task.footprint (do let _ ← p; return WriterResult.done)
        (fun result t => task.Answered s (.ok result) t) s := fun hp =>
    safe_bind _ hp fun _ _ _ _ => safe_pure trivial
  have hnil : ∀ signal : Signal, ([] : List ManifestPart) = [] := fun _ => rfl
  cases task with
  | load =>
    refine safe_bind _ (safe_loadCatalogState digests writer) fun r t hst hr => ?_
    exact safe_pure ⟨hr.1, hst.deleted, fun h x hx => (hs.retired x hx).1.trans (hr.2.1 h)⟩
  | claim fresh =>
    refine hdone (safe_mono (safe_claimWriterEpoch digests writer fresh fun epoch => ?_)
      fun _ _ _ => trivial)
    refine owns_of_added hnil (fun signal => ?_) rfl
    cases signal <;> exact List.nil_subset _
  | publishFlush transaction fresh =>
    refine hdone ?_
    refine safe_bind _ (safe_uploadParts .logs _) fun _ t₁ _ _ => ?_
    refine safe_bind _ (safe_uploadParts .traces _) fun _ t₂ _ _ => ?_
    refine safe_bind _ (safe_uploadParts .metrics _) fun _ t₃ _ _ => ?_
    refine safe_publication digests writer hnil rfl fun state _ mutation hmutation => ?_
    obtain ⟨htransaction, hadded, hremoved⟩ := flushPlan_commit hmutation
    exact ⟨htransaction, fun signal => (hadded signal) ▸ List.Subset.refl _,
      fun signal hreplaces => absurd (hremoved signal) hreplaces.2⟩
  | rollback transaction fresh =>
    refine hdone ?_
    refine safe_bind _ (safe_carryOut digests writer fresh
      fun state _ => rollback_suits transaction fresh state)
      fun _ t₁ _ hgone => ?_
    have hparts : ∀ signal, ∀ part ∈ transaction.parts signal,
        (WriterTask.rollback transaction fresh).footprint.deletes signal part.id :=
      fun signal part hpart => mem_partIds.2 ⟨part, hpart, rfl⟩
    refine safe_bind _ (safe_deletePartObjects (hparts .logs) hgone) fun _ t₂ h₂ _ => ?_
    refine safe_bind _ (safe_deletePartObjects (hparts .traces) (hgone.later h₂))
      fun _ t₃ h₃ _ => ?_
    exact safe_deletePartObjects (hparts .metrics) ((hgone.later h₂).later h₃)
  | publish added removed fresh =>
    refine hdone (safe_bind _ (safe_uploadParts .logs added) fun _ t _ _ => ?_)
    refine safe_publication digests writer hnil rfl fun state hdistinct mutation hmutation => ?_
    obtain ⟨rfl, hcount⟩ := publishPlan_commit hmutation
    exact ⟨signalMutation_transactionId .., signalMutation_added_subset (List.Subset.refl _),
      signalMutation_findsIn hdistinct fresh _ hcount⟩
  | publishTraces added fresh =>
    refine hdone (safe_bind _ (safe_uploadParts .traces added) fun _ t _ _ => ?_)
    refine safe_publication digests writer hnil rfl fun state hdistinct mutation hmutation => ?_
    rw [publishTracePlan_commit hmutation]
    exact ⟨signalMutation_transactionId .., signalMutation_added_subset (List.Subset.refl _),
      signalMutation_findsIn hdistinct fresh _ fun _ h => absurd rfl h⟩
  | replaceTraces added removed fresh =>
    refine hdone (safe_bind _ (safe_uploadParts .traces added) fun _ t _ _ => ?_)
    refine safe_publication digests writer hnil rfl fun state hdistinct mutation hmutation => ?_
    obtain ⟨rfl, hcount⟩ := replaceTracePlan_commit hmutation
    exact ⟨signalMutation_transactionId .., signalMutation_added_subset (List.Subset.refl _),
      signalMutation_findsIn hdistinct fresh _ fun _ _ => hcount⟩
  | removeTraces removed fresh =>
    refine hdone ?_
    unfold removeTraceParts
    split_ifs
    · exact safe_load_manifest digests writer
    · refine safe_publication digests writer hnil rfl fun state hdistinct mutation hmutation => ?_
      rw [removeTracePlan_commit hmutation]
      exact ⟨signalMutation_transactionId .., signalMutation_added_subset (List.nil_subset _),
        signalMutation_findsIn hdistinct fresh _ fun h => absurd rfl h⟩
  | publishMetrics added removed fresh =>
    exact hdone (safe_publishMetricParts digests writer hnil rfl (List.Subset.refl _))
  | removeMetrics removed fresh =>
    refine hdone ?_
    unfold removeMetricParts
    split_ifs
    · exact safe_load_manifest digests writer
    · exact safe_publishMetricParts digests writer hnil rfl (List.nil_subset _)
  | compactMetrics added inputs fresh hnew =>
    refine hdone (safe_bind (fun _ t => t.Gone
      (WriterTask.compactMetrics added inputs fresh hnew).footprint) ?_ fun _ t _ hgone => ?_)
    · refine safe_bind _ (safe_uploadParts .metrics added) fun _ t _ _ => ?_
      exact safe_carryOut digests writer fresh fun state hdistinct =>
        compactMetrics_suits added inputs fresh hnew hdistinct
    · exact safe_deletePartObjects (fun part hpart => mem_partIds.2 ⟨part, hpart, rfl⟩) hgone

/-! ### Calm runs -/

structure WriterJob where
  process : ProcessId
  task : WriterTask

/-- The processes and their tasks. -/
abbrev WriterCrew := Crew catalogInterface Shared WriterJob CatalogError WriterResult

/-- Any number of tasks, interleaved. -/
abbrev writerMachine : Machine WriterCrew (Turn WriterJob RequestFate) :=
  interleave catalogDevice fun job => writerProgram digests job.process job.task

instance decidableForallSignal {p : Signal → Prop} [∀ signal, Decidable (p signal)] :
    Decidable (∀ signal, p signal) :=
  decidable_of_iff (p .logs ∧ p .traces ∧ p .metrics)
    ⟨fun h signal => (by cases signal; exacts [h.1, h.2.1, h.2.2]), fun h => ⟨h _, h _, h _⟩⟩

namespace WriterTask

/-- The task deletes no files. -/
def Harmless (task : WriterTask) : Prop := ∀ signal, task.doomed signal = []

/-- A task that may begin: no file was deleted of a part that it adds, and, if it deletes files, no
commit carries its transaction. -/
def New (task : WriterTask) (s : Shared) : Prop :=
  (∀ x ∈ s.store.deleted, x.1.part.id ∉ partIds (task.added x.1.signal)) ∧
    (task.Harmless ∨ ∀ commit ∈ s.chain, task.transaction ≠ some commit.mutation.transactionId)

/-- Two tasks of which neither adds a part that the other deletes, and whose transactions differ if
one of them deletes files. -/
def Apart (task other : WriterTask) : Prop :=
  (∀ signal, ∀ id ∈ partIds (task.added signal), id ∉ partIds (other.doomed signal)) ∧
    (∀ signal, ∀ id ∈ partIds (task.doomed signal), id ∉ partIds (other.added signal)) ∧
    (task.Harmless ∧ other.Harmless ∨ task.transaction = none ∨
      task.transaction ≠ other.transaction)

/-- A catalog that leaves a task nothing to commit: it lists what the task adds and nothing that the
task deletes. -/
def Content (task : WriterTask) (state : CatalogState) : Prop :=
  (∀ signal, ∀ id ∈ partIds (task.added signal), state.Lists signal id) ∧
    ∀ signal, ∀ id ∈ partIds (task.doomed signal), ¬ state.Lists signal id

/-- A catalog after which a commit adds a part that the task deletes. -/
def Misleads (task : WriterTask) (state : CatalogState) (s : Shared) : Prop :=
  ¬ ∀ commit ∈ s.chain.drop state.generation, ∀ signal, ∀ id ∈ partIds (task.doomed signal),
    ¬ commit.mutation.Adds signal id

instance (task : WriterTask) : Decidable task.Harmless :=
  inferInstanceAs (Decidable (∀ signal, task.doomed signal = []))

instance (task : WriterTask) (s : Shared) : Decidable (task.New s) :=
  inferInstanceAs (Decidable
    ((∀ x ∈ s.store.deleted, x.1.part.id ∉ partIds (task.added x.1.signal)) ∧
      (task.Harmless ∨ ∀ commit ∈ s.chain,
        task.transaction ≠ some commit.mutation.transactionId)))

instance (task other : WriterTask) : Decidable (task.Apart other) :=
  inferInstanceAs (Decidable
    ((∀ signal, ∀ id ∈ partIds (task.added signal), id ∉ partIds (other.doomed signal)) ∧
      (∀ signal, ∀ id ∈ partIds (task.doomed signal), id ∉ partIds (other.added signal)) ∧
      (task.Harmless ∧ other.Harmless ∨ task.transaction = none ∨
        task.transaction ≠ other.transaction)))

instance (task : WriterTask) (state : CatalogState) : Decidable (task.Content state) :=
  inferInstanceAs (Decidable
    ((∀ signal, ∀ id ∈ partIds (task.added signal), state.Lists signal id) ∧
      ∀ signal, ∀ id ∈ partIds (task.doomed signal), ¬ state.Lists signal id))

instance (task : WriterTask) (state : CatalogState) (s : Shared) :
    Decidable (task.Misleads state s) :=
  inferInstanceAs (Decidable (¬ ∀ commit ∈ s.chain.drop state.generation, ∀ signal,
    ∀ id ∈ partIds (task.doomed signal), ¬ commit.mutation.Adds signal id))

end WriterTask

/-- A task may begin: it is new, and apart from every running task. -/
def CalmStart (c : WriterCrew) (job : WriterJob) : Prop :=
  job.task.New c.shared ∧
    ∀ t ∈ c.tasks, job.task.Apart t.kind.task ∧ t.kind.task.Apart job.task

/-- The catalog in memory does not mislead a task that is about to read it: where it leaves the
task nothing to commit, no later commit adds a part that the task deletes. -/
def CalmMove (c : WriterCrew) (i : ℕ) : Prop :=
  ∀ t ∈ c.tasks[i]?, ∀ op ∈ t.rest.next, ∀ process ∈ CatalogOp.recalls op,
    ∀ state ∈ (c.shared.processes process).cached, t.kind.task.Content state →
      ¬ t.kind.task.Misleads state c.shared

/-- A turn that keeps the callers' rules and misleads no task. -/
def Calm (c : WriterCrew) : Turn WriterJob RequestFate → Prop
  | .start job => CalmStart c job
  | .move i _ => CalmMove c i
  | .kill _ => True

instance (c : WriterCrew) (job : WriterJob) : Decidable (CalmStart c job) :=
  inferInstanceAs (Decidable (job.task.New c.shared ∧
    ∀ t ∈ c.tasks, job.task.Apart t.kind.task ∧ t.kind.task.Apart job.task))

instance (c : WriterCrew) (i : ℕ) : Decidable (CalmMove c i) :=
  inferInstanceAs (Decidable (∀ t ∈ c.tasks[i]?, ∀ op ∈ t.rest.next,
    ∀ process ∈ CatalogOp.recalls op, ∀ state ∈ (c.shared.processes process).cached,
      t.kind.task.Content state → ¬ t.kind.task.Misleads state c.shared))

instance decidableCalm (c : WriterCrew) : (turn : Turn WriterJob RequestFate) →
    Decidable (Calm c turn)
  | .start job => inferInstanceAs (Decidable (CalmStart c job))
  | .move i _ => inferInstanceAs (Decidable (CalmMove c i))
  | .kill _ => inferInstanceAs (Decidable True)

/-- What the tasks rely on and promise. -/
def writerContract : Contract catalogInterface Shared WriterJob CatalogError WriterResult where
  inv := Shared.Coherent
  later job := job.task.footprint.Later
  change job := job.task.footprint.Change
  begins job := job.task.footprint.Begins
  asks job := job.task.footprint.Asks
  fits job other := job.task.footprint.Fits other.task.footprint
  post job := job.task.Answered
  refl _ := Footprint.Later.refl _
  trans := Footprint.Later.trans
  own h := h.later
  other hfits h := h.other hfits
  stable {_ _ _ r _ _} h hst :=
    match r, h with
    | .ok (.loaded _ _), h => ⟨h.1.grown hst.grown, List.Subset.trans h.2.1 hst.deleted, h.2.2⟩
    | .ok .done, _ => trivial
    | .error _, _ => trivial

theorem writerProgram_guarded (job : WriterJob) {s : Shared} (hs : s.Coherent)
    (hbegins : job.task.footprint.Begins s) :
    (writerProgram digests job.process job.task).guarded catalogDevice writerContract job
      (writerContract.post job s) s := by
  have hsafe := writerProgram_safe digests job.process job.task hs hbegins.clear
  refine guarded_mono (guarded_transfer (C := keeping) ?_ ?_ ?_ ?_ hsafe) fun r t hr => ?_
  · exact fun _ h => h
  · exact fun _ _ h => h
  · exact fun _ _ h => h
  · exact fun _ _ _ _ _ hu hchange => ⟨hu, hchange⟩
  cases r with
  | ok result => exact hr
  | error e => trivial

theorem not_harmless_of_deletes {task : WriterTask} (h : task.footprint.Deletes) :
    ¬ task.Harmless := fun hharmless => not_deletes_of_doomed hharmless h

/-- A task that is new may begin. -/
theorem WriterTask.New.begins {task : WriterTask} {s : Shared} (h : task.New s) :
    task.footprint.Begins s where
  spared := h.1
  fresh hdeletes commit hcommit hcarries :=
    (h.2.resolve_left (not_harmless_of_deletes hdeletes)) commit hcommit hcarries

theorem WriterTask.Apart.fits {task other : WriterTask} (h : task.Apart other) :
    task.footprint.Fits other.footprint where
  adds := h.1
  deletes := h.2.1
  carries hdeletes transaction hcarries hother := by
    rcases h.2.2 with hharmless | hnone | hne
    · exact not_harmless_of_deletes hdeletes hharmless.2
    · cases hnone.symm.trans hcarries
    · exact hne (hcarries.trans hother.symm)

/-- The contract covers calm turns. -/
theorem admits_of_calm {c : WriterCrew} {turn : Turn WriterJob RequestFate} (h : Calm c turn) :
    writerContract.Admits c turn := by
  cases turn with
  | start job => exact ⟨h.1.begins, fun t ht => ⟨(h.2 t ht).1.fits, (h.2 t ht).2.fits⟩⟩
  | move i fate =>
    intro t ht op hop process hprocess state hstate hcontent
    exact not_not.1 (h t ht op hop process hprocess state hstate ⟨hcontent.added, hcontent.removed⟩)
  | kill i => trivial

/-- **No deleted file is listed.**  In a calm run, a load from the store lists no part of which a
file was deleted before the load began. -/
theorem listed_not_deleted {legacy : LegacyManifest → Bool}
    {turns : List (Turn WriterJob RequestFate)} {c : WriterCrew}
    (hcalm : (writerMachine digests).Within (fun c turn _ => Calm c turn)
      (Contract.Crew.idle (Shared.empty legacy)) turns)
    (hrun : (writerMachine digests).run (Contract.Crew.idle (Shared.empty legacy)) turns = some c) :
    ∀ r ∈ c.reports, ∀ state, r.result = .ok (.loaded state true) →
      ∀ x ∈ r.began.store.deleted, x.1.part ∉ state.listed x.1.signal := by
  have hkept : writerContract.Kept catalogDevice c :=
    Contract.run (C := writerContract)
      (fun job s hs hbegins => writerProgram_guarded digests job hs hbegins)
      (Shared.coherent_empty legacy) (within_mono (fun _ _ _ => admits_of_calm) hcalm) hrun
  intro r hr state hstate x hx hlisted
  obtain ⟨-, hpost⟩ := hkept.reports r hr
  rw [hstate] at hpost
  obtain ⟨hseen, hdeleted, hreached⟩ := hpost
  exact (hkept.inv.retired x (hdeleted hx)).2 state hseen (hreached rfl x hx) ⟨_, hlisted, rfl⟩

/-! ### A rollback that is misled -/

/-- Operations of the first task that go well. -/
def fineSteps (n : ℕ) : List (Turn WriterJob RequestFate) := List.replicate n (.move 0 .fine)

/-- A flush of one log part. -/
def sampleFlush : FlushTransaction := ⟨[samplePart], [], []⟩

/-- A flush is published up to a request that fails without effect, and rolled back; another
process loads the catalog. -/
def failedFlush (requests load : ℕ) : List (Turn WriterJob RequestFate) :=
  [.start ⟨0, .claim .first⟩] ++ fineSteps 22 ++
    [.start ⟨0, .publishFlush sampleFlush .add⟩] ++ fineSteps requests ++
    [.move 0 ⟨true, false⟩, .move 0 .fine] ++
    [.start ⟨0, .rollback sampleFlush ⟨"remove", by decide⟩⟩] ++ fineSteps 6 ++
    [.start ⟨1, .load⟩] ++ fineSteps load

/-- What a run of it reports: the results, and what was deleted when each task began. -/
def failedFlushReports (commits : ℕ) (state : CatalogState) :
    List (Except CatalogError WriterResult × List (PartObject × ℕ)) :=
  [(.ok .done, []), (.error .io, []), (.ok .done, []),
    (.ok (.loaded state true),
      (partFiles .logs).map fun file => (⟨.logs, samplePart, file⟩, commits))]

/-- The results so far, and what was deleted when each task began. -/
def WriterCrew.results (c : WriterCrew) :
    List (Except CatalogError WriterResult × List (PartObject × ℕ)) :=
  c.reports.map fun r => (r.result, r.began.store.deleted)

theorem run_failedFlush : ((writerMachine sampleDigests).run
    (Contract.Crew.idle (Shared.empty fun _ => false)) (failedFlush 2 12)).map WriterCrew.results =
      some (failedFlushReports 1 (sampleState 1 1 "first" [])) := by
  decide +kernel

/-- A flush that fails before it commits is rolled back, and its part is not listed. -/
theorem listed_not_deleted_sample : ∃ c, (writerMachine sampleDigests).run
    (Contract.Crew.idle (Shared.empty fun _ => false)) (failedFlush 2 12) = some c ∧
      c.results = failedFlushReports 1 (sampleState 1 1 "first" []) ∧
      ∀ r ∈ c.reports, ∀ state, r.result = .ok (.loaded state true) →
        ∀ x ∈ r.began.store.deleted, x.1.part ∉ state.listed x.1.signal := by
  obtain ⟨c, hrun, hresults⟩ := Option.map_eq_some_iff.1 run_failedFlush
  exact ⟨c, hrun, hresults, listed_not_deleted sampleDigests (by decide +kernel) hrun⟩

/-- A turn that keeps the callers' rules. -/
def KeepsRules (c : WriterCrew) : Turn WriterJob RequestFate → Prop
  | .start job => CalmStart c job
  | _ => True

instance (c : WriterCrew) : (turn : Turn WriterJob RequestFate) → Decidable (KeepsRules c turn)
  | .start job => inferInstanceAs (Decidable (CalmStart c job))
  | .move _ _ => inferInstanceAs (Decidable True)
  | .kill _ => inferInstanceAs (Decidable True)

theorem run_misledRollback : ((writerMachine sampleDigests).run
    (Contract.Crew.idle (Shared.empty fun _ => false)) (failedFlush 9 15)).map WriterCrew.results =
      some (failedFlushReports 2 (sampleState 2 1 "add" [samplePart])) := by
  decide +kernel

/-- A flush that fails after the first replica of its commit is rolled back by the catalog in
memory, which does not list its part; the load from the store does. -/
theorem listed_deleted : ¬ ∀ (digests : Digests) (legacy : LegacyManifest → Bool)
    (turns : List (Turn WriterJob RequestFate)) (c : WriterCrew),
    (writerMachine digests).Within (fun c turn _ => KeepsRules c turn)
      (Contract.Crew.idle (Shared.empty legacy)) turns →
    (writerMachine digests).run (Contract.Crew.idle (Shared.empty legacy)) turns = some c →
    ∀ r ∈ c.reports, ∀ state, r.result = .ok (.loaded state true) →
      ∀ x ∈ r.began.store.deleted, x.1.part ∉ state.listed x.1.signal := by
  intro h
  obtain ⟨c, hrun, hresults⟩ := Option.map_eq_some_iff.1 run_misledRollback
  have hload : (Except.ok (WriterResult.loaded (sampleState 2 1 "add" [samplePart]) true),
      (partFiles .logs).map fun file => ((⟨.logs, samplePart, file⟩ : PartObject), 2)) ∈
        c.results := by
    rw [hresults]
    decide
  obtain ⟨r, hr, hpair⟩ := List.mem_map.1 hload
  obtain ⟨hresult, hdeleted⟩ := Prod.mk.inj hpair
  refine h sampleDigests _ _ c (by decide +kernel) hrun r hr _ hresult
    (⟨.logs, samplePart, "meta.json"⟩, 2) ?_ (List.mem_singleton.2 rfl)
  rw [hdeleted]
  decide

end Catalog

end Obsy
