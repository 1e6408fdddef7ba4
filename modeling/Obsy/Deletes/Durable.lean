import Obsy.Deletes.Requests
import Obsy.Runs.Fallible
import Mathlib.Data.List.Nodup
import Mathlib.Data.List.Perm.Basic

/-!
# Deletion requests survive as answered

What the store has is what was accepted and not cancelled, up to the calls that have taken effect
there and wait for their answer.  A step that is calm keeps it so, and a start that comes when no such
call is under way finds exactly these requests.

* `Kept`: the invariant.
* `Kept.step`: a calm step keeps it.
* `durable_of_calm`: after a run of calm steps requests are in force as they were answered.
* `refused_in_force`: a submission that is refused by the second check, after its object was stored.
-/

namespace Obsy

namespace Deletes

open Part (Nanos Pairs PartMeta)

variable {parseSelector : String → Except String Logql.LogQuery}

/-! ### The invariant -/

/-- A submission that waits for the store. -/
structure Fresh (parseSelector : String → Except String Logql.LogQuery) (s : State)
    (compiled : CompiledRequest) : Prop where
  received : compiled.request.asSubmitted = compiled.request
  parsed : parseSelector compiled.request.query = .ok compiled.selector
  made : compiled.request.requestId ∈ s.made
  unanswered : ∀ request ∈ s.accepted, request.requestId ≠ compiled.request.requestId
  unrefused : ∀ refusal ∈ s.refused, refusal.1 ≠ compiled.request.requestId

/-- A call has taken effect and waits for its answer. -/
def State.Landed (s : State) (call : Call) : Prop :=
  ∃ task ∈ s.tasks, task.call = call ∧ task.landed = true

def State.Stored (s : State) (request : DeleteRequest) : Prop :=
  (request ∈ s.accepted ∧ request.requestId ∉ s.cancelled ∧
      ¬ s.Landed (.cancel request.tenant request.requestId)) ∨
    ∃ compiled, s.Landed (.submit compiled) ∧ compiled.request = request

structure Kept (parseSelector : String → Except String Logql.LogQuery) (s : State) : Prop where
  received : ∀ request ∈ s.accepted, request.asSubmitted = request
  acceptedMade : ∀ request ∈ s.accepted, request.requestId ∈ s.made
  refusedMade : ∀ refusal ∈ s.refused, refusal.1 ∈ s.made
  apart : ∀ request ∈ s.accepted, ∀ refusal ∈ s.refused, refusal.1 ≠ request.requestId
  acceptedOnce : (s.accepted.map DeleteRequest.requestId).Nodup
  cancelledAccepted : ∀ requestId ∈ s.cancelled,
    ∃ request ∈ s.accepted, request.requestId = requestId
  inForce : ∀ request, (∃ compiled ∈ s.held, compiled.request.asSubmitted = request) ↔
    request ∈ s.accepted ∧ request.requestId ∉ s.cancelled
  heldOnce : (s.held.map fun compiled => compiled.request.requestId).Nodup
  parsed : ∀ compiled ∈ s.held, parseSelector compiled.request.query = .ok compiled.selector
  outstanding : s.outstanding = s.held.length
  bounded : ∀ tenant, (s.ofTenant tenant).length ≤ maxDeleteRequestsPerTenant
  numbers : (s.tasks.map Task.number).Nodup
  submits : ∀ task ∈ s.tasks, ∀ compiled, task.call = .submit compiled →
    Fresh parseSelector s compiled
  submitsOnce : ∀ task ∈ s.tasks, ∀ task' ∈ s.tasks, ∀ compiled compiled',
    task.call = .submit compiled → task'.call = .submit compiled' →
      compiled.request.requestId = compiled'.request.requestId → task = task'
  cancels : ∀ task ∈ s.tasks, ∀ tenant requestId, task.call = .cancel tenant requestId →
    ∃ request ∈ s.accepted, request.tenant = tenant ∧ request.requestId = requestId

/-- The store has what it should, one object for each request. -/
def Agrees (s : State) : Prop :=
  ∀ stored, s.stored = some stored →
    (stored.map DeleteRequest.requestId).Nodup ∧ ∀ request, request ∈ stored ↔ s.Stored request

variable {s s' : State} {compiled : CompiledRequest} {tenant : String} {requestId : ℕ}

theorem isAt_iff {request : DeleteRequest} :
    request.isAt tenant requestId = true ↔
      request.tenant = tenant ∧ request.requestId = requestId := by
  rw [DeleteRequest.isAt, Bool.and_eq_true, beq_iff_eq, beq_iff_eq]

theorem kept_start (stored : Option (List DeleteRequest)) :
    Kept parseSelector (State.start stored) := by
  refine ⟨?_, ?_, ?_, ?_, List.nodup_nil, ?_, ?_, List.nodup_nil, ?_, rfl, ?_, List.nodup_nil, ?_,
    ?_, ?_⟩
  all_goals simp [State.start, State.ofTenant]

theorem agrees_start (stored : Option (List DeleteRequest)) (hempty : stored.getD [] = []) :
    Agrees (State.start stored) := by
  rintro list rfl
  obtain rfl : list = [] := hempty
  refine ⟨List.nodup_nil, fun request => ?_⟩
  rw [State.Stored]
  simp [State.start, State.Landed]

namespace Kept

/-- Requests that were accepted are told apart by their UUIDs. -/
theorem accepted_inj (h : Kept parseSelector s) {request request' : DeleteRequest}
    (hmem : request ∈ s.accepted) (hmem' : request' ∈ s.accepted)
    (hid : request.requestId = request'.requestId) : request = request' :=
  List.inj_on_of_nodup_map h.acceptedOnce hmem hmem' hid

theorem task_inj (h : Kept parseSelector s) {task task' : Task} (hmem : task ∈ s.tasks)
    (hmem' : task' ∈ s.tasks) (hnumber : task.number = task'.number) : task = task' :=
  List.inj_on_of_nodup_map h.numbers hmem hmem' hnumber

theorem accepted_of_held (h : Kept parseSelector s) (hmem : compiled ∈ s.held) :
    compiled.request.asSubmitted ∈ s.accepted :=
  ((h.inForce _).1 ⟨compiled, hmem, rfl⟩).1

/-! ### Parts of a step -/

theorem make (h : Kept parseSelector s) (requestId : ℕ) :
    Kept parseSelector { s with made := requestId :: s.made } :=
  { h with
    acceptedMade := fun request hmem => List.mem_cons_of_mem _ (h.acceptedMade request hmem)
    refusedMade := fun refusal hmem => List.mem_cons_of_mem _ (h.refusedMade refusal hmem)
    submits := fun task hmem compiled hcall =>
      { h.submits task hmem compiled hcall with
        made := List.mem_cons_of_mem _ (h.submits task hmem compiled hcall).made } }

/-- A submission is refused that is neither accepted nor under way. -/
theorem refuse (h : Kept parseSelector s) (error : DeleteRequestError) (hmade : requestId ∈ s.made)
    (haccepted : ∀ request ∈ s.accepted, request.requestId ≠ requestId)
    (htasks : ∀ task ∈ s.tasks, ∀ compiled, task.call = .submit compiled →
      compiled.request.requestId ≠ requestId) :
    Kept parseSelector (s.refuse requestId error) :=
  { h with
    refusedMade := fun refusal hmem => by
      rcases List.mem_cons.1 hmem with rfl | hmem
      · exact hmade
      · exact h.refusedMade refusal hmem
    apart := fun request hrequest refusal hmem => by
      rcases List.mem_cons.1 hmem with rfl | hmem
      · exact (haccepted request hrequest).symm
      · exact h.apart request hrequest refusal hmem
    submits := fun task htask compiled hcall =>
      { h.submits task htask compiled hcall with
        unrefused := fun refusal hmem => by
          rcases List.mem_cons.1 hmem with rfl | hmem
          · exact (htasks task htask compiled hcall).symm
          · exact (h.submits task htask compiled hcall).unrefused refusal hmem } }

/-- A call is no longer under way. -/
theorem leaves (h : Kept parseSelector s) (task : Task) (adrift : List Call) :
    Kept parseSelector (s.leaves task adrift) := by
  have hsub : (s.tasks.filter fun other => other.number != task.number).Sublist s.tasks :=
    List.filter_sublist
  exact
    { h with
      numbers := h.numbers.sublist (hsub.map _)
      submits := fun other hother compiled hcall =>
        { h.submits other (hsub.subset hother) compiled hcall with }
      submitsOnce := fun other hother other' hother' =>
        h.submitsOnce other (hsub.subset hother) other' (hsub.subset hother')
      cancels := fun other hother => h.cancels other (hsub.subset hother) }

/-- A submission is accepted. -/
theorem finishSubmit (h : Kept parseSelector s) (hfresh : Fresh parseSelector s compiled)
    (htasks : ∀ task ∈ s.tasks, ∀ other, task.call = .submit other →
      other.request.requestId ≠ compiled.request.requestId)
    (hroom : (s.ofTenant compiled.request.tenant).length < maxDeleteRequestsPerTenant) :
    Kept parseSelector (s.finishSubmit compiled) := by
  have hcancelled : compiled.request.requestId ∉ s.cancelled := by
    intro hmem
    obtain ⟨request, hrequest, hid⟩ := h.cancelledAccepted _ hmem
    exact hfresh.unanswered request hrequest hid
  rw [State.finishSubmit, if_neg (not_le.2 hroom)]
  exact
    { h with
      received := List.forall_mem_cons.2 ⟨hfresh.received, h.received⟩
      acceptedMade := List.forall_mem_cons.2 ⟨hfresh.made, h.acceptedMade⟩
      apart := List.forall_mem_cons.2 ⟨hfresh.unrefused, h.apart⟩
      acceptedOnce := List.nodup_cons.2 ⟨fun hmem => by
        obtain ⟨request, hrequest, hid⟩ := List.mem_map.1 hmem
        exact hfresh.unanswered request hrequest hid, h.acceptedOnce⟩
      cancelledAccepted := fun id hid => by
        obtain ⟨request, hrequest, heq⟩ := h.cancelledAccepted id hid
        exact ⟨request, List.mem_cons_of_mem _ hrequest, heq⟩
      inForce := fun request => by
        rw [List.mem_cons]
        constructor
        · rintro ⟨other, hmem, rfl⟩
          rcases List.mem_append.1 hmem with hmem | hmem
          · exact ((h.inForce _).1 ⟨other, hmem, rfl⟩).imp_left .inr
          · obtain rfl := List.mem_singleton.1 hmem
            exact ⟨.inl hfresh.received, hcancelled⟩
        · rintro ⟨rfl | hmem, hid⟩
          · exact ⟨compiled, List.mem_append_right _ List.mem_cons_self, hfresh.received⟩
          · obtain ⟨other, hother, heq⟩ := (h.inForce _).2 ⟨hmem, hid⟩
            exact ⟨other, List.mem_append_left _ hother, heq⟩
      heldOnce := by
        rw [List.map_append, List.nodup_append]
        refine ⟨h.heldOnce, List.nodup_singleton _, fun id hmem id' hmem' => ?_⟩
        obtain ⟨other, hother, rfl⟩ := List.mem_map.1 hmem
        rw [List.mem_singleton.1 hmem']
        exact hfresh.unanswered other.request.asSubmitted (h.accepted_of_held hother)
      parsed := fun other hmem => by
        rcases List.mem_append.1 hmem with hmem | hmem
        · exact h.parsed other hmem
        · rw [List.mem_singleton.1 hmem]
          exact hfresh.parsed
      outstanding := by
        rw [h.outstanding, List.length_append]
        rfl
      bounded := fun tenant => by
        have hold := h.bounded tenant
        change ((s.held ++ [compiled]).filter _).length ≤ _
        rw [List.filter_append, List.length_append, List.filter_singleton]
        change (s.ofTenant tenant).length + _ ≤ _
        by_cases heq : compiled.request.tenant = tenant
        · rw [heq] at hroom ⊢
          rw [beq_self_eq_true]
          exact hroom
        · rw [beq_eq_false_iff_ne.2 heq]
          exact hold
      submits := fun task htask other hcall =>
        { h.submits task htask other hcall with
          unanswered := List.forall_mem_cons.2 ⟨(htasks task htask other hcall).symm,
            (h.submits task htask other hcall).unanswered⟩ }
      cancels := fun task htask tenant id hcall => by
        obtain ⟨request, hrequest, heq⟩ := h.cancels task htask tenant id hcall
        exact ⟨request, List.mem_cons_of_mem _ hrequest, heq⟩ }

theorem finishCancel (h : Kept parseSelector s)
    (haccepted : ∃ request ∈ s.accepted, request.tenant = tenant ∧ request.requestId = requestId) :
    Kept parseSelector (s.finishCancel tenant requestId) := by
  obtain ⟨request, hrequest, htenant, hid⟩ := haccepted
  have hsub : (s.held.filter fun compiled => !compiled.request.isAt tenant requestId).Sublist
      s.held := List.filter_sublist
  -- the request under this UUID is of this tenant
  have hisAt : ∀ other ∈ s.accepted, other.requestId = requestId →
      other.isAt tenant requestId = true := by
    intro other hother heq
    rw [h.accepted_inj hother hrequest (heq.trans hid.symm)]
    exact isAt_iff.2 ⟨htenant, hid⟩
  exact
    { h with
      cancelledAccepted := List.forall_mem_cons.2 ⟨⟨request, hrequest, hid⟩, h.cancelledAccepted⟩
      inForce := fun other => by
        constructor
        · rintro ⟨compiled, hmem, rfl⟩
          obtain ⟨hmem, hnot⟩ := List.mem_filter.1 hmem
          obtain ⟨haccepted, hcancelled⟩ := (h.inForce _).1 ⟨compiled, hmem, rfl⟩
          refine ⟨haccepted, fun hcons => ?_⟩
          rcases List.mem_cons.1 hcons with heq | hcons
          · have hat := hisAt _ haccepted heq
            rw [show compiled.request.isAt tenant requestId = true from hat] at hnot
            cases hnot
          · exact hcancelled hcons
        · rintro ⟨haccepted, hcancelled⟩
          obtain ⟨hne, hcancelled⟩ := not_or.1 (mt List.mem_cons.2 hcancelled)
          obtain ⟨compiled, hmem, rfl⟩ := (h.inForce _).2 ⟨haccepted, hcancelled⟩
          refine ⟨compiled, List.mem_filter.2 ⟨hmem, ?_⟩, rfl⟩
          rw [Bool.not_eq_true', Bool.eq_false_iff]
          exact fun hat => hne (isAt_iff.1 hat).2
      heldOnce := h.heldOnce.sublist (hsub.map _)
      parsed := fun compiled hmem => h.parsed compiled (hsub.subset hmem)
      outstanding := by
        change s.outstanding - (s.held.length - _) = _
        rw [h.outstanding]
        exact Nat.sub_sub_self hsub.length_le
      bounded := fun other => (hsub.filter _).length_le.trans (h.bounded other)
      submits := fun task htask compiled hcall => { h.submits task htask compiled hcall with } }

/-- Requests are marked, and nothing else about them changes. -/
theorem markProcessed (h : Kept parseSelector s) (metas : List PartMeta) :
    Kept parseSelector (s.markProcessed metas) := by
  unfold State.markProcessed
  split
  · exact h
  · generalize hmark : (fun compiled : CompiledRequest =>
      if compiled.request.status = .processed then compiled
      else if metas.any compiled.mayBeHeldBy then compiled
      else { compiled with request := { compiled.request with status := .processed } }) = mark
    have hsame : ∀ compiled, (mark compiled).request.asSubmitted = compiled.request.asSubmitted ∧
        (mark compiled).selector = compiled.selector := by
      intro compiled
      rw [← hmark]
      dsimp only
      split_ifs <;> exact ⟨rfl, rfl⟩
    have hid : ∀ compiled, (mark compiled).request.requestId = compiled.request.requestId :=
      fun compiled =>
      show (mark compiled).request.asSubmitted.requestId = compiled.request.asSubmitted.requestId by
        rw [(hsame compiled).1]
    have htenant : ∀ compiled, (mark compiled).request.tenant = compiled.request.tenant :=
      fun compiled =>
      show (mark compiled).request.asSubmitted.tenant = compiled.request.asSubmitted.tenant by
        rw [(hsame compiled).1]
    have hquery : ∀ compiled, (mark compiled).request.query = compiled.request.query :=
      fun compiled =>
      show (mark compiled).request.asSubmitted.query = compiled.request.asSubmitted.query by
        rw [(hsame compiled).1]
    exact
      { h with
        inForce := fun request => by
          rw [← h.inForce request]
          simp only [List.mem_map, exists_exists_and_eq_and, (hsame _).1]
        heldOnce := by
          rw [List.map_map]
          exact (congrArg List.Nodup (List.map_congr_left fun compiled _ => hid compiled)).mpr
            h.heldOnce
        parsed := fun compiled hmem => by
          obtain ⟨other, hother, rfl⟩ := List.mem_map.1 hmem
          rw [hquery, (hsame other).2]
          exact h.parsed other hother
        outstanding := by
          rw [List.length_map]
          exact h.outstanding
        bounded := fun tenant => by
          change ((s.held.map mark).filter _).length ≤ _
          rw [List.filter_map, List.length_map]
          refine le_of_eq_of_le (congrArg List.length (List.filter_congr fun compiled _ => ?_))
            (h.bounded tenant)
          rw [Function.comp_apply, htenant]
        submits := fun task htask compiled hcall => { h.submits task htask compiled hcall with } }

/-- A call begins to wait. -/
theorem wait (h : Kept parseSelector s) {number : ℕ} {call : Call}
    (hsubmit : ∀ compiled, call = .submit compiled → Fresh parseSelector s compiled ∧
      ∀ task ∈ s.tasks, ∀ other, task.call = .submit other →
        other.request.requestId ≠ compiled.request.requestId)
    (hcancel : ∀ tenant requestId, call = .cancel tenant requestId →
      ∃ request ∈ s.accepted, request.tenant = tenant ∧ request.requestId = requestId)
    (hstep : s.wait number call = some s') : Kept parseSelector s' := by
  unfold State.wait at hstep
  split at hstep
  case isTrue => cases hstep
  case isFalse hnumber =>
    obtain rfl := Option.some.inj hstep
    have hmem : ∀ {task : Task}, task ∈ s.tasks ++ [⟨number, call, false⟩] →
        task ∈ s.tasks ∨ task = ⟨number, call, false⟩ := fun hmem =>
      (List.mem_append.1 hmem).imp_right List.mem_singleton.1
    exact
      { h with
        numbers := by
          rw [List.map_append, List.nodup_append]
          refine ⟨h.numbers, List.nodup_singleton _, fun n hn n' hn' heq => ?_⟩
          obtain rfl : n = number := heq.trans (List.mem_singleton.1 hn')
          exact hnumber hn
        submits := fun task htask compiled hcall => by
          rcases hmem htask with htask | rfl
          · exact { h.submits task htask compiled hcall with }
          · exact { (hsubmit compiled hcall).1 with }
        submitsOnce := fun task htask task' htask' compiled compiled' hcall hcall' hid => by
          rcases hmem htask with htask | rfl <;> rcases hmem htask' with htask' | rfl
          · exact h.submitsOnce task htask task' htask' compiled compiled' hcall hcall' hid
          · exact absurd hid ((hsubmit compiled' hcall').2 task htask compiled hcall)
          · exact absurd hid.symm ((hsubmit compiled hcall).2 task' htask' compiled' hcall')
          · rfl
        cancels := fun task htask tenant requestId hcall => by
          rcases hmem htask with htask | rfl
          · exact h.cancels task htask tenant requestId hcall
          · exact hcancel tenant requestId hcall }

/-- A call takes effect at the store. -/
theorem lands (h : Kept parseSelector s) (task : Task) : Kept parseSelector (s.lands task) := by
  unfold State.lands
  generalize hmark : (fun other : Task =>
    if other.number = task.number then { other with landed := true } else other) = mark
  have hsame : ∀ task, (mark task).number = task.number ∧ (mark task).call = task.call := by
    intro task
    rw [← hmark]
    dsimp only
    split <;> exact ⟨rfl, rfl⟩
  exact
    { h with
      numbers := by
        rw [List.map_map]
        exact (congrArg List.Nodup (List.map_congr_left fun task _ => (hsame task).1)).mpr h.numbers
      submits := fun task htask compiled hcall => by
        obtain ⟨other, hother, rfl⟩ := List.mem_map.1 htask
        rw [(hsame other).2] at hcall
        exact { h.submits other hother compiled hcall with }
      submitsOnce := fun task htask task' htask' compiled compiled' hcall hcall' hid => by
        obtain ⟨other, hother, rfl⟩ := List.mem_map.1 htask
        obtain ⟨other', hother', rfl⟩ := List.mem_map.1 htask'
        rw [(hsame other).2] at hcall
        rw [(hsame other').2] at hcall'
        rw [h.submitsOnce other hother other' hother' compiled compiled' hcall hcall' hid]
      cancels := fun task htask tenant requestId hcall => by
        obtain ⟨other, hother, rfl⟩ := List.mem_map.1 htask
        rw [(hsame other).2] at hcall
        exact h.cancels other hother tenant requestId hcall }

end Kept

/-! ### The store -/

/-- Nothing happens at the store. -/
theorem Agrees.of_same (h : Agrees s) (hstored : s'.stored = s.stored)
    (hsame : ∀ request, s'.Stored request ↔ s.Stored request) : Agrees s' := by
  intro stored heq
  obtain ⟨honce, hmem⟩ := h stored (hstored.symm.trans heq)
  exact ⟨honce, fun request => (hmem request).trans (hsame request).symm⟩

theorem agrees_of_none (h : s.stored = none) : Agrees s := by
  intro stored heq
  rw [h] at heq
  cases heq

theorem landed_wait {number : ℕ} {call : Call} (hstep : s.wait number call = some s')
    (other : Call) : s'.Landed other ↔ s.Landed other := by
  unfold State.wait at hstep
  split at hstep
  case isTrue => cases hstep
  case isFalse =>
    obtain rfl := Option.some.inj hstep
    constructor
    · rintro ⟨task, htask, hcall, hlanded⟩
      rcases List.mem_append.1 htask with htask | htask
      · exact ⟨task, htask, hcall, hlanded⟩
      · rw [List.mem_singleton.1 htask] at hlanded
        cases hlanded
    · rintro ⟨task, htask, hrest⟩
      exact ⟨task, List.mem_append_left _ htask, hrest⟩

theorem Agrees.wait (h : Agrees s) {number : ℕ} {call : Call}
    (hstep : s.wait number call = some s') : Agrees s' := by
  have hlanded := landed_wait hstep
  unfold State.wait at hstep
  split at hstep
  case isTrue => cases hstep
  case isFalse =>
    obtain rfl := Option.some.inj hstep
    refine h.of_same rfl fun request => ?_
    unfold State.Stored
    simp only [hlanded]

section Task

variable {task : Task} (h : Kept parseSelector s) (htask : task ∈ s.tasks)
include h htask

/-- The calls that have taken effect after one more has. -/
theorem landed_lands (call : Call) :
    (s.lands task).Landed call ↔ s.Landed call ∨ call = task.call := by
  constructor
  · rintro ⟨_, hmem, hcall, hlanded⟩
    obtain ⟨other, hother, rfl⟩ := List.mem_map.1 hmem
    by_cases hnumber : other.number = task.number
    · rw [if_pos hnumber] at hcall
      rw [h.task_inj hother htask hnumber] at hcall
      exact .inr hcall.symm
    · rw [if_neg hnumber] at hcall hlanded
      exact .inl ⟨other, hother, hcall, hlanded⟩
  · rintro (⟨other, hother, hcall, hlanded⟩ | rfl)
    · refine ⟨_, List.mem_map_of_mem hother, ?_, ?_⟩ <;> split
      · exact hcall
      · exact hcall
      · rfl
      · exact hlanded
    · refine ⟨_, List.mem_map_of_mem htask, ?_, ?_⟩
      · rw [if_pos rfl]
      · rw [if_pos rfl]

/-- The calls that have taken effect without one. -/
theorem landed_leaves (adrift : List Call) (call : Call) :
    (s.leaves task adrift).Landed call ↔
      ∃ other ∈ s.tasks, other ≠ task ∧ other.call = call ∧ other.landed = true := by
  constructor
  · rintro ⟨other, hmem, hrest⟩
    obtain ⟨hother, hnumber⟩ := List.mem_filter.1 hmem
    refine ⟨other, hother, ?_, hrest⟩
    rintro rfl
    rw [bne_self_eq_false] at hnumber
    cases hnumber
  · rintro ⟨other, hother, hne, hrest⟩
    refine ⟨other, List.mem_filter.2 ⟨hother, ?_⟩, hrest⟩
    rw [bne_iff_ne]
    exact fun hnumber => hne (h.task_inj hother htask hnumber)

/-- Another submission under way has another UUID. -/
theorem other_submit {compiled : CompiledRequest} (hcall : task.call = .submit compiled) :
    ∀ other ∈ (s.leaves task s.adrift).tasks, ∀ compiled', other.call = .submit compiled' →
      compiled'.request.requestId ≠ compiled.request.requestId := by
  intro other hmem compiled' hcall' hid
  obtain ⟨hother, hnumber⟩ := List.mem_filter.1 hmem
  rw [h.submitsOnce other hother task htask compiled' compiled hcall' hcall hid,
    bne_self_eq_false] at hnumber
  cases hnumber

/-- **A call takes effect** as it should. -/
theorem agrees_lands (hagrees : Agrees s) (hlanded : task.landed = false) :
    Agrees (s.lands task) := by
  intro list hlist
  obtain ⟨stored, hstored, rfl⟩ := Option.map_eq_some_iff.1 hlist
  obtain ⟨honce, hmem⟩ := hagrees stored hstored
  have hcalls := landed_lands h htask
  have haccepted : (s.lands task).accepted = s.accepted := rfl
  have hcancelled : (s.lands task).cancelled = s.cancelled := rfl
  cases hcall : task.call with
  | submit compiled =>
    have hfresh := h.submits task htask compiled hcall
    have hnew : ∀ request ∈ stored, request.requestId ≠ compiled.request.requestId := by
      intro request hrequest
      rcases (hmem request).1 hrequest with ⟨haccepted, _⟩ | ⟨other, ⟨task', htask', hcall', hl⟩, rfl⟩
      · exact hfresh.unanswered request haccepted
      · intro hid
        rw [h.submitsOnce task' htask' task htask other compiled hcall' hcall hid, hlanded] at hl
        cases hl
    have hkept : (stored.filter fun request =>
        !request.isAt compiled.request.tenant compiled.request.requestId) = stored := by
      refine List.filter_eq_self.2 fun request hrequest => ?_
      rw [Bool.not_eq_true', Bool.eq_false_iff]
      exact fun hat => hnew request hrequest (isAt_iff.1 hat).2
    rw [Call.apply, hkept]
    constructor
    · rw [List.map_append, List.nodup_append]
      refine ⟨honce, List.nodup_singleton _, fun id hid id' hid' => ?_⟩
      obtain ⟨request, hrequest, rfl⟩ := List.mem_map.1 hid
      rw [List.mem_singleton.1 hid']
      exact hnew request hrequest
    · intro request
      rw [List.mem_append, List.mem_singleton, hmem request]
      unfold State.Stored
      simp only [hcalls, hcall, haccepted, hcancelled, reduceCtorEq, or_false, Call.submit.injEq,
        or_and_right, exists_or, exists_eq_left, or_assoc]
      rw [@eq_comm _ request]
  | cancel tenant requestId =>
    obtain ⟨target, htarget, htenant, hid⟩ := h.cancels task htask tenant requestId hcall
    constructor
    · exact honce.sublist (List.filter_sublist.map _)
    · intro request
      rw [Call.apply, List.mem_filter, hmem request, Bool.not_eq_true', Bool.eq_false_iff, Ne,
        isAt_iff]
      unfold State.Stored
      simp only [hcalls, hcall, haccepted, hcancelled, reduceCtorEq, or_false, Call.cancel.injEq]
      constructor
      · rintro ⟨⟨haccepted, hcancelled, hnot⟩ | hsubmit, hat⟩
        · exact .inl ⟨haccepted, hcancelled, fun hor => hor.elim hnot hat⟩
        · exact .inr hsubmit
      · rintro (⟨haccepted, hcancelled, hnot⟩ | ⟨compiled, ⟨task', htask', hcall', hl⟩, rfl⟩)
        · exact ⟨.inl ⟨haccepted, hcancelled, fun hl => hnot (.inl hl)⟩, fun hat => hnot (.inr hat)⟩
        · refine ⟨.inr ⟨compiled, ⟨task', htask', hcall', hl⟩, rfl⟩, fun hat => ?_⟩
          exact (h.submits task' htask' compiled hcall').unanswered target htarget
            (hid.trans hat.2.symm)

end Task

/-! ### Steps -/

/-- What both the memory and the store keep. -/
structure Inv (parseSelector : String → Except String Logql.LogQuery) (s : State) : Prop where
  kept : Kept parseSelector s
  agrees : Agrees s

/-- What passes the first check. -/
theorem of_checkSubmit {query : String} {startNs endNs nowNs : Nanos}
    (h : s.checkSubmit parseSelector requestId tenant query startNs endNs nowNs = .ok compiled) :
    compiled.request = ⟨requestId, tenant, query, startNs, endNs, nowNs, .received⟩ ∧
      parseSelector query = .ok compiled.selector ∧
        (s.ofTenant tenant).length < maxDeleteRequestsPerTenant := by
  unfold State.checkSubmit at h
  split at h
  case isTrue => cases h
  case isFalse =>
    split at h
    case h_1 => cases h
    case h_2 selector hselector =>
      split at h
      case isTrue => cases h
      case isFalse hroom =>
        obtain rfl := Except.ok.inj h
        exact ⟨rfl, hselector, not_le.1 hroom⟩

theorem Inv.submit (h : Inv parseSelector s) {number : ℕ} {query : String}
    {startNs endNs nowNs : Nanos}
    (hstep : step parseSelector s (.submit number requestId tenant query startNs endNs nowNs) =
      some s') : Inv parseSelector s' := by
  rw [step] at hstep
  split at hstep
  case isTrue => cases hstep
  case isFalse hnew =>
    have hkept := h.kept.make requestId
    have haccepted : ∀ request ∈ s.accepted, request.requestId ≠ requestId := fun request hmem heq =>
      hnew (heq ▸ h.kept.acceptedMade request hmem)
    have htasks : ∀ task ∈ s.tasks, ∀ other, task.call = .submit other →
        other.request.requestId ≠ requestId := fun task htask other hcall heq =>
      hnew (heq ▸ (h.kept.submits task htask other hcall).made)
    dsimp only at hstep
    split at hstep
    case h_1 error _ =>
      obtain rfl := Option.some.inj hstep
      exact ⟨hkept.refuse error List.mem_cons_self haccepted htasks,
        h.agrees.of_same rfl fun _ => Iff.rfl⟩
    case h_2 compiled hcheck =>
      obtain ⟨hrequest, hparsed, hroom⟩ := of_checkSubmit hcheck
      have hid : compiled.request.requestId = requestId := by rw [hrequest]
      have hfresh : Fresh parseSelector { s with made := requestId :: s.made } compiled := by
        refine ⟨by rw [hrequest]; rfl, by rw [hrequest]; exact hparsed, ?_, ?_, ?_⟩
        · rw [hid]
          exact List.mem_cons_self
        · rw [hid]
          exact haccepted
        · rw [hid]
          exact fun refusal hmem heq => hnew (heq ▸ h.kept.refusedMade refusal hmem)
      rw [← hid] at htasks
      split at hstep
      case isTrue =>
        refine ⟨hkept.wait (fun other hcall => ?_) (fun _ _ hcall => by cases hcall) hstep, ?_⟩
        · obtain rfl := Call.submit.inj hcall
          exact ⟨hfresh, htasks⟩
        · refine Agrees.wait ?_ hstep
          exact h.agrees.of_same rfl fun _ => Iff.rfl
      case isFalse hnone =>
        obtain rfl := Option.some.inj hstep
        have htenant : compiled.request.tenant = tenant := by rw [hrequest]
        have hstored : s.stored = none := by
          rwa [Bool.not_eq_true, Option.isSome_eq_false_iff, Option.isNone_iff_eq_none] at hnone
        refine ⟨hkept.finishSubmit hfresh htasks (by rw [htenant]; exact hroom), ?_⟩
        refine agrees_of_none ?_
        unfold State.finishSubmit
        split <;> exact hstored

/-- What may be cancelled was accepted. -/
theorem Kept.of_checkCancel (h : Kept parseSelector s)
    (hcheck : s.checkCancel tenant requestId = .ok ()) :
    ∃ request ∈ s.accepted, request.tenant = tenant ∧ request.requestId = requestId := by
  unfold State.checkCancel at hcheck
  split at hcheck
  case h_1 => cases hcheck
  case h_2 found hfound =>
    have hat := List.find?_some hfound
    exact ⟨_, h.accepted_of_held (List.mem_of_find?_eq_some hfound), isAt_iff.1 hat⟩

theorem Inv.cancel (h : Inv parseSelector s) {number : ℕ}
    (hstep : step parseSelector s (.cancel number tenant requestId) = some s') :
    Inv parseSelector s' := by
  rw [step] at hstep
  split at hstep
  case h_1 =>
    obtain rfl := Option.some.inj hstep
    exact h
  case h_2 hcheck =>
    have haccepted := h.kept.of_checkCancel hcheck
    split at hstep
    case isTrue =>
      refine ⟨h.kept.wait (fun _ hcall => by cases hcall) (fun _ _ hcall => ?_) hstep,
        h.agrees.wait hstep⟩
      obtain ⟨rfl, rfl⟩ := Call.cancel.inj hcall
      exact haccepted
    case isFalse hnone =>
      obtain rfl := Option.some.inj hstep
      refine ⟨h.kept.finishCancel haccepted, agrees_of_none ?_⟩
      rwa [Bool.not_eq_true, Option.isSome_eq_false_iff, Option.isNone_iff_eq_none] at hnone

/-- The store has answered with an error, and has done nothing. -/
theorem Inv.fails (h : Inv parseSelector s) {task : Task} (htask : task ∈ s.tasks)
    (hlanded : task.landed = false) (adrift : List Call) (message : String) :
    Inv parseSelector ((s.leaves task adrift).finish task.call (.error message)) := by
  have hkept := h.kept.leaves task adrift
  have hlanded : ∀ call, (s.leaves task adrift).Landed call ↔ s.Landed call := by
    intro call
    rw [landed_leaves h.kept htask]
    constructor
    · rintro ⟨other, hother, _, hrest⟩
      exact ⟨other, hother, hrest⟩
    · rintro ⟨other, hother, hcall, hl⟩
      refine ⟨other, hother, ?_, hcall, hl⟩
      rintro rfl
      rw [hlanded] at hl
      cases hl
  have hagrees : Agrees (s.leaves task adrift) := by
    refine h.agrees.of_same rfl fun request => ?_
    unfold State.Stored
    simp only [hlanded]
    rfl
  cases hcall : task.call with
  | submit compiled =>
    have hfresh := h.kept.submits task htask compiled hcall
    exact ⟨hkept.refuse _ hfresh.made hfresh.unanswered (other_submit h.kept htask hcall),
      hagrees.of_same rfl fun _ => Iff.rfl⟩
  | cancel => exact ⟨hkept, hagrees⟩

/-- The store has done what a call asked for. -/
theorem Inv.succeeds (h : Inv parseSelector s) {task : Task} (htask : task ∈ s.tasks)
    (hlanded : task.landed = true)
    (hroom : ∀ compiled, task.call = .submit compiled →
      (s.ofTenant compiled.request.tenant).length < maxDeleteRequestsPerTenant) :
    Inv parseSelector ((s.leaves task s.adrift).finish task.call (.ok ())) := by
  have hkept := h.kept.leaves task s.adrift
  have hleaves := landed_leaves h.kept htask s.adrift
  have hstill : ∀ {call}, (s.leaves task s.adrift).Landed call → s.Landed call := by
    intro call hcall
    obtain ⟨other, hother, _, hrest⟩ := (hleaves call).1 hcall
    exact ⟨other, hother, hrest⟩
  have hother : ∀ {call}, s.Landed call → call ≠ task.call →
      (s.leaves task s.adrift).Landed call := by
    rintro call ⟨other, hother, hcall, hl⟩ hne
    refine (hleaves call).2 ⟨other, hother, ?_, hcall, hl⟩
    rintro rfl
    exact hne hcall.symm
  cases hcall : task.call with
  | submit compiled =>
    have hfresh := h.kept.submits task htask compiled hcall
    have hroom : ((s.leaves task s.adrift).ofTenant compiled.request.tenant).length <
        maxDeleteRequestsPerTenant := hroom compiled hcall
    refine ⟨hkept.finishSubmit { hfresh with } (other_submit h.kept htask hcall) hroom, ?_⟩
    change Agrees ((s.leaves task s.adrift).finishSubmit compiled)
    have haccepted : ((s.leaves task s.adrift).finishSubmit compiled).accepted =
        compiled.request :: s.accepted := by
      rw [State.finishSubmit, if_neg (not_le.2 hroom)]
      rfl
    have hrest : ((s.leaves task s.adrift).finishSubmit compiled).stored = s.stored ∧
        ((s.leaves task s.adrift).finishSubmit compiled).cancelled = s.cancelled ∧
        ∀ call, ((s.leaves task s.adrift).finishSubmit compiled).Landed call ↔
          (s.leaves task s.adrift).Landed call := by
      rw [State.finishSubmit, if_neg (not_le.2 hroom)]
      exact ⟨rfl, rfl, fun _ => Iff.rfl⟩
    refine h.agrees.of_same hrest.1 fun request => ?_
    unfold State.Stored
    rw [haccepted, hrest.2.1]
    simp only [hrest.2.2]
    constructor
    · rintro (⟨hmem, hcancelled, hnot⟩ | ⟨other, hl, rfl⟩)
      · rcases List.mem_cons.1 hmem with rfl | hmem
        · exact .inr ⟨compiled, ⟨task, htask, hcall, hlanded⟩, rfl⟩
        · refine .inl ⟨hmem, hcancelled, fun hl => hnot (hother hl ?_)⟩
          rw [hcall]
          exact Call.noConfusion
      · exact .inr ⟨other, hstill hl, rfl⟩
    · rintro (⟨hmem, hcancelled, hnot⟩ | ⟨other, ⟨task', htask', hcall', hl⟩, rfl⟩)
      · exact .inl ⟨List.mem_cons_of_mem _ hmem, hcancelled, fun hl => hnot (hstill hl)⟩
      · by_cases heq : other = compiled
        · -- it is the one that is answered
          subst heq
          refine .inl ⟨List.mem_cons_self, fun hmem => ?_, fun hl' => ?_⟩
          · obtain ⟨request, hrequest, hid⟩ := h.kept.cancelledAccepted _ hmem
            exact hfresh.unanswered request hrequest hid
          · obtain ⟨task'', htask'', hcall'', _⟩ := hstill hl'
            obtain ⟨request, hrequest, _, hid⟩ := h.kept.cancels task'' htask'' _ _ hcall''
            exact hfresh.unanswered request hrequest hid
        · refine .inr ⟨other, hother ⟨task', htask', hcall', hl⟩ ?_, rfl⟩
          rw [hcall]
          exact fun hsame => heq (Call.submit.inj hsame)
  | cancel tenant requestId =>
    have haccepted := h.kept.cancels task htask tenant requestId hcall
    refine ⟨hkept.finishCancel haccepted, ?_⟩
    change Agrees ((s.leaves task s.adrift).finishCancel tenant requestId)
    refine h.agrees.of_same rfl fun request => ?_
    have hlanded' : ∀ call, ((s.leaves task s.adrift).finishCancel tenant requestId).Landed call ↔
        (s.leaves task s.adrift).Landed call := fun _ => Iff.rfl
    unfold State.Stored
    simp only [hlanded']
    change (request ∈ s.accepted ∧ request.requestId ∉ requestId :: s.cancelled ∧ _) ∨ _ ↔ _
    constructor
    · rintro (⟨hmem, hcancelled, hnot⟩ | ⟨other, hl, rfl⟩)
      · obtain ⟨hne, hcancelled⟩ := not_or.1 (mt List.mem_cons.2 hcancelled)
        refine .inl ⟨hmem, hcancelled, fun hl => hnot (hother hl ?_)⟩
        rw [hcall]
        exact fun hsame => hne (Call.cancel.inj hsame).2
      · exact .inr ⟨other, hstill hl, rfl⟩
    · rintro (⟨hmem, hcancelled, hnot⟩ | ⟨other, hl, rfl⟩)
      · refine .inl ⟨hmem, fun hcons => ?_, fun hl => hnot (hstill hl)⟩
        rcases List.mem_cons.1 hcons with hid | hcons
        · obtain ⟨target, htarget, htenant, hid'⟩ := haccepted
          obtain rfl := h.kept.accepted_inj hmem htarget (hid.trans hid'.symm)
          refine hnot ⟨task, htask, ?_, hlanded⟩
          rw [hcall, htenant, hid']
        · exact hcancelled hcons
      · refine .inr ⟨other, hother hl ?_, rfl⟩
        rw [hcall]
        exact Call.noConfusion

/-- What is loaded are the stored requests, with their selectors. -/
theorem of_load {stored : List DeleteRequest} {held : List CompiledRequest}
    (hload : load parseSelector stored = .ok held) :
    held.map CompiledRequest.request = stored ∧
      ∀ compiled ∈ held, parseSelector compiled.request.query = .ok compiled.selector := by
  have hall : List.Forall₂ (fun request compiled => compiled.request = request ∧
      parseSelector request.query = .ok compiled.selector) stored held := by
    refine (Runs.forall₂_of_mapM hload).imp fun request compiled hcompiled => ?_
    split at hcompiled
    case h_1 selector hselector =>
      obtain rfl := Except.ok.inj hcompiled
      exact ⟨rfl, hselector⟩
    case h_2 => cases hcompiled
  clear hload
  induction hall with
  | nil => exact ⟨rfl, fun _ hmem => absurd hmem List.not_mem_nil⟩
  | cons hfirst _ ih =>
    refine ⟨by rw [List.map_cons, hfirst.1, ih.1], List.forall_mem_cons.2 ⟨?_, ih.2⟩⟩
    rw [hfirst.1]
    exact hfirst.2

/-- **A start** from what the store has, when no call has taken effect without its answer. -/
theorem Inv.restart (h : Inv parseSelector s) (hcalm : Calm s .restart)
    (hstep : step parseSelector s .restart = some s') : Inv parseSelector s' := by
  obtain ⟨hsome, hlanded⟩ := hcalm
  obtain ⟨stored, hstored⟩ := Option.isSome_iff_exists.1 hsome
  obtain ⟨honce, hmem⟩ := h.agrees stored hstored
  have hnone : ∀ call, ¬ s.Landed call := by
    rintro call ⟨task, htask, _, hl⟩
    rw [hlanded task htask] at hl
    cases hl
  have hmem : ∀ request, request ∈ stored ↔
      request ∈ s.accepted ∧ request.requestId ∉ s.cancelled := by
    intro request
    rw [hmem request]
    unfold State.Stored
    simp [hnone]
  rw [step] at hstep
  have hgetD : s.stored.getD [] = stored := by
    rw [hstored]
    rfl
  rw [hgetD] at hstep
  split at hstep
  case h_1 => cases hstep
  case h_2 held hload =>
    obtain rfl := Option.some.inj hstep
    obtain ⟨hrequests, hparsed⟩ := of_load hload
    have hids : (held.map fun compiled => compiled.request.requestId) =
        stored.map DeleteRequest.requestId := by
      rw [← hrequests, List.map_map]
      rfl
    refine ⟨{ h.kept with
      inForce := fun request => ?_
      heldOnce := hids ▸ honce
      parsed := hparsed
      outstanding := rfl
      bounded := fun tenant => ?_
      numbers := List.nodup_nil
      submits := fun _ htask => absurd htask List.not_mem_nil
      submitsOnce := fun _ htask => absurd htask List.not_mem_nil
      cancels := fun _ htask => absurd htask List.not_mem_nil }, ?_⟩
    · rw [← hmem, ← hrequests, List.mem_map]
      have hreceived : ∀ compiled ∈ held, compiled.request.asSubmitted = compiled.request := by
        intro compiled hcompiled
        refine h.kept.received _ ((hmem _).1 ?_).1
        rw [← hrequests]
        exact List.mem_map_of_mem hcompiled
      exact exists_congr fun compiled => and_congr_right fun hcompiled => by
        rw [hreceived compiled hcompiled]
    · -- the requests of the tenant are among those it had
      have hsub : ((held.filter fun compiled => compiled.request.tenant == tenant).map
          fun compiled => compiled.request.requestId) ⊆
          (s.ofTenant tenant).map fun compiled => compiled.request.requestId := by
        intro id hid
        obtain ⟨compiled, hcompiled, rfl⟩ := List.mem_map.1 hid
        obtain ⟨hcompiled, htenant⟩ := List.mem_filter.1 hcompiled
        have hin : compiled.request ∈ stored := by
          rw [← hrequests]
          exact List.mem_map_of_mem hcompiled
        obtain ⟨other, hother, heq⟩ := (h.kept.inForce _).2 ((hmem _).1 hin)
        refine List.mem_map.2 ⟨other, List.mem_filter.2 ⟨hother, ?_⟩, ?_⟩
        · rw [show other.request.tenant = compiled.request.tenant by rw [← heq]; rfl]
          exact htenant
        · rw [← heq]
          rfl
      have hnodup : ((held.filter fun compiled => compiled.request.tenant == tenant).map
          fun compiled => compiled.request.requestId).Nodup :=
        (hids ▸ honce : (held.map fun compiled => compiled.request.requestId).Nodup).sublist
          (List.filter_sublist.map _)
      have hlength := (hnodup.subperm hsub).length_le
      rw [List.length_map, List.length_map] at hlength
      exact hlength.trans (h.kept.bounded tenant)
    · refine h.agrees.of_same rfl fun request => ?_
      have hnone' : ∀ call, ¬ ({ s with
          held := held
          outstanding := held.length
          tasks := []
          adrift := s.adrift ++ (s.tasks.filter fun task => !task.landed).map Task.call } :
          State).Landed call := by
        rintro call ⟨task, htask, _⟩
        cases htask
      unfold State.Stored
      simp only [hnone, hnone']

/-- **A calm step** keeps the memory and the store as they should be. -/
theorem Inv.step (h : Inv parseSelector s) {event : Event} (hcalm : Calm s event)
    (hstep : step parseSelector s event = some s') : Inv parseSelector s' := by
  cases event with
  | submit number requestId tenant query startNs endNs nowNs => exact h.submit hstep
  | cancel number tenant requestId => exact h.cancel hstep
  | lands number =>
    obtain ⟨task, hfind, rfl⟩ := Option.map_eq_some_iff.1 hstep
    have htask := List.mem_of_find?_eq_some hfind
    have hfound := List.find?_some hfind
    obtain ⟨_, hlanded⟩ := Bool.and_eq_true_iff.1 hfound
    exact ⟨h.kept.lands task,
      agrees_lands h.kept htask h.agrees (by rwa [Bool.not_eq_true'] at hlanded)⟩
  | landsLate index => exact hcalm.elim
  | answers number result =>
    obtain ⟨task, hfind, hrest⟩ := Option.bind_eq_some_iff.1 hstep
    have htask := List.mem_of_find?_eq_some hfind
    have hfound := List.find?_some hfind
    have hcalm := hcalm task htask (beq_iff_eq.1 hfound)
    cases result with
    | error message =>
      have hlanded : task.landed = false := hcalm
      rw [hlanded, if_neg Bool.false_ne_true] at hrest
      obtain rfl := Option.some.inj hrest
      exact h.fails htask hlanded _ message
    | ok =>
      split at hrest
      case isTrue hlanded =>
        obtain rfl := Option.some.inj hrest
        refine h.succeeds htask hlanded fun compiled hcall => ?_
        rw [hcall] at hcalm
        exact hcalm
      case isFalse => cases hrest
  | markProcessed metas =>
    obtain rfl := Option.some.inj hstep
    refine ⟨h.kept.markProcessed metas, ?_⟩
    unfold State.markProcessed
    split
    · exact h.agrees
    · exact h.agrees.of_same rfl fun _ => Iff.rfl
  | restart => exact h.restart hcalm hstep

/-! ### Runs -/

/-- A tenant's mask is what it holds. -/
theorem Kept.maskFor_eq (h : Kept parseSelector s) (tenant : String) :
    s.maskFor tenant = s.ofTenant tenant := by
  unfold State.maskFor
  split
  case isTrue hnone =>
    have hheld : s.held = [] := List.length_eq_zero_iff.1 (h.outstanding.symm.trans hnone)
    rw [State.ofTenant, hheld]
    rfl
  case isFalse => rfl

theorem Kept.durable (h : Kept parseSelector s) : Durable parseSelector s where
  inForce := h.inForce
  hidden tenant metadata timestampNs line := by
    rw [h.maskFor_eq, hides, List.any_eq_true]
    constructor
    · rintro ⟨compiled, hmem, hcovers⟩
      obtain ⟨hmem, htenant⟩ := List.mem_filter.1 hmem
      obtain ⟨haccepted, hcancelled⟩ := (h.inForce _).1 ⟨compiled, hmem, rfl⟩
      exact ⟨_, haccepted, hcancelled, beq_iff_eq.1 htenant, compiled.selector,
        h.parsed compiled hmem, hcovers⟩
    · rintro ⟨request, haccepted, hcancelled, htenant, selector, hselector, hcovers⟩
      obtain ⟨compiled, hmem, rfl⟩ := (h.inForce _).2 ⟨haccepted, hcancelled⟩
      refine ⟨compiled, List.mem_filter.2 ⟨hmem, beq_iff_eq.2 htenant⟩, ?_⟩
      have hparsed : parseSelector compiled.request.asSubmitted.query = .ok compiled.selector :=
        h.parsed compiled hmem
      obtain rfl := Except.ok.inj (hparsed.symm.trans hselector)
      exact hcovers
  refused requestId error hmem compiled hcompiled heq :=
    h.apart _ (h.accepted_of_held hcompiled) _ hmem heq.symm
  bounded := h.bounded

/-- **In every run of calm steps** requests are in force as they were answered. -/
theorem durable_of_calm {stored : Option (List DeleteRequest)} (hempty : stored.getD [] = [])
    {events : List Event} (hrun : (machine parseSelector).run (.start stored) events = some s)
    (hcalm : (machine parseSelector).Within (fun s event _ => Calm s event) (.start stored) events) :
    Durable parseSelector s := by
  have hinv : Inv parseSelector s := Machine.run_invariant_within
    (fun s event s' h hstep hcalm => h.step hcalm hstep)
    ⟨kept_start stored, agrees_start stored hempty⟩ hcalm hrun
  exact hinv.kept.durable

/-- A parser that takes every query for one that selects all rows. -/
def anyRow : String → Except String Logql.LogQuery := fun _ => .ok ⟨[], [], []⟩

/-- A submission of a tenant, under the number of its call. -/
def submission (number : ℕ) : Event :=
  .submit number number "a" "" .zero ⟨10, by decide⟩ ⟨5, by decide⟩

/-- Submissions that are accepted one after the other. -/
def oneByOne (count : ℕ) : List Event :=
  (List.range count).flatMap fun number =>
    [submission number, .lands number, .answers number (.ok ())]

/-- Two requests, one of which is cancelled between two starts. -/
def oneCancelled : List Event :=
  oneByOne 2 ++ [.restart, .cancel 2 "a" 0, .lands 2, .answers 2 (.ok ()), .restart]

theorem durable_one_cancelled : ∃ s,
    (machine anyRow).run (.start (some [])) oneCancelled = some s ∧
      s.held.map (fun compiled => compiled.request.requestId) = [1] ∧ Durable anyRow s := by
  have hrun : ((machine anyRow).run (.start (some [])) oneCancelled).any (fun s =>
      s.held.map (fun compiled => compiled.request.requestId) == [1]) = true := by decide +kernel
  obtain ⟨s, hs, hheld⟩ := (Option.any_eq_true _ _).1 hrun
  have hcalm : (machine anyRow).Within (fun s event _ => Calm s event) (.start (some []))
      oneCancelled := by decide +kernel
  exact ⟨s, hs, beq_iff_eq.1 hheld, durable_of_calm rfl hs hcalm⟩

/-- Two submissions find room for one, and both are stored before the first is answered. -/
def crowd : List Event :=
  oneByOne 99 ++ [submission 99, submission 100, .lands 99, .lands 100, .answers 99 (.ok ()),
    .answers 100 (.ok ()), .restart]

/-- **A refused submission in force** after a start, and a tenant with more than it may have: the
second check refuses it and leaves the object where it is. -/
theorem refused_in_force : ∃ s, (machine anyRow).run (.start (some [])) crowd = some s ∧
    (100, DeleteRequestError.tooMany) ∈ s.refused ∧
    (∃ compiled ∈ s.held, compiled.request.requestId = 100) ∧
    maxDeleteRequestsPerTenant < (s.ofTenant "a").length ∧ ¬ Durable anyRow s := by
  have hrun : ((machine anyRow).run (.start (some [])) crowd).any (fun s =>
      decide ((100, DeleteRequestError.tooMany) ∈ s.refused) &&
        s.held.any (fun compiled => compiled.request.requestId == 100) &&
          decide (maxDeleteRequestsPerTenant < (s.ofTenant "a").length)) = true := by
    decide +kernel
  obtain ⟨s, hs, hall⟩ := (Option.any_eq_true _ _).1 hrun
  obtain ⟨hpair, hmany⟩ := Bool.and_eq_true_iff.1 hall
  obtain ⟨hrefused, hheld⟩ := Bool.and_eq_true_iff.1 hpair
  obtain ⟨compiled, hmem, hid⟩ := List.any_eq_true.1 hheld
  refine ⟨s, hs, of_decide_eq_true hrefused, ⟨compiled, hmem, beq_iff_eq.1 hid⟩,
    of_decide_eq_true hmany, fun hdurable => ?_⟩
  exact absurd (hdurable.bounded "a") (not_le.2 (of_decide_eq_true hmany))

end Deletes

end Obsy
