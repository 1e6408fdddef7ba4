import Obsy.Logql.Pipeline
import Obsy.Machine.Run
import Obsy.Part.Format

/-!
# Deletion requests

A tenant asks for the rows of a selector and a time range to be hidden.  A submission is checked,
stored, checked against the bound once more and then held in memory; a cancellation is checked, taken
out of the store and then out of memory.  A start holds what is stored.

* `State`: what is held, what is stored, the calls under way, and what calls were answered.
* `step`: a call begins, its object takes effect at the store, the store answers, or all starts over.
* `Durable`: requests are in force as they were answered.
-/

namespace Obsy

namespace Deletes

open Part (Nanos Pairs PartMeta)

/-! ### Requests -/

/-- `MAX_DELETE_REQUESTS_PER_TENANT`. -/
def maxDeleteRequestsPerTenant : ℕ := 100

inductive DeleteStatus where
  | received
  | processed
deriving DecidableEq

structure DeleteRequest where
  /-- The number of its UUID. -/
  requestId : ℕ
  tenant : String
  query : String
  startNs : Nanos
  endNs : Nanos
  createdAtNs : Nanos
  status : DeleteStatus
deriving DecidableEq

/-- The request as it was stored. -/
def DeleteRequest.asSubmitted (request : DeleteRequest) : DeleteRequest :=
  { request with status := .received }

/-- Whether a request has this object at the store. -/
def DeleteRequest.isAt (request : DeleteRequest) (tenant : String) (requestId : ℕ) : Bool :=
  request.tenant == tenant && request.requestId == requestId

/-- A request with its selector parsed. -/
structure CompiledRequest where
  request : DeleteRequest
  selector : Logql.LogQuery

/-- Whether a row is hidden: by its time, its attributes and its line. -/
def CompiledRequest.covers (compiled : CompiledRequest) (metadata : Pairs) (timestampNs : Nanos)
    (line : String) : Bool :=
  if timestampNs < compiled.request.startNs ∨ compiled.request.endNs ≤ timestampNs then false
  else
    let attributes := metadata.foldl (fun labels pair => Logql.put pair.1 pair.2 labels) []
    (compiled.selector.matchers.all fun matcher => matcher.matches attributes) &&
      compiled.selector.lineFilters.all fun filter => filter.matches line

/-- Whether a part may still have a row of the request, by the times of its segments. -/
def CompiledRequest.mayBeHeldBy (compiled : CompiledRequest) (info : PartMeta) : Bool :=
  info.tenants.any fun segment =>
    segment.tenant == compiled.request.tenant && segment.minTsNs < compiled.request.endNs &&
      compiled.request.startNs ≤ segment.maxTsNs

/-- Why a call is refused. -/
inductive DeleteRequestError where
  | invalid (message : String)
  | tooMany
  | notFound
  | storage (message : String)
deriving DecidableEq

/-! ### States -/

/-- A call that waits for the store. -/
inductive Call where
  | submit (compiled : CompiledRequest)
  | cancel (tenant : String) (requestId : ℕ)

/-- What a call does to the store: `put_delete_request`, `remove_delete_request`. -/
def Call.apply (stored : List DeleteRequest) : Call → List DeleteRequest
  | .submit compiled =>
    stored.filter (fun request =>
      !request.isAt compiled.request.tenant compiled.request.requestId) ++ [compiled.request]
  | .cancel tenant requestId => stored.filter fun request => !request.isAt tenant requestId

/-- A call under way, with whether it has taken effect at the store. -/
structure Task where
  number : ℕ
  call : Call
  landed : Bool

structure State where
  /-- `by_tenant`, of all tenants; the requests of one are in their order. -/
  held : List CompiledRequest
  outstanding : ℕ
  /-- The objects of the store, if there is one. -/
  stored : Option (List DeleteRequest)
  tasks : List Task
  /-- Calls whose callers are gone, and which the store may still carry out. -/
  adrift : List Call
  /-- The UUIDs made so far. -/
  made : List ℕ
  /-- The submissions that were answered so. -/
  accepted : List DeleteRequest
  refused : List (ℕ × DeleteRequestError)
  /-- The cancellations that were answered so. -/
  cancelled : List ℕ

/-- A first start. -/
def State.start (stored : Option (List DeleteRequest)) : State :=
  ⟨[], 0, stored, [], [], [], [], [], []⟩

/-- The requests that a tenant holds. -/
def State.ofTenant (s : State) (tenant : String) : List CompiledRequest :=
  s.held.filter fun compiled => compiled.request.tenant == tenant

/-- `mask_for`. -/
def State.maskFor (s : State) (tenant : String) : List CompiledRequest :=
  if s.outstanding = 0 then [] else s.ofTenant tenant

/-- `DeleteMask::hides`. -/
def hides (mask : List CompiledRequest) (metadata : Pairs) (timestampNs : Nanos) (line : String) :
    Bool :=
  mask.any fun compiled => compiled.covers metadata timestampNs line

/-! ### Calls -/

variable (parseSelector : String → Except String Logql.LogQuery)

/-- The beginning of `submit`, up to what it stores. -/
def State.checkSubmit (s : State) (requestId : ℕ) (tenant query : String)
    (startNs endNs nowNs : Nanos) : Except DeleteRequestError CompiledRequest :=
  if endNs ≤ startNs then .error (.invalid "end must be after start")
  else match parseSelector query with
    | .error message => .error (.invalid message)
    | .ok selector =>
      if maxDeleteRequestsPerTenant ≤ (s.ofTenant tenant).length then .error .tooMany
      else .ok ⟨⟨requestId, tenant, query, startNs, endNs, nowNs, .received⟩, selector⟩

def State.refuse (s : State) (requestId : ℕ) (error : DeleteRequestError) : State :=
  { s with refused := (requestId, error) :: s.refused }

/-- The end of `submit`: the bound is checked again. -/
def State.finishSubmit (s : State) (compiled : CompiledRequest) : State :=
  if maxDeleteRequestsPerTenant ≤ (s.ofTenant compiled.request.tenant).length then
    s.refuse compiled.request.requestId .tooMany
  else
    { s with
      held := s.held ++ [compiled]
      outstanding := s.outstanding + 1
      accepted := compiled.request :: s.accepted }

/-- The beginning of `cancel`. -/
def State.checkCancel (s : State) (tenant : String) (requestId : ℕ) :
    Except DeleteRequestError Unit :=
  match s.held.find? fun compiled => compiled.request.isAt tenant requestId with
  | none => .error .notFound
  | some found =>
    if found.request.status = .processed then
      .error (.invalid "this request has already been applied and its data is gone")
    else .ok ()

/-- The end of `cancel`. -/
def State.finishCancel (s : State) (tenant : String) (requestId : ℕ) : State :=
  let left := s.held.filter fun compiled => !compiled.request.isAt tenant requestId
  { s with
    held := left
    outstanding := s.outstanding - (s.held.length - left.length)
    cancelled := requestId :: s.cancelled }

/-- `mark_processed`. -/
def State.markProcessed (s : State) (metas : List PartMeta) : State :=
  if s.outstanding = 0 then s
  else
    { s with
      held := s.held.map fun compiled =>
        if compiled.request.status = .processed then compiled
        else if metas.any compiled.mayBeHeldBy then compiled
        else { compiled with request := { compiled.request with status := .processed } } }

/-- `load`: the stored requests, or an error that a start does not survive. -/
def load (stored : List DeleteRequest) : Except String (List CompiledRequest) :=
  stored.mapM fun request =>
    match parseSelector request.query with
    | .ok selector => .ok ⟨request, selector⟩
    | .error error => .error ("stored delete request is unusable: " ++ error)

/-! ### Steps -/

inductive Event where
  | submit (number requestId : ℕ) (tenant query : String) (startNs endNs nowNs : Nanos)
  | cancel (number : ℕ) (tenant : String) (requestId : ℕ)
  /-- The object of a call is stored or removed. -/
  | lands (number : ℕ)
  /-- That of a call whose caller is gone. -/
  | landsLate (index : ℕ)
  /-- The store answers a call. -/
  | answers (number : ℕ) (result : Except String Unit)
  | markProcessed (metas : List PartMeta)
  | restart

/-- A call begins to wait, under a number that no other has. -/
def State.wait (s : State) (number : ℕ) (call : Call) : Option State :=
  if number ∈ s.tasks.map Task.number then none
  else some { s with tasks := s.tasks ++ [⟨number, call, false⟩] }

/-- The rest of a call once the store has answered. -/
def State.finish (s : State) (call : Call) (result : Except String Unit) : State :=
  match call, result with
  | .submit compiled, .ok () => s.finishSubmit compiled
  | .submit compiled, .error message => s.refuse compiled.request.requestId (.storage message)
  | .cancel tenant requestId, .ok () => s.finishCancel tenant requestId
  | .cancel _ _, .error _ => s

/-- The object of a call is stored or removed. -/
def State.lands (s : State) (task : Task) : State :=
  { s with
    stored := s.stored.map fun stored => task.call.apply stored
    tasks := s.tasks.map fun other =>
      if other.number = task.number then { other with landed := true } else other }

/-- A call is no longer under way. -/
def State.leaves (s : State) (task : Task) (adrift : List Call) : State :=
  { s with
    tasks := s.tasks.filter fun other => other.number != task.number
    adrift := adrift }

/-- A step; a UUID is made once. -/
def step (s : State) : Event → Option State
  | .submit number requestId tenant query startNs endNs nowNs =>
    if requestId ∈ s.made then none
    else
      let s := { s with made := requestId :: s.made }
      match s.checkSubmit parseSelector requestId tenant query startNs endNs nowNs with
      | .error error => some (s.refuse requestId error)
      | .ok compiled =>
        if s.stored.isSome then s.wait number (.submit compiled) else some (s.finishSubmit compiled)
  | .cancel number tenant requestId =>
    match s.checkCancel tenant requestId with
    | .error _ => some s
    | .ok () =>
      if s.stored.isSome then s.wait number (.cancel tenant requestId)
      else some (s.finishCancel tenant requestId)
  | .lands number =>
    (s.tasks.find? fun task => task.number == number && !task.landed).map s.lands
  | .landsLate index =>
    s.adrift[index]?.map fun call =>
      { s with
        stored := s.stored.map fun stored => call.apply stored
        adrift := s.adrift.eraseIdx index }
  | .answers number result =>
    (s.tasks.find? fun task => task.number == number).bind fun task =>
      if task.landed then some ((s.leaves task s.adrift).finish task.call result)
      else match result with
        -- the store does not report what it has not done
        | .ok () => none
        | .error _ => some ((s.leaves task (s.adrift ++ [task.call])).finish task.call result)
  | .markProcessed metas => some (s.markProcessed metas)
  | .restart =>
    match load parseSelector (s.stored.getD []) with
    | .error _ => none
    | .ok held =>
      some { s with
        held := held
        outstanding := held.length
        tasks := []
        adrift := s.adrift ++ (s.tasks.filter fun task => !task.landed).map Task.call }

/-- The requests of a tenant, with the object store they are kept in. -/
def machine : Machine State Event := ⟨step parseSelector⟩

/-! ### What is promised -/

/-- **Requests are in force as they were answered**: those that were accepted and not cancelled hide
their rows, those that were refused do not, and no tenant has more than it may. -/
structure Durable (s : State) : Prop where
  inForce : ∀ request, (∃ compiled ∈ s.held, compiled.request.asSubmitted = request) ↔
    request ∈ s.accepted ∧ request.requestId ∉ s.cancelled
  hidden : ∀ tenant metadata timestampNs line,
    hides (s.maskFor tenant) metadata timestampNs line = true ↔
      ∃ request ∈ s.accepted, request.requestId ∉ s.cancelled ∧ request.tenant = tenant ∧
        ∃ selector, parseSelector request.query = .ok selector ∧
          CompiledRequest.covers ⟨request, selector⟩ metadata timestampNs line = true
  refused : ∀ requestId error, (requestId, error) ∈ s.refused →
    ∀ compiled ∈ s.held, compiled.request.requestId ≠ requestId
  bounded : ∀ tenant, (s.ofTenant tenant).length ≤ maxDeleteRequestsPerTenant

/-- The answer of the store says what it did, and the bound has not been reached meanwhile. -/
def Call.Told (s : State) (call : Call) (landed : Bool) (result : Except String Unit) : Prop :=
  match result, call with
  | .error _, _ => landed = false
  | .ok (), .submit compiled =>
    (s.ofTenant compiled.request.tenant).length < maxDeleteRequestsPerTenant
  | .ok (), .cancel _ _ => True

/-- A step that keeps answers and store together: what was answered with an error has not taken
effect, and does not later; the bound has not been reached when it is checked again; and what has
taken effect is answered before a start from the store. -/
def Calm (s : State) : Event → Prop
  | .landsLate _ => False
  | .answers number result =>
    ∀ task ∈ s.tasks, task.number = number → task.call.Told s task.landed result
  | .restart => s.stored.isSome = true ∧ ∀ task ∈ s.tasks, task.landed = false
  | _ => True

instance (s : State) (landed : Bool) :
    ∀ (call : Call) (result : Except String Unit), Decidable (call.Told s landed result)
  | _, .error _ => inferInstanceAs (Decidable (landed = false))
  | .submit _, .ok () => inferInstanceAs (Decidable (_ < _))
  | .cancel _ _, .ok () => isTrue trivial

instance (s : State) : ∀ event, Decidable (Calm s event)
  | .landsLate _ => isFalse id
  | .answers _ _ => inferInstanceAs (Decidable (∀ task ∈ s.tasks, _ → _))
  | .restart => inferInstanceAs (Decidable (_ ∧ _))
  | .submit _ _ _ _ _ _ _ => isTrue trivial
  | .cancel _ _ _ => isTrue trivial
  | .lands _ => isTrue trivial
  | .markProcessed _ => isTrue trivial

end Deletes

end Obsy
