import Mathlib.Data.List.Sort
import Mathlib.Data.Prod.Lex
import Mathlib.Data.String.Basic
import Mathlib.Tactic.Ring

/-!
# The catalog

The catalog names the active parts of the three signals.  It is a chain of commits, one for each
generation; a state is what a chain of commits makes of the empty catalog.

* `applyCatalogMutation`: one commit on top of a state.
* `replayChain`: a chain of commits from the beginning.
* `sealCommit`, `verifyCommit`: the digests that commits carry.
-/

namespace Obsy

namespace Catalog

/-! ### Manifests -/

/-- A part the catalog names. -/
structure ManifestPart where
  /-- Its name in the partition. -/
  id : String
  /-- Its day. -/
  partition : String
deriving DecidableEq

/-- A trace part the catalog names. -/
abbrev TraceManifestPart := ManifestPart

/-- A metric part the catalog names. -/
abbrev MetricManifestPart := ManifestPart

/-- The active parts of a signal. -/
structure Manifest where
  /-- The catalog's generation. -/
  generation : ℕ
  /-- Which writer owns the prefix. -/
  writerEpoch : ℕ
  /-- The parts, by partition and name. -/
  parts : List ManifestPart
deriving DecidableEq

/-- The active trace parts. -/
abbrev TraceManifest := Manifest

/-- The active metric parts. -/
abbrev MetricManifest := Manifest

/-- `Manifest::default`. -/
def Manifest.default : Manifest := ⟨0, 0, []⟩

/-- The signals, each with its own parts. -/
inductive Signal
  | logs
  | traces
  | metrics
deriving DecidableEq

/-- What is wrong with a catalog operation. -/
inductive CatalogError
  /-- A request to the object store failed. -/
  | io
  /-- A part of this name is already there with other contents. -/
  | collision (id : String)
  /-- A manifest with an unsafe path or two parts of one name. -/
  | invalidManifest
  /-- A counter is at its end. -/
  | overflow
  /-- A commit does not follow the state it is applied to. -/
  | parent (generation : ℕ)
  /-- A commit changes the epoch other than by a claim. -/
  | epoch (generation : ℕ)
  /-- An object's digest is not that of its contents. -/
  | digest (generation : ℕ)
  /-- An object holds another generation than its name says. -/
  | misnamed (generation : ℕ)
  /-- The replicas of a generation differ. -/
  | divergent (generation : ℕ)
  /-- Neither replica of a generation can be read. -/
  | invalid (generation : ℕ)
  /-- A generation has no replica. -/
  | missing (generation : ℕ)
  /-- A generation is missing among those listed. -/
  | gap (after found : ℕ)
  /-- A manifest from before the catalog is there. -/
  | legacy
  /-- `FENCED_ERROR`: another process claimed the writer role. -/
  | fenced (held observed : ℕ)
  /-- `INPUTS_CHANGED_ERROR`: the inputs of a replacement are not all there. -/
  | inputsChanged (expected found : ℕ)
  /-- The compare-and-create loop gave up. -/
  | retryLimit
  /-- A minimum age is longer than any time span. -/
  | pruneAge
deriving DecidableEq

/-! ### Paths -/

/-- What a path is made of. -/
inductive PathComponent
  | rootDir
  | curDir
  | parentDir
  | normal (name : List Char)
deriving DecidableEq

/-- The pieces of a path between its slashes. -/
def splitSlash : List Char → List (List Char)
  | [] => [[]]
  | c :: cs =>
    if c = '/' then [] :: splitSlash cs
    else match splitSlash cs with
      | [] => [[c]]
      | piece :: pieces => (c :: piece) :: pieces

/-- A piece of a path that is not its first. -/
def laterComponent (piece : List Char) : Option PathComponent :=
  if piece = [] ∨ piece = ['.'] then none
  else if piece = ['.', '.'] then some .parentDir
  else some (.normal piece)

/-- `Path::components` on a path with slashes: repeated slashes and inner dots are nothing. -/
def pathComponents (path : List Char) : List PathComponent :=
  match splitSlash path with
  | [] => []
  | first :: rest =>
    let head : List PathComponent :=
      if first = [] then (if rest = [] then [] else [.rootDir])
      else if first = ['.'] then [.curDir]
      else (laterComponent first).toList
    head ++ rest.filterMap laterComponent

/-- `is_safe_path_component`. -/
def isSafePathComponent (value : String) : Bool :=
  match pathComponents value.toList with
  | [.normal _] => true
  | _ => false

/-- `validate_manifest`, and the same for traces and metrics. -/
def validateManifest (manifest : Manifest) : Except CatalogError Unit :=
  if (manifest.parts.all fun part =>
      isSafePathComponent part.id && isSafePathComponent part.partition) &&
    decide ((manifest.parts.map (·.id)).Nodup)
  then .ok () else .error .invalidManifest

/-! ### The state -/

structure CatalogState where
  generation : ℕ
  writerEpoch : ℕ
  lastDigest : String
  /-- The transaction of the last commit. -/
  lastTransactionId : String
  manifest : Manifest
  traceManifest : TraceManifest
  metricManifest : MetricManifest
deriving DecidableEq

/-- `CatalogState::default`. -/
def CatalogState.default : CatalogState :=
  ⟨0, 0, "", "", Manifest.default, Manifest.default, Manifest.default⟩

/-- A change of the catalog. -/
structure CatalogMutation where
  transactionId : String
  writerEpoch : ℕ
  /-- Whether it takes the writer role over. -/
  claimWriter : Bool
  logAdded : List ManifestPart
  logRemoved : List String
  traceAdded : List TraceManifestPart
  traceRemoved : List String
  metricAdded : List MetricManifestPart
  metricRemoved : List String
deriving DecidableEq

/-- `CatalogMutation::default`. -/
def CatalogMutation.default : CatalogMutation := ⟨"", 0, false, [], [], [], [], [], []⟩

/-- The active parts of a signal. -/
def CatalogState.listed (state : CatalogState) : Signal → List ManifestPart
  | .logs => state.manifest.parts
  | .traces => state.traceManifest.parts
  | .metrics => state.metricManifest.parts

/-- The parts of a signal that come in. -/
def CatalogMutation.added (mutation : CatalogMutation) : Signal → List ManifestPart
  | .logs => mutation.logAdded
  | .traces => mutation.traceAdded
  | .metrics => mutation.metricAdded

/-- The parts of a signal that go out. -/
def CatalogMutation.removed (mutation : CatalogMutation) : Signal → List String
  | .logs => mutation.logRemoved
  | .traces => mutation.traceRemoved
  | .metrics => mutation.metricRemoved

/-- A part of this name is active. -/
def CatalogState.Lists (state : CatalogState) (signal : Signal) (id : String) : Prop :=
  ∃ part ∈ state.listed signal, part.id = id

/-- A part of this name comes in. -/
def CatalogMutation.Adds (mutation : CatalogMutation) (signal : Signal) (id : String) : Prop :=
  ∃ part ∈ mutation.added signal, part.id = id

/-- Parts of a signal come in for parts that go out. -/
def CatalogMutation.Replaces (mutation : CatalogMutation) (signal : Signal) : Prop :=
  mutation.added signal ≠ [] ∧ mutation.removed signal ≠ []

instance (mutation : CatalogMutation) (signal : Signal) : Decidable (mutation.Replaces signal) :=
  inferInstanceAs (Decidable (mutation.added signal ≠ [] ∧ mutation.removed signal ≠ []))

instance (state : CatalogState) (signal : Signal) (id : String) :
    Decidable (state.Lists signal id) :=
  inferInstanceAs (Decidable (∃ part ∈ state.listed signal, part.id = id))

instance (mutation : CatalogMutation) (signal : Signal) (id : String) :
    Decidable (mutation.Adds signal id) :=
  inferInstanceAs (Decidable (∃ part ∈ mutation.added signal, part.id = id))

/-- A change in the chain. -/
structure CatalogCommit where
  generation : ℕ
  parentGeneration : ℕ
  parentDigest : String
  mutation : CatalogMutation
  digest : String
deriving DecidableEq

/-- A state that saves reading the commits before it. -/
structure CatalogSnapshot where
  generation : ℕ
  throughDigest : String
  state : CatalogState
  digest : String
deriving DecidableEq

/-- `catalog_digest`: the digest of what a value serializes to. -/
structure Digests where
  commit : CatalogCommit → String
  snapshot : CatalogSnapshot → String

variable (digests : Digests)

/-- `seal_catalog_commit`. -/
def sealCommit (commit : CatalogCommit) : CatalogCommit :=
  { commit with digest := digests.commit { commit with digest := "" } }

/-- `verify_catalog_commit`. -/
def verifyCommit (commit : CatalogCommit) : Except CatalogError Unit :=
  if (sealCommit digests commit).digest = commit.digest then .ok ()
  else .error (.digest commit.generation)

/-- `seal_catalog_snapshot`. -/
def sealSnapshot (snapshot : CatalogSnapshot) : CatalogSnapshot :=
  { snapshot with digest := digests.snapshot { snapshot with digest := "" } }

/-- `verify_catalog_snapshot`. -/
def verifySnapshot (snapshot : CatalogSnapshot) : Except CatalogError Unit :=
  if snapshot.state.generation ≠ snapshot.generation then .error (.misnamed snapshot.generation)
  else if snapshot.state.lastDigest ≠ snapshot.throughDigest then
    .error (.digest snapshot.generation)
  else if (sealSnapshot digests snapshot).digest = snapshot.digest then .ok ()
  else .error (.digest snapshot.generation)

@[simp] theorem verifyCommit_sealCommit (commit : CatalogCommit) :
    verifyCommit digests (sealCommit digests commit) = .ok () := if_pos rfl

/-! ### Applying a commit -/

/-- `checked_add(1)` on a `u64`. -/
def checkedSucc (n : ℕ) : Option ℕ := if n + 1 < 2 ^ 64 then some (n + 1) else none

theorem checkedSucc_eq_some {n m : ℕ} (h : checkedSucc n = some m) : m = n + 1 := by
  unfold checkedSucc at h
  split_ifs at h
  exact (Option.some.inj h).symm

/-- The order the parts are kept in. -/
def partKey (part : ManifestPart) : String ×ₗ String := toLex (part.partition, part.id)

/-- Add a part that is not there; one that is there must be the same. -/
def addPart (parts : List ManifestPart) (part : ManifestPart) :
    Except CatalogError (List ManifestPart) :=
  match parts.find? fun item => item.id = part.id with
  | some existing => if existing = part then .ok parts else .error (.collision part.id)
  | none => .ok (parts ++ [part])

/-- What `apply_log_parts`, `apply_trace_parts` and `apply_metric_parts` do. -/
def applyParts (parts added : List ManifestPart) (removed : List String) :
    Except CatalogError (List ManifestPart) := do
  let kept := parts.filter fun part => part.id ∉ removed
  let grown ← added.foldlM addPart kept
  return grown.insertionSort fun left right => partKey left ≤ partKey right

/-- Whether a commit carries the epoch it should: the next one in a claim, else the same. -/
def checkCommitEpoch (state : CatalogState) (commit : CatalogCommit) : Except CatalogError Unit :=
  if commit.mutation.claimWriter then
    match checkedSucc state.writerEpoch with
    | none => .error .overflow
    | some expected =>
      if commit.mutation.writerEpoch = expected then .ok () else .error (.epoch commit.generation)
  else if commit.mutation.writerEpoch = state.writerEpoch then .ok ()
  else .error (.epoch commit.generation)

/-- The state with a commit's parts in and out. -/
def applyManifests (state : CatalogState) (commit : CatalogCommit) :
    Except CatalogError CatalogState := do
  let mutation := commit.mutation
  let logs ← applyParts state.manifest.parts mutation.logAdded mutation.logRemoved
  let traces ← applyParts state.traceManifest.parts mutation.traceAdded mutation.traceRemoved
  let metrics ← applyParts state.metricManifest.parts mutation.metricAdded mutation.metricRemoved
  let next : CatalogState :=
    { generation := commit.generation
      writerEpoch := mutation.writerEpoch
      lastDigest := commit.digest
      lastTransactionId := mutation.transactionId
      manifest := ⟨commit.generation, mutation.writerEpoch, logs⟩
      traceManifest := ⟨commit.generation, mutation.writerEpoch, traces⟩
      metricManifest := ⟨commit.generation, mutation.writerEpoch, metrics⟩ }
  validateManifest next.manifest
  validateManifest next.traceManifest
  validateManifest next.metricManifest
  return next

/-- `apply_catalog_mutation`. -/
def applyCatalogMutation (state : CatalogState) (commit : CatalogCommit) :
    Except CatalogError CatalogState :=
  if commit.parentGeneration ≠ state.generation then .error (.parent commit.generation)
  else if commit.parentDigest ≠ state.lastDigest then .error (.parent commit.generation)
  else
    match checkedSucc state.generation with
    | none => .error .overflow
    | some expected =>
      if commit.generation ≠ expected then .error (.parent commit.generation)
      else do
        checkCommitEpoch state commit
        applyManifests state commit

/-- The state a chain of commits leads to. -/
def replayChain (chain : List CatalogCommit) : Except CatalogError CatalogState :=
  chain.foldlM applyCatalogMutation CatalogState.default

theorem bind_eq_ok {ε α β : Type} {x : Except ε α} {f : α → Except ε β} {b : β} :
    x >>= f = .ok b ↔ ∃ a, x = .ok a ∧ f a = .ok b := by
  cases x with
  | error e => exact ⟨fun h => (by cases h), fun ⟨_, h, _⟩ => by cases h⟩
  | ok a => exact ⟨fun h => ⟨a, rfl, h⟩, fun ⟨_, h, hf⟩ => by cases h; exact hf⟩

theorem addPart_mem {parts grown : List ManifestPart} {part x : ManifestPart}
    (h : addPart parts part = .ok grown) : x ∈ grown ↔ x ∈ parts ∨ x = part := by
  unfold addPart at h
  split at h
  · next existing hfind =>
    split_ifs at h with hsame
    cases h
    subst hsame
    exact ⟨.inl, fun hx => hx.elim id fun hx => hx ▸ List.mem_of_find?_eq_some hfind⟩
  · cases h
    rw [List.mem_append, List.mem_singleton]

theorem addParts_mem {added parts grown : List ManifestPart} {x : ManifestPart}
    (h : added.foldlM addPart parts = .ok grown) : x ∈ grown ↔ x ∈ parts ∨ x ∈ added := by
  induction added generalizing parts with
  | nil =>
    cases h
    rw [List.mem_nil_iff, or_false]
  | cons part added ih =>
    rw [List.foldlM_cons] at h
    obtain ⟨next, hnext, h⟩ := bind_eq_ok.1 h
    rw [ih h, addPart_mem hnext, List.mem_cons, or_assoc]

/-- The parts after a change: those that stay and those that come in. -/
theorem applyParts_mem {parts added result : List ManifestPart} {removed : List String}
    {x : ManifestPart} (h : applyParts parts added removed = .ok result) :
    x ∈ result ↔ (x ∈ parts ∧ x.id ∉ removed) ∨ x ∈ added := by
  obtain ⟨grown, hgrown, h⟩ := bind_eq_ok.1 h
  cases h
  rw [(List.perm_insertionSort _ _).mem_iff, addParts_mem hgrown, List.mem_filter,
    decide_eq_true_iff]

/-- What a commit that applies says of the states before and after it. -/
structure Applied (state : CatalogState) (commit : CatalogCommit) (next : CatalogState) :
    Prop where
  succ : checkedSucc state.generation = some commit.generation
  epoch : checkCommitEpoch state commit = .ok ()
  generation : next.generation = commit.generation
  writerEpoch : next.writerEpoch = commit.mutation.writerEpoch
  lastTransactionId : next.lastTransactionId = commit.mutation.transactionId
  parts : ∀ signal, applyParts (state.listed signal) (commit.mutation.added signal)
    (commit.mutation.removed signal) = .ok (next.listed signal)
  nodup : ∀ signal, ((next.listed signal).map (·.id)).Nodup

theorem validateManifest_nodup {manifest : Manifest} (h : validateManifest manifest = .ok ()) :
    (manifest.parts.map (·.id)).Nodup := by
  unfold validateManifest at h
  split_ifs at h with hvalid
  rw [Bool.and_eq_true] at hvalid
  exact of_decide_eq_true hvalid.2

theorem applied_of_apply {state next : CatalogState} {commit : CatalogCommit}
    (h : applyCatalogMutation state commit = .ok next) : Applied state commit next := by
  unfold applyCatalogMutation at h
  split_ifs at h
  cases hs : checkedSucc state.generation with
  | none => rw [hs] at h; cases h
  | some expected =>
    rw [hs] at h
    dsimp only at h
    split_ifs at h with hgeneration
    obtain ⟨⟨⟩, hepoch, h⟩ := bind_eq_ok.1 h
    unfold applyManifests at h
    obtain ⟨logs, hlogs, h⟩ := bind_eq_ok.1 h
    obtain ⟨traces, htraces, h⟩ := bind_eq_ok.1 h
    obtain ⟨metrics, hmetrics, h⟩ := bind_eq_ok.1 h
    obtain ⟨⟨⟩, hlogsValid, h⟩ := bind_eq_ok.1 h
    obtain ⟨⟨⟩, htracesValid, h⟩ := bind_eq_ok.1 h
    obtain ⟨⟨⟩, hmetricsValid, h⟩ := bind_eq_ok.1 h
    cases h
    refine ⟨hs.trans (congrArg some (not_not.1 hgeneration).symm), hepoch, rfl, rfl, rfl,
      fun signal => ?_, fun signal => ?_⟩
    · cases signal with
      | logs => exact hlogs
      | traces => exact htraces
      | metrics => exact hmetrics
    · cases signal with
      | logs => exact validateManifest_nodup hlogsValid
      | traces => exact validateManifest_nodup htracesValid
      | metrics => exact validateManifest_nodup hmetricsValid

theorem Applied.succ_eq {state next : CatalogState} {commit : CatalogCommit}
    (h : Applied state commit next) : next.generation = state.generation + 1 :=
  h.generation.trans (checkedSucc_eq_some h.succ)

/-- The parts that are active after a commit. -/
theorem Applied.lists_iff {state next : CatalogState} {commit : CatalogCommit}
    (h : Applied state commit next) {signal : Signal} {id : String} : next.Lists signal id ↔
      (state.Lists signal id ∧ id ∉ commit.mutation.removed signal) ∨
        commit.mutation.Adds signal id := by
  constructor
  · rintro ⟨part, hpart, rfl⟩
    rcases (applyParts_mem (h.parts signal)).1 hpart with ⟨hpart, hremoved⟩ | hpart
    · exact .inl ⟨⟨part, hpart, rfl⟩, hremoved⟩
    · exact .inr ⟨part, hpart, rfl⟩
  · rintro (⟨⟨part, hpart, rfl⟩, hremoved⟩ | ⟨part, hpart, rfl⟩)
    · exact ⟨part, (applyParts_mem (h.parts signal)).2 (.inl ⟨hpart, hremoved⟩), rfl⟩
    · exact ⟨part, (applyParts_mem (h.parts signal)).2 (.inr hpart), rfl⟩

/-- A claim takes the next epoch, any other commit keeps the epoch. -/
theorem Applied.epoch_eq {state next : CatalogState} {commit : CatalogCommit}
    (h : Applied state commit next) : next.writerEpoch =
      if commit.mutation.claimWriter then state.writerEpoch + 1 else state.writerEpoch := by
  have hepoch := h.epoch
  unfold checkCommitEpoch at hepoch
  rw [h.writerEpoch]
  split_ifs at hepoch ⊢ with hclaim heq
  · cases hs : checkedSucc state.writerEpoch with
    | none => rw [hs] at hepoch; cases hepoch
    | some expected =>
      rw [hs] at hepoch
      dsimp only at hepoch
      split_ifs at hepoch with heq
      rw [heq, checkedSucc_eq_some hs]
  · exact heq

end Catalog

end Obsy
