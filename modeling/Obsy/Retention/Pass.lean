import Obsy.Machine.Run
import Obsy.Retention.Policy

/-!
# The retention pass

A pass chooses the registered parts that have expired whole, removes the directories of those that
are registered still, and takes them out of the registry: at once, or in remote mode before the
manifest drops them, in a section for each signal.  Everything else goes on between these sections.

* `candidates`, `removeDirs`, `retentionMachine`: the pass among the other tasks.
* `Shelf.Sound`, `Stage.Judged`, `Server.Sound.run`: what was chosen has expired whole, whatever
  happens until it is removed.
* `Server.Sound.step`: a step of the pass takes away what has expired whole.
-/

namespace Obsy

namespace Retention

open Part (Nanos)

/-! ### Shelves -/

/-- What the pass asks of the parts of a signal. -/
structure PartKind (α : Type) where
  id : α → String
  fullyExpired : Cutoffs → α → Bool

/-- A registered part and its directory. -/
structure Reader (α : Type) where
  dir : String
  part : α

/-- The parts of a signal: those that are registered, the directories, the manifest of the object
store, and every part there ever was with its directory. -/
structure Shelf (α : Type) where
  readers : List (String × Reader α)
  dirs : List (String × α)
  manifest : List String
  born : List (String × α)

namespace Shelf

variable {α : Type}

def unregister (shelf : Shelf α) (ids : List String) : Shelf α :=
  { shelf with readers := shelf.readers.filter fun entry => entry.1 ∉ ids }

def removeDir (shelf : Shelf α) (dir : String) : Shelf α :=
  { shelf with dirs := shelf.dirs.filter fun entry => entry.1 ≠ dir }

def unlist (shelf : Shelf α) (ids : List String) : Shelf α :=
  { shelf with manifest := shelf.manifest.filter fun id => id ∉ ids }

end Shelf

/-- What the other tasks do to a shelf. -/
inductive ShelfChange (α : Type) where
  /-- A flush or a compaction writes a part into a new directory. -/
  | write (dir : String) (part : α)
  /-- The part of a directory is registered. -/
  | register (dir : String)
  | unregister (id : String)
  | removeDir (dir : String)
  /-- The object store lists a part that was written. -/
  | list (dir : String)
  | unlist (id : String)
  /-- A body comes back from the object store. -/
  | restore (dir : String)

/-- The shelf after a change, when it is possible.  Ids end with a UUID, and a directory is named by
its id. -/
def Shelf.change {α : Type} (kind : PartKind α) (shelf : Shelf α) :
    ShelfChange α → Option (Shelf α)
  | .write dir part =>
    if shelf.born.all fun old => old.1 ≠ dir && kind.id old.2 ≠ kind.id part then
      some { shelf with dirs := shelf.dirs ++ [(dir, part)], born := shelf.born ++ [(dir, part)] }
    else none
  | .register dir =>
    (shelf.dirs.lookup dir).map fun part =>
      { shelf.unregister [kind.id part] with
        readers := (shelf.unregister [kind.id part]).readers ++ [(kind.id part, ⟨dir, part⟩)] }
  | .unregister id => some (shelf.unregister [id])
  | .removeDir dir => some (shelf.removeDir dir)
  | .list dir =>
    (shelf.born.lookup dir).map fun part =>
      { shelf with manifest := shelf.manifest ++ [kind.id part] }
  | .unlist id => some (shelf.unlist [id])
  | .restore dir =>
    (shelf.born.lookup dir).map fun part => { shelf with dirs := shelf.dirs ++ [(dir, part)] }

/-! ### The pass -/

/-- An id and a directory. -/
abbrev Candidate := String × String

/-- The registered parts that have expired whole, in the order of their ids, a batch of them. -/
def candidates {α : Type} (kind : PartKind α) (cutoffs : Cutoffs) (batchSize : ℕ)
    (shelf : Shelf α) : List Candidate :=
  ((shelf.readers.filter fun entry => kind.fullyExpired cutoffs entry.2.part).map fun entry =>
    (kind.id entry.2.part, entry.2.dir)).mergeSort (fun a b => a.1 ≤ b.1) |>.take (max batchSize 1)

/-- How `remove_part_dirs` ends for one directory: with an error it may have gone or not. -/
inductive Removal where
  | removed
  | failed (gone : Bool)
deriving DecidableEq

/-- The directories of the candidates that are registered still, until one cannot be removed: the
shelf after it, the ids of the removed, and whether all were tried. -/
def removeDirs {α : Type} (active : List Candidate) (outcome : String → Removal) :
    Shelf α → List Candidate → Shelf α × List String × Bool
  | shelf, [] => (shelf, [], true)
  | shelf, (id, dir) :: rest =>
    if active.lookup id = some dir then
      match outcome dir with
      | .removed =>
        let (shelf, ids, done) := removeDirs active outcome (shelf.removeDir dir) rest
        (shelf, id :: ids, done)
      | .failed gone => (if gone then shelf.removeDir dir else shelf, [], false)
    else removeDirs active outcome shelf rest

/-- The directories of the registered parts, by id. -/
def activeDirs {α : Type} (kind : PartKind α) (shelf : Shelf α) : List Candidate :=
  shelf.readers.map fun entry => (kind.id entry.2.part, entry.2.dir)

/-- A section that follows in remote mode. -/
inductive Retirement where
  | unregister (signal : Signal) (ids : List String)
  | dropFromManifest (signal : Signal) (ids : List String)
deriving DecidableEq

/-- Where the pass is. -/
inductive Stage where
  | idle
  | decided (cutoffs : Cutoffs) (logs traces metrics : List Candidate)
  | retiring (cutoffs : Cutoffs) (sections : List Retirement)

/-- The cutoffs of the pass that is on its way. -/
def Stage.cutoffs : Stage → Option Cutoffs
  | .idle => none
  | .decided cutoffs .. => some cutoffs
  | .retiring cutoffs _ => some cutoffs

/-- The sections of remote mode: the registry of a signal first, then its manifest. -/
def retirements (removed : List (Signal × List String)) : List Retirement :=
  (removed.filter fun entry => !entry.2.isEmpty).flatMap fun entry =>
    [.unregister entry.1 entry.2, .dropFromManifest entry.1 entry.2]

/-- The three shelves and the pass. -/
structure Server (α β γ : Type) where
  logs : Shelf α
  traces : Shelf β
  metrics : Shelf γ
  stage : Stage

/-- What happens. -/
inductive ServerEvent (α β γ : Type) where
  | logs (change : ShelfChange α)
  | traces (change : ShelfChange β)
  | metrics (change : ShelfChange γ)
  /-- The first section of the pass; without a policy store there are no cutoffs. -/
  | decide (cutoffs : Option Cutoffs) (batchSize : ℕ)
  /-- The section under the write guards. -/
  | remove (remote : Bool) (logs traces metrics : String → Removal)
  /-- The next section of remote mode. -/
  | retire
  /-- An error of the object store ends the pass. -/
  | fail

/-- Whether an event is one of the pass. -/
def ServerEvent.IsRetention {α β γ : Type} : ServerEvent α β γ → Prop
  | .logs _ | .traces _ | .metrics _ => False
  | .decide .. | .remove .. | .retire | .fail => True

section Machine

variable {α β γ : Type} (logKind : PartKind α) (traceKind : PartKind β) (metricKind : PartKind γ)

namespace Server

/-- `retention_once_at` up to the release of the read guard. -/
def decide (server : Server α β γ) (cutoffs : Cutoffs) (batchSize : ℕ) : Server α β γ :=
  let logs := candidates logKind cutoffs batchSize server.logs
  let traces := candidates traceKind cutoffs batchSize server.traces
  let metrics := candidates metricKind cutoffs batchSize server.metrics
  if logs.isEmpty && traces.isEmpty && metrics.isEmpty then server
  else { server with stage := .decided cutoffs logs traces metrics }

/-- The removals, signal by signal; an error leaves the rest and every registry as they are. -/
def remove (server : Server α β γ) (cutoffs : Cutoffs) (logs traces metrics : List Candidate)
    (remote : Bool) (logOutcome traceOutcome metricOutcome : String → Removal) : Server α β γ :=
  let (logShelf, logIds, logsDone) :=
    removeDirs (activeDirs logKind server.logs) logOutcome server.logs logs
  if !logsDone then { server with logs := logShelf, stage := .idle }
  else
    let (traceShelf, traceIds, tracesDone) :=
      removeDirs (activeDirs traceKind server.traces) traceOutcome server.traces traces
    if !tracesDone then { server with logs := logShelf, traces := traceShelf, stage := .idle }
    else
      let (metricShelf, metricIds, metricsDone) :=
        removeDirs (activeDirs metricKind server.metrics) metricOutcome server.metrics metrics
      if !metricsDone then ⟨logShelf, traceShelf, metricShelf, .idle⟩
      else if remote then
        ⟨logShelf, traceShelf, metricShelf, .retiring cutoffs
          (retirements [(.logs, logIds), (.traces, traceIds), (.metrics, metricIds)])⟩
      else
        ⟨logShelf.unregister logIds, traceShelf.unregister traceIds,
          metricShelf.unregister metricIds, .idle⟩

/-- A section of remote mode. -/
def retire (server : Server α β γ) : Retirement → Server α β γ
  | .unregister .logs ids => { server with logs := server.logs.unregister ids }
  | .unregister .traces ids => { server with traces := server.traces.unregister ids }
  | .unregister .metrics ids => { server with metrics := server.metrics.unregister ids }
  | .dropFromManifest .logs ids => { server with logs := server.logs.unlist ids }
  | .dropFromManifest .traces ids => { server with traces := server.traces.unlist ids }
  | .dropFromManifest .metrics ids => { server with metrics := server.metrics.unlist ids }

end Server

/-- The pass among the other tasks. -/
def retentionMachine : Machine (Server α β γ) (ServerEvent α β γ) where
  step server
    | .logs change => (server.logs.change logKind change).map fun logs => { server with logs }
    | .traces change =>
      (server.traces.change traceKind change).map fun traces => { server with traces }
    | .metrics change =>
      (server.metrics.change metricKind change).map fun metrics => { server with metrics }
    | .decide cutoffs batchSize =>
      match server.stage, cutoffs with
      | .idle, none => some server
      | .idle, some cutoffs =>
        some (server.decide logKind traceKind metricKind cutoffs batchSize)
      | _, _ => none
    | .remove remote logOutcome traceOutcome metricOutcome =>
      match server.stage with
      | .decided cutoffs logs traces metrics =>
        some (server.remove logKind traceKind metricKind cutoffs logs traces metrics remote
          logOutcome traceOutcome metricOutcome)
      | _ => none
    | .retire =>
      match server.stage with
      | .retiring _ [] => some { server with stage := .idle }
      | .retiring cutoffs (next :: sections) =>
        some { server.retire next with stage := .retiring cutoffs sections }
      | _ => none
    | .fail =>
      match server.stage with
      | .retiring .. => some { server with stage := .idle }
      | _ => none

end Machine

/-! ### Parts are what they were written as -/

variable {α β γ : Type} {kind : PartKind α} {shelf shelf' : Shelf α} {cutoffs : Cutoffs}

/-- Ids and directories are of one part each, and what is registered or on disk was written. -/
structure Shelf.Sound (kind : PartKind α) (shelf : Shelf α) : Prop where
  named : ∀ a ∈ shelf.born, ∀ b ∈ shelf.born, a.1 = b.1 ∨ kind.id a.2 = kind.id b.2 → a = b
  readers : ∀ entry ∈ shelf.readers, entry.1 = kind.id entry.2.part ∧
    (entry.2.dir, entry.2.part) ∈ shelf.born
  dirs : ∀ entry ∈ shelf.dirs, entry ∈ shelf.born

theorem mem_of_lookup {κ δ : Type} [DecidableEq κ] {entries : List (κ × δ)} {key : κ} {value : δ}
    (h : entries.lookup key = some value) : (key, value) ∈ entries := by
  induction entries with
  | nil => cases h
  | cons entry entries ih =>
    rw [List.lookup_cons] at h
    split at h
    · rename_i heq
      rw [beq_iff_eq] at heq
      obtain rfl := Option.some.inj h
      exact heq ▸ List.mem_cons_self
    · exact List.mem_cons_of_mem _ (ih h)

theorem Shelf.Sound.unregister (h : shelf.Sound kind) (ids : List String) :
    (shelf.unregister ids).Sound kind :=
  ⟨h.named, fun entry he => h.readers entry (List.mem_of_mem_filter he), h.dirs⟩

theorem Shelf.Sound.removeDir (h : shelf.Sound kind) (dir : String) :
    (shelf.removeDir dir).Sound kind :=
  ⟨h.named, h.readers, fun entry he => h.dirs entry (List.mem_of_mem_filter he)⟩

theorem Shelf.Sound.unlist (h : shelf.Sound kind) (ids : List String) :
    (shelf.unlist ids).Sound kind :=
  ⟨h.named, h.readers, h.dirs⟩

/-- **Other tasks** keep parts what they were written as; nothing written is forgotten. -/
theorem Shelf.Sound.change (h : shelf.Sound kind) {change : ShelfChange α}
    (hchange : shelf.change kind change = some shelf') :
    shelf'.Sound kind ∧ ∀ old ∈ shelf.born, old ∈ shelf'.born := by
  cases change with
  | write dir part =>
    simp only [Shelf.change, Option.ite_none_right_eq_some, List.all_eq_true, Bool.and_eq_true,
      decide_eq_true_eq, Option.some.injEq] at hchange
    obtain ⟨hnew, rfl⟩ := hchange
    refine ⟨⟨fun a ha b hb hab => ?_, fun entry he => ?_, fun entry he => ?_⟩,
      fun old ho => List.mem_append_left _ ho⟩
    · rcases List.mem_append.1 ha with ha | ha <;> rcases List.mem_append.1 hb with hb | hb
      · exact h.named a ha b hb hab
      · rw [List.mem_singleton.1 hb] at hab
        exact absurd hab (not_or.2 (hnew a ha))
      · rw [List.mem_singleton.1 ha] at hab
        exact absurd (hab.imp Eq.symm Eq.symm) (not_or.2 (hnew b hb))
      · rw [List.mem_singleton.1 ha, List.mem_singleton.1 hb]
    · exact ⟨(h.readers entry he).1, List.mem_append_left _ (h.readers entry he).2⟩
    · rcases List.mem_append.1 he with he | he
      · exact List.mem_append_left _ (h.dirs entry he)
      · exact List.mem_append_right _ he
  | register dir =>
    obtain ⟨part, hpart, rfl⟩ := Option.map_eq_some_iff.1 hchange
    refine ⟨⟨h.named, fun entry he => ?_, h.dirs⟩, fun old ho => ho⟩
    rcases List.mem_append.1 he with he | he
    · exact h.readers entry (List.mem_of_mem_filter he)
    · rw [List.mem_singleton.1 he]
      exact ⟨rfl, h.dirs _ (mem_of_lookup hpart)⟩
  | unregister id =>
    obtain rfl := Option.some.inj hchange
    exact ⟨h.unregister _, fun old ho => ho⟩
  | removeDir dir =>
    obtain rfl := Option.some.inj hchange
    exact ⟨h.removeDir _, fun old ho => ho⟩
  | list dir =>
    obtain ⟨part, -, rfl⟩ := Option.map_eq_some_iff.1 hchange
    exact ⟨⟨h.named, h.readers, h.dirs⟩, fun old ho => ho⟩
  | unlist id =>
    obtain rfl := Option.some.inj hchange
    exact ⟨h.unlist _, fun old ho => ho⟩
  | restore dir =>
    obtain ⟨part, hpart, rfl⟩ := Option.map_eq_some_iff.1 hchange
    refine ⟨⟨h.named, h.readers, fun entry he => ?_⟩, fun old ho => ho⟩
    rcases List.mem_append.1 he with he | he
    · exact h.dirs entry he
    · rw [List.mem_singleton.1 he]
      exact mem_of_lookup hpart

/-! ### Chosen parts -/

/-- An id is of a part that has expired whole. -/
def Doomed (kind : PartKind α) (shelf : Shelf α) (cutoffs : Cutoffs) (id : String) : Prop :=
  ∃ old ∈ shelf.born, kind.id old.2 = id ∧ kind.fullyExpired cutoffs old.2 = true

/-- A candidate is the directory of a part that has expired whole. -/
def Chosen (kind : PartKind α) (shelf : Shelf α) (cutoffs : Cutoffs) (candidate : Candidate) : Prop :=
  ∃ part, (candidate.2, part) ∈ shelf.born ∧ kind.id part = candidate.1 ∧
    kind.fullyExpired cutoffs part = true

theorem Chosen.doomed {candidate : Candidate} (h : Chosen kind shelf cutoffs candidate) :
    Doomed kind shelf cutoffs candidate.1 := by
  obtain ⟨part, hborn, hid, hexpired⟩ := h
  exact ⟨_, hborn, hid, hexpired⟩

theorem Chosen.mono {candidate : Candidate} (h : Chosen kind shelf cutoffs candidate)
    (hborn : ∀ old ∈ shelf.born, old ∈ shelf'.born) : Chosen kind shelf' cutoffs candidate := by
  obtain ⟨part, hmem, hid, hexpired⟩ := h
  exact ⟨part, hborn _ hmem, hid, hexpired⟩

theorem Doomed.mono {id : String} (h : Doomed kind shelf cutoffs id)
    (hborn : ∀ old ∈ shelf.born, old ∈ shelf'.born) : Doomed kind shelf' cutoffs id := by
  obtain ⟨old, hmem, hid, hexpired⟩ := h
  exact ⟨old, hborn _ hmem, hid, hexpired⟩

/-- The decision. -/
theorem chosen_candidates (h : shelf.Sound kind) (batchSize : ℕ) :
    ∀ candidate ∈ candidates kind cutoffs batchSize shelf, Chosen kind shelf cutoffs candidate := by
  intro candidate hmem
  obtain ⟨entry, hentry, rfl⟩ := List.mem_map.1 (List.mem_mergeSort.1 (List.mem_of_mem_take hmem))
  obtain ⟨hreader, hexpired⟩ := List.mem_filter.1 hentry
  exact ⟨entry.2.part, (h.readers entry hreader).2, rfl, hexpired⟩

/-- A part that a shelf no longer has: registered, on disk or in the manifest. -/
def Lost (kind : PartKind α) (before after : Shelf α) (part : α) : Prop :=
  (∃ entry ∈ before.readers, entry ∉ after.readers ∧ entry.2.part = part) ∨
    (∃ entry ∈ before.dirs, entry ∉ after.dirs ∧ entry.2 = part) ∨
    ((∃ entry ∈ before.born, entry.2 = part) ∧
      kind.id part ∈ before.manifest ∧ kind.id part ∉ after.manifest)

theorem not_lost_self (part : α) : ¬Lost kind shelf shelf part := by
  rintro (⟨entry, he, hne, -⟩ | ⟨entry, he, hne, -⟩ | ⟨-, he, hne⟩) <;> exact hne he

theorem Doomed.expired (h : shelf.Sound kind) {part : α}
    (hborn : ∃ entry ∈ shelf.born, entry.2 = part) (hdoomed : Doomed kind shelf cutoffs (kind.id part)) :
    kind.fullyExpired cutoffs part = true := by
  obtain ⟨entry, hentry, rfl⟩ := hborn
  obtain ⟨old, hold, hid, hexpired⟩ := hdoomed
  rwa [← h.named old hold entry hentry (.inr hid)]

/-- What lies in the directory of a chosen part. -/
theorem Chosen.expired (h : shelf.Sound kind) {candidate : Candidate}
    (hchosen : Chosen kind shelf cutoffs candidate) {entry : String × α} (hentry : entry ∈ shelf.born)
    (hdir : entry.1 = candidate.2) : kind.fullyExpired cutoffs entry.2 = true := by
  obtain ⟨part, hborn, -, hexpired⟩ := hchosen
  rwa [h.named entry hentry _ hborn (.inl hdir)]

/-- **Unregistering** doomed ids. -/
theorem lost_unregister (h : shelf.Sound kind) {ids : List String}
    (hids : ∀ id ∈ ids, Doomed kind shelf cutoffs id) {part : α}
    (hlost : Lost kind shelf (shelf.unregister ids) part) :
    kind.fullyExpired cutoffs part = true := by
  rcases hlost with ⟨entry, he, hgone, rfl⟩ | ⟨entry, he, hgone, -⟩ | ⟨-, he, hgone⟩
  · obtain ⟨hid, hborn⟩ := h.readers entry he
    have hmem : entry.1 ∈ ids := by
      by_contra hnot
      exact hgone (List.mem_filter.2 ⟨he, decide_eq_true hnot⟩)
    exact Doomed.expired h ⟨_, hborn, rfl⟩ (hid ▸ hids _ hmem)
  · exact absurd he hgone
  · exact absurd he hgone

/-- **Dropping** doomed ids from the manifest. -/
theorem lost_unlist (h : shelf.Sound kind) {ids : List String}
    (hids : ∀ id ∈ ids, Doomed kind shelf cutoffs id) {part : α}
    (hlost : Lost kind shelf (shelf.unlist ids) part) :
    kind.fullyExpired cutoffs part = true := by
  rcases hlost with ⟨entry, he, hgone, -⟩ | ⟨entry, he, hgone, -⟩ | ⟨hborn, he, hgone⟩
  · exact absurd he hgone
  · exact absurd he hgone
  · have hmem : kind.id part ∈ ids := by
      by_contra hnot
      exact hgone (List.mem_filter.2 ⟨he, decide_eq_true hnot⟩)
    exact Doomed.expired h hborn (hids _ hmem)

/-- What the removal leaves: it removes directories of chosen parts alone. -/
structure Removed (kind : PartKind α) (cutoffs : Cutoffs) (before after : Shelf α)
    (ids : List String) : Prop where
  sound : after.Sound kind
  born : after.born = before.born
  readers : after.readers = before.readers
  manifest : after.manifest = before.manifest
  dirs : ∀ entry ∈ before.dirs, entry ∉ after.dirs → kind.fullyExpired cutoffs entry.2 = true
  doomed : ∀ id ∈ ids, Doomed kind before cutoffs id

theorem removed_refl (h : shelf.Sound kind) : Removed kind cutoffs shelf shelf [] :=
  ⟨h, rfl, rfl, rfl, fun _ he hgone => absurd he hgone, nofun⟩

theorem removed_removeDir (h : shelf.Sound kind) {candidate : Candidate}
    (hchosen : Chosen kind shelf cutoffs candidate) :
    Removed kind cutoffs shelf (shelf.removeDir candidate.2) [] := by
  refine ⟨h.removeDir _, rfl, rfl, rfl, fun entry he hgone => ?_, nofun⟩
  have hdir : entry.1 = candidate.2 := by
    by_contra hnot
    exact hgone (List.mem_filter.2 ⟨he, decide_eq_true hnot⟩)
  exact hchosen.expired h (h.dirs entry he) hdir

/-- **The removals** of a signal. -/
theorem removed_removeDirs (h : shelf.Sound kind) (active : List Candidate)
    (outcome : String → Removal) {chosen : List Candidate}
    (hchosen : ∀ candidate ∈ chosen, Chosen kind shelf cutoffs candidate) :
    Removed kind cutoffs shelf (removeDirs active outcome shelf chosen).1
      (removeDirs active outcome shelf chosen).2.1 := by
  induction chosen generalizing shelf with
  | nil => exact removed_refl h
  | cons candidate chosen ih =>
    obtain ⟨id, dir⟩ := candidate
    have hfirst := hchosen (id, dir) List.mem_cons_self
    have hrest := fun c hc => hchosen c (List.mem_cons_of_mem _ hc)
    rw [removeDirs]
    by_cases hactive : active.lookup id = some dir
    case neg =>
      rw [if_neg hactive]
      exact ih h hrest
    rw [if_pos hactive]
    cases outcome dir with
    | failed gone =>
      cases gone
      · exact removed_refl h
      · exact removed_removeDir h hfirst
    | removed =>
      have hone : Removed kind cutoffs shelf (shelf.removeDir dir) [] := removed_removeDir h hfirst
      have hmore := ih hone.sound fun c hc => hrest c hc
      refine ⟨hmore.sound, hmore.born, hmore.readers, hmore.manifest, fun entry he hgone => ?_,
        fun i hi => ?_⟩
      · by_cases hstill : entry ∈ (shelf.removeDir dir).dirs
        · exact hmore.dirs entry hstill hgone
        · exact hone.dirs entry he hstill
      · rcases List.mem_cons.1 hi with rfl | hi
        · exact hfirst.doomed
        · exact hmore.doomed i hi

theorem Removed.lost {after : Shelf α} {ids : List String}
    (h : Removed kind cutoffs shelf after ids) {part : α} (hlost : Lost kind shelf after part) :
    kind.fullyExpired cutoffs part = true := by
  rcases hlost with ⟨entry, he, hgone, rfl⟩ | ⟨entry, he, hgone, rfl⟩ | ⟨-, he, hgone⟩
  · exact absurd (h.readers ▸ he) hgone
  · exact h.dirs entry he hgone
  · exact absurd (h.manifest ▸ he) hgone

/-- The removals, and then the registry. -/
theorem Removed.lost_unregister {after : Shelf α} {ids : List String}
    (h : Removed kind cutoffs shelf after ids) {part : α}
    (hlost : Lost kind shelf (after.unregister ids) part) :
    kind.fullyExpired cutoffs part = true := by
  have hids : ∀ id ∈ ids, Doomed kind after cutoffs id := fun id hid =>
    (h.doomed id hid).mono fun old hold => h.born.symm ▸ hold
  rcases hlost with ⟨entry, he, hgone, rfl⟩ | hlost
  · exact Retention.lost_unregister h.sound hids (.inl ⟨entry, h.readers.symm ▸ he, hgone, rfl⟩)
  · exact h.lost (.inr hlost)

/-! ### The pass as a whole -/

section Machine

variable {logKind : PartKind α} {traceKind : PartKind β} {metricKind : PartKind γ}

/-- The ids of a section are of parts that have expired whole. -/
def Retirement.Judged (logKind : PartKind α) (traceKind : PartKind β) (metricKind : PartKind γ)
    (server : Server α β γ) (cutoffs : Cutoffs) (retirement : Retirement) : Prop :=
  match retirement with
  | .unregister .logs ids | .dropFromManifest .logs ids =>
    ∀ id ∈ ids, Doomed logKind server.logs cutoffs id
  | .unregister .traces ids | .dropFromManifest .traces ids =>
    ∀ id ∈ ids, Doomed traceKind server.traces cutoffs id
  | .unregister .metrics ids | .dropFromManifest .metrics ids =>
    ∀ id ∈ ids, Doomed metricKind server.metrics cutoffs id

/-- What the pass holds on to has expired whole, whatever happened since it was chosen. -/
def Stage.Judged (logKind : PartKind α) (traceKind : PartKind β) (metricKind : PartKind γ)
    (server : Server α β γ) : Stage → Prop
  | .idle => True
  | .decided cutoffs logs traces metrics =>
    (∀ c ∈ logs, Chosen logKind server.logs cutoffs c) ∧
    (∀ c ∈ traces, Chosen traceKind server.traces cutoffs c) ∧
    ∀ c ∈ metrics, Chosen metricKind server.metrics cutoffs c
  | .retiring cutoffs sections =>
    ∀ retirement ∈ sections, retirement.Judged logKind traceKind metricKind server cutoffs

/-- The shelves are sound and the pass is judged. -/
structure Server.Sound (logKind : PartKind α) (traceKind : PartKind β) (metricKind : PartKind γ)
    (server : Server α β γ) : Prop where
  logs : server.logs.Sound logKind
  traces : server.traces.Sound traceKind
  metrics : server.metrics.Sound metricKind
  judged : server.stage.Judged logKind traceKind metricKind server

variable {server server' : Server α β γ}

/-- What was judged stays so while nothing written is forgotten. -/
theorem Stage.Judged.mono {stage : Stage} (h : stage.Judged logKind traceKind metricKind server)
    (hlogs : ∀ old ∈ server.logs.born, old ∈ server'.logs.born)
    (htraces : ∀ old ∈ server.traces.born, old ∈ server'.traces.born)
    (hmetrics : ∀ old ∈ server.metrics.born, old ∈ server'.metrics.born) :
    stage.Judged logKind traceKind metricKind server' := by
  cases stage with
  | idle => trivial
  | decided cutoffs logs traces metrics =>
    exact ⟨fun c hc => (h.1 c hc).mono hlogs, fun c hc => (h.2.1 c hc).mono htraces,
      fun c hc => (h.2.2 c hc).mono hmetrics⟩
  | retiring cutoffs sections =>
    intro retirement hs
    have hsection := h retirement hs
    cases retirement with
    | unregister signal ids =>
      cases signal
      · exact fun id hid => (hsection id hid).mono hlogs
      · exact fun id hid => (hsection id hid).mono htraces
      · exact fun id hid => (hsection id hid).mono hmetrics
    | dropFromManifest signal ids =>
      cases signal
      · exact fun id hid => (hsection id hid).mono hlogs
      · exact fun id hid => (hsection id hid).mono htraces
      · exact fun id hid => (hsection id hid).mono hmetrics

/-- The sections that follow a removal. -/
theorem judged_retirements {logIds traceIds metricIds : List String}
    (hlogs : ∀ id ∈ logIds, Doomed logKind server.logs cutoffs id)
    (htraces : ∀ id ∈ traceIds, Doomed traceKind server.traces cutoffs id)
    (hmetrics : ∀ id ∈ metricIds, Doomed metricKind server.metrics cutoffs id) :
    ∀ retirement ∈ retirements [(.logs, logIds), (.traces, traceIds), (.metrics, metricIds)],
      retirement.Judged logKind traceKind metricKind server cutoffs := by
  intro retirement hs
  obtain ⟨entry, hentry, hsection⟩ := List.mem_flatMap.1 hs
  have hcases := List.mem_of_mem_filter hentry
  simp only [List.mem_cons, List.not_mem_nil, or_false] at hcases hsection
  rcases hcases with rfl | rfl | rfl <;> rcases hsection with rfl | rfl
  · exact hlogs
  · exact hlogs
  · exact htraces
  · exact htraces
  · exact hmetrics
  · exact hmetrics

/-- A retention event takes away what has expired whole under the cutoffs of its pass. -/
def TakesExpired (logKind : PartKind α) (traceKind : PartKind β) (metricKind : PartKind γ)
    (server server' : Server α β γ) (cutoffs : Cutoffs) : Prop :=
  (∀ part, Lost logKind server.logs server'.logs part → logKind.fullyExpired cutoffs part = true) ∧
  (∀ part, Lost traceKind server.traces server'.traces part →
    traceKind.fullyExpired cutoffs part = true) ∧
  ∀ part, Lost metricKind server.metrics server'.metrics part →
    metricKind.fullyExpired cutoffs part = true

theorem takesExpired_of_eq (hlogs : server'.logs = server.logs)
    (htraces : server'.traces = server.traces) (hmetrics : server'.metrics = server.metrics)
    (cutoffs : Cutoffs) : TakesExpired logKind traceKind metricKind server server' cutoffs := by
  refine ⟨fun part hlost => ?_, fun part hlost => ?_, fun part hlost => ?_⟩
  · exact absurd (hlogs ▸ hlost) (not_lost_self part)
  · exact absurd (htraces ▸ hlost) (not_lost_self part)
  · exact absurd (hmetrics ▸ hlost) (not_lost_self part)

/-- **The section under the write guards.** -/
theorem Server.Sound.remove (h : server.Sound logKind traceKind metricKind)
    {logs traces metrics : List Candidate}
    (hstage : server.stage = .decided cutoffs logs traces metrics) (remote : Bool)
    (logOutcome traceOutcome metricOutcome : String → Removal) :
    let after := server.remove logKind traceKind metricKind cutoffs logs traces metrics remote
      logOutcome traceOutcome metricOutcome
    after.Sound logKind traceKind metricKind ∧
      TakesExpired logKind traceKind metricKind server after cutoffs := by
  have hjudged := h.judged
  rw [hstage] at hjudged
  obtain ⟨hchosenLogs, hchosenTraces, hchosenMetrics⟩ := hjudged
  have hl := removed_removeDirs h.logs (activeDirs logKind server.logs) logOutcome hchosenLogs
  have ht := removed_removeDirs h.traces (activeDirs traceKind server.traces) traceOutcome
    hchosenTraces
  have hm := removed_removeDirs h.metrics (activeDirs metricKind server.metrics) metricOutcome
    hchosenMetrics
  intro after
  simp only [after, Server.remove]
  split
  · -- a log directory could not be removed
    exact ⟨⟨hl.sound, h.traces, h.metrics, trivial⟩, fun part hlost => hl.lost hlost,
      fun part hlost => absurd hlost (not_lost_self part),
      fun part hlost => absurd hlost (not_lost_self part)⟩
  · split
    · -- a trace directory could not be removed
      exact ⟨⟨hl.sound, ht.sound, h.metrics, trivial⟩, fun part hlost => hl.lost hlost,
        fun part hlost => ht.lost hlost, fun part hlost => absurd hlost (not_lost_self part)⟩
    · split
      · -- a metric directory could not be removed
        exact ⟨⟨hl.sound, ht.sound, hm.sound, trivial⟩, fun part hlost => hl.lost hlost,
          fun part hlost => ht.lost hlost, fun part hlost => hm.lost hlost⟩
      · split
        · -- remote mode leaves the registries for later
          refine ⟨⟨hl.sound, ht.sound, hm.sound, ?_⟩, fun part hlost => hl.lost hlost,
            fun part hlost => ht.lost hlost, fun part hlost => hm.lost hlost⟩
          exact judged_retirements
            (fun id hid => (hl.doomed id hid).mono fun old hold => hl.born.symm ▸ hold)
            (fun id hid => (ht.doomed id hid).mono fun old hold => ht.born.symm ▸ hold)
            (fun id hid => (hm.doomed id hid).mono fun old hold => hm.born.symm ▸ hold)
        · exact ⟨⟨hl.sound.unregister _, ht.sound.unregister _, hm.sound.unregister _, trivial⟩,
            fun part hlost => hl.lost_unregister hlost, fun part hlost => ht.lost_unregister hlost,
            fun part hlost => hm.lost_unregister hlost⟩

/-- **A section of remote mode.** -/
theorem Server.Sound.retire (h : server.Sound logKind traceKind metricKind) {retirement : Retirement}
    {sections : List Retirement}
    (hstage : server.stage = .retiring cutoffs (retirement :: sections)) :
    let after := { server.retire retirement with stage := .retiring cutoffs sections }
    after.Sound logKind traceKind metricKind ∧
      TakesExpired logKind traceKind metricKind server after cutoffs := by
  have hjudged := h.judged
  rw [hstage] at hjudged
  have hfirst := hjudged retirement List.mem_cons_self
  have hrest : (Stage.retiring cutoffs sections).Judged logKind traceKind metricKind server :=
    fun s hs => hjudged s (List.mem_cons_of_mem _ hs)
  have hsame : ∀ {δ : Type} {k : PartKind δ} {shelf : Shelf δ} (part : δ),
      Lost k shelf shelf part → k.fullyExpired cutoffs part = true :=
    fun part hlost => absurd hlost (not_lost_self part)
  intro after
  cases retirement with
  | unregister signal ids =>
    cases signal with
    | logs =>
      exact ⟨⟨h.logs.unregister _, h.traces, h.metrics, hrest⟩,
        fun part => lost_unregister h.logs hfirst, hsame, hsame⟩
    | traces =>
      exact ⟨⟨h.logs, h.traces.unregister _, h.metrics, hrest⟩,
        hsame, fun part => lost_unregister h.traces hfirst, hsame⟩
    | metrics =>
      exact ⟨⟨h.logs, h.traces, h.metrics.unregister _, hrest⟩,
        hsame, hsame, fun part => lost_unregister h.metrics hfirst⟩
  | dropFromManifest signal ids =>
    cases signal with
    | logs =>
      exact ⟨⟨h.logs.unlist _, h.traces, h.metrics, hrest⟩,
        fun part => lost_unlist h.logs hfirst, hsame, hsame⟩
    | traces =>
      exact ⟨⟨h.logs, h.traces.unlist _, h.metrics, hrest⟩,
        hsame, fun part => lost_unlist h.traces hfirst, hsame⟩
    | metrics =>
      exact ⟨⟨h.logs, h.traces, h.metrics.unlist _, hrest⟩,
        hsame, hsame, fun part => lost_unlist h.metrics hfirst⟩

/-- The decision is judged. -/
theorem Server.Sound.decide (h : server.Sound logKind traceKind metricKind) (cutoffs : Cutoffs)
    (batchSize : ℕ) :
    (server.decide logKind traceKind metricKind cutoffs batchSize).Sound
      logKind traceKind metricKind := by
  rw [Server.decide]
  split
  · exact h
  · exact ⟨h.logs, h.traces, h.metrics, chosen_candidates h.logs batchSize,
      chosen_candidates h.traces batchSize, chosen_candidates h.metrics batchSize⟩

/-- **One step**, of the pass or of another task. -/
theorem Server.Sound.step (h : server.Sound logKind traceKind metricKind)
    {event : ServerEvent α β γ}
    (hstep : (retentionMachine logKind traceKind metricKind).step server event = some server') :
    server'.Sound logKind traceKind metricKind ∧
      (event.IsRetention → ∀ cutoffs, server.stage.cutoffs = some cutoffs →
        TakesExpired logKind traceKind metricKind server server' cutoffs) ∧
      (event.IsRetention → server.stage.cutoffs = none → server'.logs = server.logs ∧
        server'.traces = server.traces ∧ server'.metrics = server.metrics) := by
  have hkeep : ∀ {δ : Type} {shelf : Shelf δ}, ∀ old ∈ shelf.born, old ∈ shelf.born :=
    fun old ho => ho
  cases event with
  | logs change =>
    obtain ⟨logs, hchange, rfl⟩ := Option.map_eq_some_iff.1 hstep
    obtain ⟨hsound, hborn⟩ := h.logs.change hchange
    exact ⟨⟨hsound, h.traces, h.metrics, h.judged.mono hborn hkeep hkeep⟩, nofun, nofun⟩
  | traces change =>
    obtain ⟨traces, hchange, rfl⟩ := Option.map_eq_some_iff.1 hstep
    obtain ⟨hsound, hborn⟩ := h.traces.change hchange
    exact ⟨⟨h.logs, hsound, h.metrics, h.judged.mono hkeep hborn hkeep⟩, nofun, nofun⟩
  | metrics change =>
    obtain ⟨metrics, hchange, rfl⟩ := Option.map_eq_some_iff.1 hstep
    obtain ⟨hsound, hborn⟩ := h.metrics.change hchange
    exact ⟨⟨h.logs, h.traces, hsound, h.judged.mono hkeep hkeep hborn⟩, nofun, nofun⟩
  | decide cutoffs batchSize =>
    cases hstage : server.stage with
    | idle =>
      cases cutoffs with
      | none =>
        simp only [retentionMachine, hstage, Option.some.injEq] at hstep
        subst hstep
        exact ⟨h, fun _ _ => nofun, fun _ _ => ⟨rfl, rfl, rfl⟩⟩
      | some cutoffs =>
        simp only [retentionMachine, hstage, Option.some.injEq] at hstep
        subst hstep
        refine ⟨h.decide cutoffs batchSize, fun _ _ => nofun, fun _ _ => ?_⟩
        rw [Server.decide]
        split <;> exact ⟨rfl, rfl, rfl⟩
    | decided => simp [retentionMachine, hstage] at hstep
    | retiring => simp [retentionMachine, hstage] at hstep
  | remove remote logOutcome traceOutcome metricOutcome =>
    cases hstage : server.stage with
    | idle => simp [retentionMachine, hstage] at hstep
    | decided cutoffs logs traces metrics =>
      simp only [retentionMachine, hstage, Option.some.injEq] at hstep
      subst hstep
      obtain ⟨hsound, htakes⟩ := h.remove hstage remote logOutcome traceOutcome metricOutcome
      refine ⟨hsound, fun _ cutoffs' hcutoffs => ?_, fun _ => nofun⟩
      obtain rfl := Option.some.inj hcutoffs
      exact htakes
    | retiring => simp [retentionMachine, hstage] at hstep
  | retire =>
    cases hstage : server.stage with
    | idle => simp [retentionMachine, hstage] at hstep
    | decided => simp [retentionMachine, hstage] at hstep
    | retiring cutoffs sections =>
      cases sections with
      | nil =>
        simp only [retentionMachine, hstage, Option.some.injEq] at hstep
        subst hstep
        exact ⟨⟨h.logs, h.traces, h.metrics, trivial⟩,
          fun _ cutoffs' _ => takesExpired_of_eq rfl rfl rfl cutoffs', fun _ => nofun⟩
      | cons retirement sections =>
        simp only [retentionMachine, hstage, Option.some.injEq] at hstep
        subst hstep
        obtain ⟨hsound, htakes⟩ := h.retire hstage
        refine ⟨hsound, fun _ cutoffs' hcutoffs => ?_, fun _ => nofun⟩
        obtain rfl := Option.some.inj hcutoffs
        exact htakes
  | fail =>
    cases hstage : server.stage with
    | idle => simp [retentionMachine, hstage] at hstep
    | decided => simp [retentionMachine, hstage] at hstep
    | retiring cutoffs sections =>
      simp only [retentionMachine, hstage, Option.some.injEq] at hstep
      subst hstep
      exact ⟨⟨h.logs, h.traces, h.metrics, trivial⟩,
        fun _ cutoffs' _ => takesExpired_of_eq rfl rfl rfl cutoffs', fun _ => nofun⟩

/-- **Runs** keep the server sound. -/
theorem Server.Sound.run (h : server.Sound logKind traceKind metricKind)
    {events : List (ServerEvent α β γ)}
    (hrun : (retentionMachine logKind traceKind metricKind).run server events = some server') :
    server'.Sound logKind traceKind metricKind :=
  Machine.run_invariant (P := fun s => s.Sound logKind traceKind metricKind)
    (fun _ _ _ hs hstep => (hs.step hstep).1) h hrun

end Machine

end Retention

end Obsy
