import Obsy.Retention.Pass

/-!
# A directory that cannot be removed

The pass removes the directories of three signals before it tells any registry, and an error between
them ends it.  What was removed until then is registered still.

* `Shelf.Intact`, `Server.Intact`: every registered part has its directory.
* `attempted`, `Survives`: the removals that a pass tries, and how they have to end.
* `intact_remove_iff`, `intact_iff`: a pass keeps registered parts intact exactly then, and so does
  a run.
-/

namespace Obsy

namespace Retention

variable {α β γ : Type}

/-! ### Intact shelves -/

/-- Every registered part has its directory. -/
def Shelf.Intact (shelf : Shelf α) : Prop :=
  ∀ entry ∈ shelf.readers, (entry.2.dir, entry.2.part) ∈ shelf.dirs

/-- **Every registered part** of the three signals has its directory. -/
structure Server.Intact (server : Server α β γ) : Prop where
  logs : server.logs.Intact
  traces : server.traces.Intact
  metrics : server.metrics.Intact

/-- A change that removes no directory of a registered part. -/
def ShelfChange.Tidy (shelf : Shelf α) : ShelfChange α → Prop
  | .removeDir dir => ∀ entry ∈ shelf.readers, entry.2.dir ≠ dir
  | _ => True

variable {kind : PartKind α} {shelf shelf' : Shelf α}

theorem Shelf.Intact.unregister (h : shelf.Intact) (ids : List String) :
    (shelf.unregister ids).Intact := fun entry he => h entry (List.mem_of_mem_filter he)

/-- **Other tasks** keep registered parts intact. -/
theorem Shelf.Intact.change (h : shelf.Intact) {change : ShelfChange α} (htidy : change.Tidy shelf)
    (hchange : shelf.change kind change = some shelf') : shelf'.Intact := by
  cases change with
  | write dir part =>
    obtain ⟨-, hshelf⟩ := Option.ite_none_right_eq_some.1 hchange
    obtain rfl := Option.some.inj hshelf
    exact fun entry he => List.mem_append_left _ (h entry he)
  | register dir =>
    obtain ⟨part, hpart, rfl⟩ := Option.map_eq_some_iff.1 hchange
    intro entry he
    rcases List.mem_append.1 he with he | he
    · exact h.unregister _ entry he
    · rw [List.mem_singleton.1 he]
      exact mem_of_lookup hpart
  | unregister id =>
    obtain rfl := Option.some.inj hchange
    exact h.unregister _
  | removeDir dir =>
    obtain rfl := Option.some.inj hchange
    exact fun entry he => List.mem_filter.2 ⟨h entry he, decide_eq_true (htidy entry he)⟩
  | list dir =>
    obtain ⟨_, -, rfl⟩ := Option.map_eq_some_iff.1 hchange
    exact h
  | unlist id =>
    obtain rfl := Option.some.inj hchange
    exact h
  | restore dir =>
    obtain ⟨_, -, rfl⟩ := Option.map_eq_some_iff.1 hchange
    exact fun entry he => List.mem_append_left _ (h entry he)

/-! ### The removals of a signal -/

/-- The candidates whose directories the pass tries to remove: those that are registered still. -/
def attempted (active chosen : List Candidate) : List Candidate :=
  chosen.filter fun candidate => active.lookup candidate.1 = some candidate.2

section

variable (active : List Candidate) (outcome : String → Removal)

theorem attempted_cons_pos {candidate : Candidate}
    (h : active.lookup candidate.1 = some candidate.2) (chosen : List Candidate) :
    attempted active (candidate :: chosen) = candidate :: attempted active chosen :=
  List.filter_cons_of_pos (decide_eq_true h)

theorem attempted_cons_neg {candidate : Candidate}
    (h : ¬ active.lookup candidate.1 = some candidate.2) (chosen : List Candidate) :
    attempted active (candidate :: chosen) = attempted active chosen :=
  List.filter_cons_of_neg (by simpa using h)

/-- The removals leave the registry alone, and add no directory. -/
theorem readers_removeDirs (shelf : Shelf α) (chosen : List Candidate) :
    (removeDirs active outcome shelf chosen).1.readers = shelf.readers ∧
      (removeDirs active outcome shelf chosen).1.dirs ⊆ shelf.dirs := by
  induction chosen generalizing shelf with
  | nil => exact ⟨rfl, List.Subset.refl _⟩
  | cons candidate chosen ih =>
    obtain ⟨id, dir⟩ := candidate
    have hshrink : (shelf.removeDir dir).dirs ⊆ shelf.dirs := fun _ => List.mem_of_mem_filter
    rw [removeDirs]
    split_ifs
    · cases outcome dir with
      | removed => exact ⟨(ih _).1, fun entry he => hshrink ((ih _).2 he)⟩
      | failed gone =>
        cases gone
        · exact ⟨rfl, List.Subset.refl _⟩
        · exact ⟨rfl, hshrink⟩
    · exact ih shelf

/-- All were tried if none failed. -/
theorem removeDirs_done (shelf : Shelf α) (chosen : List Candidate) :
    (removeDirs active outcome shelf chosen).2.2 = true ↔
      ∀ candidate ∈ attempted active chosen, outcome candidate.2 = .removed := by
  induction chosen generalizing shelf with
  | nil => exact iff_of_true rfl fun _ h => (by cases h)
  | cons candidate chosen ih =>
    obtain ⟨id, dir⟩ := candidate
    rw [removeDirs]
    by_cases hactive : active.lookup id = some dir
    · rw [if_pos hactive, attempted_cons_pos active hactive, List.forall_mem_cons]
      cases houtcome : outcome dir with
      | removed => exact (ih _).trans (and_iff_right rfl).symm
      | failed gone => exact iff_of_false Bool.false_ne_true fun h => (by cases h.1)
    · rw [if_neg hactive, attempted_cons_neg active hactive]
      exact ih shelf

/-- What is left when none failed. -/
theorem removeDirs_of_done (shelf : Shelf α) {chosen : List Candidate}
    (hdone : ∀ candidate ∈ attempted active chosen, outcome candidate.2 = .removed) :
    (removeDirs active outcome shelf chosen).2.1 = (attempted active chosen).map Prod.fst ∧
      ∀ entry ∈ shelf.dirs, (∀ candidate ∈ attempted active chosen, entry.1 ≠ candidate.2) →
        entry ∈ (removeDirs active outcome shelf chosen).1.dirs := by
  induction chosen generalizing shelf with
  | nil => exact ⟨rfl, fun _ he _ => he⟩
  | cons candidate chosen ih =>
    obtain ⟨id, dir⟩ := candidate
    rw [removeDirs]
    by_cases hactive : active.lookup id = some dir
    · rw [attempted_cons_pos active hactive] at hdone ⊢
      obtain ⟨hfirst, hrest⟩ := List.forall_mem_cons.1 hdone
      rw [if_pos hactive, hfirst]
      obtain ⟨hids, hdirs⟩ := ih (shelf.removeDir dir) hrest
      refine ⟨congrArg (id :: ·) hids, fun entry he hne => ?_⟩
      obtain ⟨hdir, hne⟩ := List.forall_mem_cons.1 hne
      exact hdirs entry (List.mem_filter.2 ⟨he, decide_eq_true hdir⟩) hne
    · rw [attempted_cons_neg active hactive] at hdone ⊢
      rw [if_neg hactive]
      exact ih shelf hdone

/-- How the removals end that are tried. -/
def tried (chosen : List Candidate) : List Removal :=
  (attempted active chosen).map fun candidate => outcome candidate.2

/-- No directory has gone: none was tried, or the first stayed where it was. -/
def Untouched (outcomes : List Removal) : Prop :=
  outcomes.head? = none ∨ outcomes.head? = some (.failed false)

/-- A first removal that fails and leaves the directory ends the pass with nothing changed. -/
theorem removeDirs_of_untouched (shelf : Shelf α) {chosen : List Candidate}
    (h : Untouched (tried active outcome chosen)) :
    (removeDirs active outcome shelf chosen).1 = shelf := by
  induction chosen with
  | nil => rfl
  | cons candidate chosen ih =>
    obtain ⟨id, dir⟩ := candidate
    rw [removeDirs]
    by_cases hactive : active.lookup id = some dir
    · rw [tried, attempted_cons_pos active hactive] at h
      have hfailed : outcome dir = .failed false := by simpa [Untouched] using h
      rw [if_pos hactive, hfailed]
      rfl
    · rw [tried, attempted_cons_neg active hactive] at h
      rw [if_neg hactive]
      exact ih h

/-- Otherwise a directory is gone. -/
theorem exists_gone (shelf : Shelf α) {chosen : List Candidate}
    (h : ¬ Untouched (tried active outcome chosen)) :
    ∃ first ∈ attempted active chosen,
      ∀ entry ∈ (removeDirs active outcome shelf chosen).1.dirs, entry.1 ≠ first.2 := by
  induction chosen with
  | nil => exact absurd (.inl rfl) h
  | cons candidate chosen ih =>
    obtain ⟨id, dir⟩ := candidate
    rw [removeDirs]
    by_cases hactive : active.lookup id = some dir
    · have hremoved : ∀ entry ∈ (shelf.removeDir dir).dirs, entry.1 ≠ dir := fun entry he =>
        of_decide_eq_true (List.mem_filter.1 he).2
      rw [tried, attempted_cons_pos active hactive] at h
      rw [if_pos hactive, attempted_cons_pos active hactive]
      refine ⟨(id, dir), List.mem_cons_self, ?_⟩
      cases houtcome : outcome dir with
      | removed =>
        exact fun entry he => hremoved entry ((readers_removeDirs active outcome _ chosen).2 he)
      | failed gone =>
        cases gone
        · exact absurd (.inr (congrArg some houtcome)) h
        · exact hremoved
    · rw [tried, attempted_cons_neg active hactive] at h
      rw [if_neg hactive, attempted_cons_neg active hactive]
      exact ih h

end

/-- What is tried is registered. -/
theorem exists_reader {chosen : List Candidate} {candidate : Candidate}
    (h : candidate ∈ attempted (activeDirs kind shelf) chosen) :
    ∃ entry ∈ shelf.readers, kind.id entry.2.part = candidate.1 ∧ entry.2.dir = candidate.2 := by
  have hlookup := mem_of_lookup (of_decide_eq_true (List.mem_filter.1 h).2)
  obtain ⟨entry, he, heq⟩ := List.mem_map.1 hlookup
  exact ⟨entry, he, congrArg Prod.fst heq, congrArg Prod.snd heq⟩

/-- **What a pass that ends early leaves** is intact exactly if no directory has gone. -/
theorem intact_removeDirs_iff (kind : PartKind α) (h : shelf.Intact)
    (outcome : String → Removal) (chosen : List Candidate) :
    (removeDirs (activeDirs kind shelf) outcome shelf chosen).1.Intact ↔
      Untouched (tried (activeDirs kind shelf) outcome chosen) := by
  constructor
  · intro hintact
    by_contra htouched
    obtain ⟨first, hfirst, hgone⟩ := exists_gone _ outcome shelf htouched
    obtain ⟨entry, he, -, hdir⟩ := exists_reader hfirst
    have hreaders := (readers_removeDirs (activeDirs kind shelf) outcome shelf chosen).1
    exact hgone _ (hintact entry (hreaders ▸ he)) hdir
  · intro huntouched
    rw [removeDirs_of_untouched _ _ _ huntouched]
    exact h

/-- **What a pass that succeeds leaves** is intact, since it takes what it removed out of the
registry. -/
theorem intact_unregister (h : shelf.Intact) (hsound : shelf.Sound kind)
    (outcome : String → Removal) {chosen : List Candidate}
    (hdone : (removeDirs (activeDirs kind shelf) outcome shelf chosen).2.2 = true) :
    ((removeDirs (activeDirs kind shelf) outcome shelf chosen).1.unregister
      (removeDirs (activeDirs kind shelf) outcome shelf chosen).2.1).Intact := by
  obtain ⟨hids, hdirs⟩ := removeDirs_of_done _ outcome shelf
    ((removeDirs_done _ outcome shelf chosen).1 hdone)
  have hreaders := (readers_removeDirs (activeDirs kind shelf) outcome shelf chosen).1
  intro entry he
  obtain ⟨he, hkept⟩ := List.mem_filter.1 he
  rw [hreaders] at he
  refine hdirs _ (h entry he) fun candidate hcandidate hdir => ?_
  -- a part of that directory has the id of the candidate, and is not registered any more
  obtain ⟨other, ho, hid, hother⟩ := exists_reader hcandidate
  obtain ⟨hname, hborn⟩ := hsound.readers entry he
  have hsame : entry.2.part = other.2.part := congrArg Prod.snd
    (hsound.named _ hborn _ (hsound.readers other ho).2 (.inl (hdir.trans hother.symm)))
  have hgone : entry.1 ∈ (attempted (activeDirs kind shelf) chosen).map Prod.fst :=
    List.mem_map.2 ⟨candidate, hcandidate, by rw [hname, ← hid, hsame]⟩
  rw [hids] at hkept
  exact absurd hgone (of_decide_eq_true hkept)

/-! ### The removals of a pass -/

/-- The removals all succeed, or the very first fails and leaves the directory as it was. -/
def Benign (outcomes : List Removal) : Prop :=
  (∀ outcome ∈ outcomes, outcome = .removed) ∨ outcomes.head? = some (.failed false)

theorem untouched_of_removed {outcomes : List Removal}
    (h : ∀ outcome ∈ outcomes, outcome = .removed) : Untouched outcomes ↔ outcomes = [] := by
  cases outcomes with
  | nil => exact iff_of_true (.inl rfl) rfl
  | cons first rest =>
    obtain rfl := h first List.mem_cons_self
    exact iff_of_false (by simp [Untouched]) (List.cons_ne_nil _ _)

theorem benign_append_of_removed {outcomes others : List Removal}
    (h : ∀ outcome ∈ outcomes, outcome = .removed)
    (hothers : ¬ ∀ outcome ∈ others, outcome = .removed) :
    Benign (outcomes ++ others) ↔ Untouched outcomes ∧ Benign others := by
  rw [untouched_of_removed h]
  cases outcomes with
  | nil => exact (and_iff_right rfl).symm
  | cons first rest =>
    obtain rfl := h first List.mem_cons_self
    refine iff_of_false (not_or.2 ⟨fun hall => hothers fun outcome ho => ?_, by simp⟩) (by simp)
    exact hall outcome (List.mem_append_right _ ho)

theorem benign_append_of_failed {outcomes : List Removal}
    (h : ¬ ∀ outcome ∈ outcomes, outcome = .removed) (others : List Removal) :
    Benign (outcomes ++ others) ↔ Untouched outcomes := by
  cases outcomes with
  | nil => exact absurd (fun _ ho => (by cases ho)) h
  | cons first rest =>
    refine (or_iff_right fun hall => ?_).trans (by simp [Untouched])
    exact h fun outcome ho => hall outcome (List.mem_append_left _ ho)

section Machine

variable {logKind : PartKind α} {traceKind : PartKind β} {metricKind : PartKind γ}
  {server : Server α β γ} {cutoffs : Cutoffs}

/-- **The section under the write guards**, in local mode. -/
theorem intact_remove_iff (hsound : server.Sound logKind traceKind metricKind)
    (h : server.Intact) (logs traces metrics : List Candidate)
    (logOutcome traceOutcome metricOutcome : String → Removal) :
    (server.remove logKind traceKind metricKind cutoffs logs traces metrics false logOutcome
      traceOutcome metricOutcome).Intact ↔
      Benign (tried (activeDirs logKind server.logs) logOutcome logs ++
        (tried (activeDirs traceKind server.traces) traceOutcome traces ++
          tried (activeDirs metricKind server.metrics) metricOutcome metrics)) := by
  have hdone : ∀ {δ : Type} (kind : PartKind δ) (shelf : Shelf δ) outcome chosen,
      (removeDirs (activeDirs kind shelf) outcome shelf chosen).2.2 = true ↔
        ∀ o ∈ tried (activeDirs kind shelf) outcome chosen, o = .removed := by
    intro δ kind shelf outcome chosen
    rw [removeDirs_done, tried, List.forall_mem_map]
  have hlogs := intact_removeDirs_iff logKind h.logs logOutcome logs
  have htraces := intact_removeDirs_iff traceKind h.traces traceOutcome traces
  have hmetrics := intact_removeDirs_iff metricKind h.metrics metricOutcome metrics
  have hlogsDone := hdone logKind server.logs logOutcome logs
  have htracesDone := hdone traceKind server.traces traceOutcome traces
  have hmetricsDone := hdone metricKind server.metrics metricOutcome metrics
  simp only [Server.remove]
  split
  case isTrue hfailed =>
    -- a log directory could not be removed
    rw [Bool.not_eq_true', ← Bool.not_eq_true, hlogsDone] at hfailed
    rw [benign_append_of_failed hfailed, ← hlogs]
    exact ⟨fun hintact => hintact.logs, fun hintact => ⟨hintact, h.traces, h.metrics⟩⟩
  case isFalse hlogsOk =>
    rw [Bool.not_eq_true', Bool.not_eq_false] at hlogsOk
    have hlogsOk' := hlogsDone.1 hlogsOk
    split
    case isTrue hfailed =>
      -- a trace directory could not be removed
      rw [Bool.not_eq_true', ← Bool.not_eq_true, htracesDone] at hfailed
      have hothers : ¬ ∀ o ∈ tried (activeDirs traceKind server.traces) traceOutcome traces ++
          tried (activeDirs metricKind server.metrics) metricOutcome metrics, o = .removed :=
        fun hall => hfailed fun o ho => hall o (List.mem_append_left _ ho)
      rw [benign_append_of_removed hlogsOk' hothers, benign_append_of_failed hfailed, ← hlogs,
        ← htraces]
      exact ⟨fun hintact => ⟨hintact.logs, hintact.traces⟩,
        fun hintact => ⟨hintact.1, hintact.2, h.metrics⟩⟩
    case isFalse htracesOk =>
      rw [Bool.not_eq_true', Bool.not_eq_false] at htracesOk
      have htracesOk' := htracesDone.1 htracesOk
      split
      case isTrue hfailed =>
        -- a metric directory could not be removed
        rw [Bool.not_eq_true', ← Bool.not_eq_true, hmetricsDone] at hfailed
        have hothers : ¬ ∀ o ∈ tried (activeDirs traceKind server.traces) traceOutcome traces ++
            tried (activeDirs metricKind server.metrics) metricOutcome metrics, o = .removed :=
          fun hall => hfailed fun o ho => hall o (List.mem_append_right _ ho)
        have hlast := benign_append_of_failed hfailed []
        rw [List.append_nil] at hlast
        rw [benign_append_of_removed hlogsOk' hothers, benign_append_of_removed htracesOk' hfailed,
          hlast, ← hlogs, ← htraces, ← hmetrics]
        exact ⟨fun hintact => ⟨hintact.logs, hintact.traces, hintact.metrics⟩,
          fun hintact => ⟨hintact.1, hintact.2.1, hintact.2.2⟩⟩
      case isFalse hmetricsOk =>
        rw [Bool.not_eq_true', Bool.not_eq_false] at hmetricsOk
        refine iff_of_true ⟨intact_unregister h.logs hsound.logs _ hlogsOk,
          intact_unregister h.traces hsound.traces _ htracesOk,
          intact_unregister h.metrics hsound.metrics _ hmetricsOk⟩ (.inl fun o ho => ?_)
        rcases List.mem_append.1 ho with ho | ho
        · exact hlogsOk' o ho
        · rcases List.mem_append.1 ho with ho | ho
          · exact htracesOk' o ho
          · exact hmetricsDone.1 hmetricsOk o ho

/-! ### Runs -/

/-- What happens in local mode, where no other task removes the directory of a registered part. -/
def ServerEvent.Tidy (server : Server α β γ) : ServerEvent α β γ → Prop
  | .logs change => change.Tidy server.logs
  | .traces change => change.Tidy server.traces
  | .metrics change => change.Tidy server.metrics
  | .remove remote .. => remote = false
  | .decide .. | .retire | .fail => True

/-- How the removals of a pass have to end: all of them well, or the very first with an error and
its directory as it was. -/
def Survives (logKind : PartKind α) (traceKind : PartKind β) (metricKind : PartKind γ)
    (server : Server α β γ) : ServerEvent α β γ → Prop
  | .remove _ logOutcome traceOutcome metricOutcome =>
    match server.stage with
    | .decided _ logs traces metrics =>
      Benign (tried (activeDirs logKind server.logs) logOutcome logs ++
        (tried (activeDirs traceKind server.traces) traceOutcome traces ++
          tried (activeDirs metricKind server.metrics) metricOutcome metrics))
    | _ => True
  | _ => True

theorem Server.Intact.retire (h : server.Intact) (retirement : Retirement) :
    (server.retire retirement).Intact := by
  cases retirement with
  | unregister signal ids =>
    cases signal
    · exact ⟨h.logs.unregister ids, h.traces, h.metrics⟩
    · exact ⟨h.logs, h.traces.unregister ids, h.metrics⟩
    · exact ⟨h.logs, h.traces, h.metrics.unregister ids⟩
  | dropFromManifest signal ids => cases signal <;> exact ⟨h.logs, h.traces, h.metrics⟩

/-- **One step** keeps registered parts intact exactly if its removals end well. -/
theorem Server.Intact.step_iff (hsound : server.Sound logKind traceKind metricKind)
    (h : server.Intact) {event : ServerEvent α β γ} {server' : Server α β γ}
    (hstep : (retentionMachine logKind traceKind metricKind).step server event = some server')
    (htidy : event.Tidy server) :
    server'.Intact ↔ Survives logKind traceKind metricKind server event := by
  cases event with
  | logs change =>
    obtain ⟨logs, hchange, rfl⟩ := Option.map_eq_some_iff.1 hstep
    exact iff_of_true ⟨h.logs.change htidy hchange, h.traces, h.metrics⟩ trivial
  | traces change =>
    obtain ⟨traces, hchange, rfl⟩ := Option.map_eq_some_iff.1 hstep
    exact iff_of_true ⟨h.logs, h.traces.change htidy hchange, h.metrics⟩ trivial
  | metrics change =>
    obtain ⟨metrics, hchange, rfl⟩ := Option.map_eq_some_iff.1 hstep
    exact iff_of_true ⟨h.logs, h.traces, h.metrics.change htidy hchange⟩ trivial
  | decide cutoffs batchSize =>
    refine iff_of_true ?_ trivial
    simp only [retentionMachine] at hstep
    split at hstep
    · obtain rfl := Option.some.inj hstep
      exact h
    · obtain rfl := Option.some.inj hstep
      rw [Server.decide]
      split
      · exact h
      · exact ⟨h.logs, h.traces, h.metrics⟩
    · cases hstep
  | remove remote logOutcome traceOutcome metricOutcome =>
    obtain rfl : remote = false := htidy
    cases hstage : server.stage with
    | idle => simp [retentionMachine, hstage] at hstep
    | decided cutoffs logs traces metrics =>
      simp only [retentionMachine, hstage, Option.some.injEq] at hstep
      subst hstep
      simp only [Survives, hstage]
      exact intact_remove_iff hsound h logs traces metrics logOutcome traceOutcome metricOutcome
    | retiring => simp [retentionMachine, hstage] at hstep
  | retire =>
    refine iff_of_true ?_ trivial
    simp only [retentionMachine] at hstep
    split at hstep
    case h_1 =>
      obtain rfl := Option.some.inj hstep
      exact ⟨h.logs, h.traces, h.metrics⟩
    case h_2 cutoffs next sections hstage =>
      obtain rfl := Option.some.inj hstep
      have hretired := h.retire next
      exact ⟨hretired.logs, hretired.traces, hretired.metrics⟩
    case h_3 => cases hstep
  | fail =>
    refine iff_of_true ?_ trivial
    simp only [retentionMachine] at hstep
    split at hstep
    · obtain rfl := Option.some.inj hstep
      exact ⟨h.logs, h.traces, h.metrics⟩
    · cases hstep

/-- **Retention retires a part whole or not at all**, in every state of a run, exactly if in every
pass the removals all succeed, or the very first fails and leaves its directory. -/
theorem intact_iff {events : List (ServerEvent α β γ)}
    (hsound : server.Sound logKind traceKind metricKind) (hintact : server.Intact)
    (htidy : (retentionMachine logKind traceKind metricKind).Within (fun s e _ => e.Tidy s) server
      events) :
    (retentionMachine logKind traceKind metricKind).Within (fun _ _ s' => s'.Intact) server events ↔
      (retentionMachine logKind traceKind metricKind).Within
        (fun s e _ => Survives logKind traceKind metricKind s e) server events := by
  refine Machine.within_iff_within
    (P := fun s => s.Sound logKind traceKind metricKind ∧ s.Intact) ?_ ?_ ⟨hsound, hintact⟩ htidy
  · exact fun s e s' h hstep htidy => h.2.step_iff h.1 hstep htidy
  · exact fun s e s' h hstep htidy hsurvives =>
      ⟨(h.1.step hstep).1, (h.2.step_iff h.1 hstep htidy).2 hsurvives⟩

end Machine

/-! ### Two parts -/

/-- A part that is its id, and has expired. -/
def nameKind : PartKind String := ⟨id, fun _ _ => true⟩

def nameShelf (name : String) : Shelf String :=
  ⟨[(name, ⟨name, name⟩)], [(name, name)], [], [(name, name)]⟩

/-- A log part, and a trace part. -/
def logAndTrace : Server String String String :=
  ⟨nameShelf "log", nameShelf "trace", ⟨[], [], [], []⟩, .idle⟩

/-- A pass, with what comes of the log directory; the trace directory cannot be removed. -/
def failingPass (log : Removal) : List (ServerEvent String String String) :=
  [.decide (some ⟨⟨[]⟩, .max⟩) 100,
    .remove false (fun _ => log) (fun _ => .failed false) fun _ => .removed]

theorem sound_nameShelf (name : String) : (nameShelf name).Sound nameKind := by
  refine ⟨fun a ha b hb _ => ?_, fun entry he => ?_, fun entry he => he⟩
  · exact (List.mem_singleton.1 ha).trans (List.mem_singleton.1 hb).symm
  · obtain rfl := List.mem_singleton.1 he
    exact ⟨rfl, List.mem_singleton_self _⟩

theorem sound_logAndTrace : logAndTrace.Sound nameKind nameKind nameKind :=
  ⟨sound_nameShelf _, sound_nameShelf _, ⟨nofun, nofun, nofun⟩, trivial⟩

theorem intact_logAndTrace : logAndTrace.Intact := by
  refine ⟨fun entry he => ?_, fun entry he => ?_, nofun⟩
  all_goals
    obtain rfl := List.mem_singleton.1 he
    exact List.mem_singleton_self _

theorem decide_logAndTrace :
    logAndTrace.decide nameKind nameKind nameKind ⟨⟨[]⟩, .max⟩ 100 =
      { logAndTrace with
        stage := .decided ⟨⟨[]⟩, .max⟩ [("log", "log")] [("trace", "trace")] [] } := by
  have hone : ∀ name, candidates nameKind ⟨⟨[]⟩, .max⟩ 100 (nameShelf name) = [(name, name)] := by
    intro name
    simp [candidates, nameShelf, nameKind]
  have hnone : candidates nameKind ⟨⟨[]⟩, .max⟩ 100 (⟨[], [], [], []⟩ : Shelf String) = [] := by
    simp [candidates]
  simp only [Server.decide, logAndTrace, hone, hnone]
  rfl

/-- The pass has chosen the two. -/
def bothChosen : Server String String String :=
  { logAndTrace with stage := .decided ⟨⟨[]⟩, .max⟩ [("log", "log")] [("trace", "trace")] [] }

theorem step_decide : (retentionMachine nameKind nameKind nameKind).step logAndTrace
    (.decide (some ⟨⟨[]⟩, .max⟩) 100) = some bothChosen :=
  congrArg some decide_logAndTrace

/-- The first removal fails, and every state is intact. -/
theorem intact_iff_first :
    (retentionMachine nameKind nameKind nameKind).Within (fun _ _ s' => s'.Intact) logAndTrace
      (failingPass (.failed false)) := by
  refine (intact_iff sound_logAndTrace intact_logAndTrace ?_).2 ?_
  · exact (Machine.within_cons_iff step_decide).2 ⟨trivial, rfl, trivial⟩
  · exact (Machine.within_cons_iff step_decide).2 ⟨trivial, .inr rfl, trivial⟩

/-- The second removal fails, and the log part is registered without its directory. -/
theorem not_intact_second : logAndTrace.Sound nameKind nameKind nameKind ∧ logAndTrace.Intact ∧
    ∃ after, (retentionMachine nameKind nameKind nameKind).run logAndTrace (failingPass .removed) =
      some after ∧ ¬ after.Intact := by
  refine ⟨sound_logAndTrace, intact_logAndTrace, _,
    Machine.run_cons_eq_some.2 ⟨_, step_decide, Machine.run_cons_eq_some.2 ⟨_, rfl, rfl⟩⟩, ?_⟩
  intro hintact
  have hlog := hintact.logs ("log", ⟨"log", "log"⟩) (List.mem_singleton_self _)
  cases hlog

end Retention

end Obsy
