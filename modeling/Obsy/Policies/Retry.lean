import Obsy.Policies.Push
import Obsy.Runs.Fallible
import Mathlib.Data.List.DropRight

/-!
# When a policy push can be retried

What is in memory is what a start would load, as long as the store tells what it has done.  A push that
an object store has stored without saying so cannot be repeated: the object has the time of the first
push, so its body is not that of the second, and the revision is not greater.

* `entry_document`: a policy survives a start.
* `Inv`: the invariant; `Inv.retryable`: with it a push can be retried.
* `retryable_iff`: the runs in which pushes can be retried throughout.
* `retry_conflicts`: one in which a push cannot.
-/

namespace Obsy

namespace Policies

open Part (Nanos)
open Retention (TenantRetention Signal)

/-! ### Documents -/

theorem trim_trim (s : List Char) : Logql.trim (Logql.trim s) = Logql.trim s := by
  have hdrop : ∀ t : List Char,
      ((t.dropWhile Logql.isWhitespace).rdropWhile Logql.isWhitespace).dropWhile
        Logql.isWhitespace =
      (t.dropWhile Logql.isWhitespace).rdropWhile Logql.isWhitespace := by
    intro t
    rw [List.dropWhile_eq_self_iff]
    intro hl
    -- the first character of what is left is the first after the leading blanks
    have hstart := @List.rdropWhile_prefix _ Logql.isWhitespace (t.dropWhile Logql.isWhitespace)
    have hfirst := List.dropWhile_get_zero_not Logql.isWhitespace t (hl.trans_le hstart.length_le)
    rw [hstart.getElem hl]
    exact hfirst
  change ((Logql.trim s).dropWhile Logql.isWhitespace).rdropWhile Logql.isWhitespace = _
  rw [show Logql.trim s = (s.dropWhile Logql.isWhitespace).rdropWhile Logql.isWhitespace from rfl,
    hdrop, List.rdropWhile_idempotent]

theorem trim_trimmed (raw : String) :
    Logql.trim (trimmed raw).toList = Logql.trim raw.toList := by
  rw [trimmed, String.toList_ofList, trim_trim]

@[simp] theorem trimmed_trimmed (raw : String) : trimmed (trimmed raw) = trimmed raw := by
  rw [trimmed, trim_trimmed]
  rfl

@[simp] theorem parseRetention_trimmed (raw : String) :
    parseRetention (trimmed raw) = parseRetention raw := by
  rw [parseRetention, parseRetention, trim_trimmed]

@[simp] theorem parseStorageLimit_trimmed (raw : String) :
    parseStorageLimit (trimmed raw) = parseStorageLimit raw := by
  rw [parseStorageLimit, parseStorageLimit, trim_trimmed]

@[simp] theorem parseLimit_trimmed (raw : Option String) :
    parseLimit (raw.map trimmed) = parseLimit raw := by
  cases raw with
  | none => rfl
  | some raw => simp [parseLimit]

/-- A signal's retention is read back from its text. -/
theorem parseSignalRetention_raw {retention : TenantRetention} {name : String}
    {raw : Option String} {parsed : Option SignalRetention}
    (h : parseSignalRetention retention name raw = .ok parsed) :
    parseSignalRetention retention name (parsed.map SignalRetention.raw) = .ok parsed := by
  cases raw with
  | none =>
    obtain rfl := Except.ok.inj h
    rfl
  | some raw =>
    rw [parseSignalRetention] at h
    split at h
    case h_1 => cases h
    case h_2 signalRetention hparsed =>
      split at h
      case isTrue => cases h
      case isFalse hkeeps =>
        obtain rfl := Except.ok.inj h
        simp only [Option.map_some, parseSignalRetention, parseRetention_trimmed, hparsed,
          trimmed_trimmed]
        rw [if_neg hkeeps]

theorem parseSignalRetentions_raw {retention : TenantRetention}
    {request : SignalRetentionRequest} {parsed : SignalRetentions}
    (h : parseSignalRetentions retention request = .ok parsed) :
    parseSignalRetentions retention ⟨parsed.raw .logs, parsed.raw .traces, parsed.raw .metrics⟩ =
      .ok parsed := by
  obtain ⟨logs, hlogs, h⟩ := Runs.exists_of_bind h
  obtain ⟨traces, htraces, h⟩ := Runs.exists_of_bind h
  obtain ⟨metrics, hmetrics, h⟩ := Runs.exists_of_bind h
  obtain rfl := Except.ok.inj h
  have hlogs := parseSignalRetention_raw hlogs
  have htraces := parseSignalRetention_raw htraces
  have hmetrics := parseSignalRetention_raw hmetrics
  simp only [parseSignalRetentions, SignalRetentions.raw, SignalRetentions.get, bind, Except.bind,
    hlogs, htraces, hmetrics]
  rfl

variable {push : PolicyPush} {entry : PolicyEntry} {document : PolicyDocument} {now : Nanos}

theorem entry_revision (h : push.entry now = .ok entry) : entry.revision = push.revision := by
  obtain ⟨retention, _, h⟩ := Runs.exists_of_bind h
  obtain ⟨limit, _, h⟩ := Runs.exists_of_bind h
  obtain ⟨signals, _, h⟩ := Runs.exists_of_bind h
  obtain rfl := Except.ok.inj h
  rfl

/-- The time of a push is all that differs when it is repeated. -/
theorem entry_again (h : push.entry now = .ok entry) (later : Nanos) :
    push.entry later = .ok { entry with updatedAt := later } := by
  obtain ⟨retention, hretention, h⟩ := Runs.exists_of_bind h
  obtain ⟨limit, hlimit, h⟩ := Runs.exists_of_bind h
  obtain ⟨signals, hsignals, h⟩ := Runs.exists_of_bind h
  obtain rfl := Except.ok.inj h
  simp only [PolicyPush.entry, bind, Except.bind, hretention, hlimit, hsignals]
  rfl

theorem entry_updatedAt (h : push.entry now = .ok entry) : entry.updatedAt = now := by
  have hsame := entry_again h now
  rw [h] at hsame
  exact congrArg PolicyEntry.updatedAt (Except.ok.inj hsame)

theorem document_revision (h : document.entry = .ok entry) :
    entry.revision = document.revision := by
  obtain ⟨retention, _, h⟩ := Runs.exists_of_bind h
  obtain ⟨limit, _, h⟩ := Runs.exists_of_bind h
  obtain ⟨signals, _, h⟩ := Runs.exists_of_bind h
  obtain rfl := Except.ok.inj h
  rfl

/-- **A start reads the policy of a push back** from what the push has stored. -/
theorem entry_document (h : push.entry now = .ok entry) : entry.document.entry = .ok entry := by
  obtain ⟨retention, hretention, h⟩ := Runs.exists_of_bind h
  obtain ⟨limit, hlimit, h⟩ := Runs.exists_of_bind h
  obtain ⟨signals, hsignals, h⟩ := Runs.exists_of_bind h
  obtain rfl := Except.ok.inj h
  have hsignals := parseSignalRetentions_raw hsignals
  simp only [PolicyDocument.entry, PolicyEntry.document, parseRetention_trimmed,
    parseLimit_trimmed, bind, Except.bind, hretention, hlimit, hsignals]
  rfl

/-! ### What a call does -/

variable {s : State} {tenant : String} {outcome : Outcome}

theorem fence_eq_none :
    s.fence tenant entry = none ↔
      ∀ current, s.entries tenant = some current → current.revision < entry.revision := by
  unfold State.fence
  cases hcurrent : s.entries tenant with
  | none => simp
  | some current =>
    simp only [Option.bind_some, Option.some.injEq, forall_eq']
    split_ifs with hless hsame hdocument
    all_goals simp only [false_iff, true_iff]
    all_goals omega

/-- A document that is not held back by the revision at the object store is written as the store
does what it is asked for. -/
theorem put_eq (store : PolicyStore) (existing : Option PolicyDocument) (tenant : String)
    (document : PolicyDocument) (outcome : Outcome) (hlater : store = .remote →
      ∀ current, existing = some current → current.revision < document.revision) :
    (store.put existing tenant document outcome).1 =
        (if outcome.lands then some document else existing) ∧
      ((store.put existing tenant document outcome).2 = .ok () ↔ outcome = .done) := by
  cases store with
  | localFiles => cases outcome <;> simp [PolicyStore.put, write, Outcome.lands]
  | remote =>
    have hlater := hlater rfl
    cases existing with
    | none => cases outcome <;> simp [PolicyStore.put, putTenantPolicyRevision, write, Outcome.lands]
    | some current =>
      have hlt := hlater current rfl
      have hne : ¬ (current.revision = document.revision ∧ current = document) := by
        rintro ⟨heq, _⟩
        omega
      have hle : ¬ document.revision ≤ current.revision := by omega
      cases outcome <;>
        simp only [PolicyStore.put, putTenantPolicyRevision, if_neg hne, if_neg hle] <;>
        simp [write, Outcome.lands]

/-- What is deleted, as the store does what it is asked for. -/
theorem delete_eq (store : PolicyStore) (existing : Option PolicyDocument) (tenant : String)
    (outcome : Outcome) :
    (store.delete existing tenant outcome).1 = (if outcome.lands then none else existing) ∧
      ((store.delete existing tenant outcome).2 = .ok () ↔ outcome = .done) := by
  cases outcome <;> simp [PolicyStore.delete, Outcome.lands]

/-- A push that is well formed and of a later revision than the policy in memory. -/
theorem push_eq {store : PolicyStore} (outcome : Outcome) (hstore : s.store = some store)
    (hentry : push.entry now = .ok entry) (hfence : s.fence tenant entry = none)
    (hlater : store = .remote → ∀ current, s.objects tenant = some current →
      current.revision < entry.revision) :
    ∃ error, s.push tenant push now outcome =
      if outcome = .done then
        ({ (s.setObject tenant (some entry.document)).setEntry tenant (some entry) with
            failed := s.failed.filter fun failed =>
              failed.1 != tenant || push.revision < failed.2.revision },
          .ok (.applied entry.view))
      else
        ({ s.setObject tenant (if outcome.lands then some entry.document else s.objects tenant) with
            failed := (tenant, push) :: s.failed },
          .error (.persist error)) := by
  obtain ⟨hobject, hresult⟩ :=
    put_eq store (s.objects tenant) tenant entry.document outcome hlater
  simp only [State.push, hstore, hentry, hfence]
  generalize hput : store.put (s.objects tenant) tenant entry.document outcome = put at *
  obtain ⟨object, result⟩ := put
  simp only at hobject hresult
  subst hobject
  cases result with
  | ok =>
    obtain rfl := hresult.1 rfl
    exact ⟨"", by rw [if_pos rfl]; rfl⟩
  | error error =>
    have hfailed : outcome ≠ .done := fun hdone => by cases hresult.2 hdone
    refine ⟨error, ?_⟩
    rw [if_neg hfailed]
    rfl

theorem remove_eq {store : PolicyStore} (outcome : Outcome) (hstore : s.store = some store) :
    (s.remove tenant outcome).1 =
      if outcome = .done then (s.setObject tenant none).setEntry tenant none
      else s.setObject tenant (if outcome.lands then none else s.objects tenant) := by
  obtain ⟨hobject, hresult⟩ := delete_eq store (s.objects tenant) tenant outcome
  simp only [State.remove, hstore]
  generalize hdelete : store.delete (s.objects tenant) tenant outcome = deleted at *
  obtain ⟨object, result⟩ := deleted
  simp only at hobject hresult
  subst hobject
  cases result with
  | ok =>
    obtain rfl := hresult.1 rfl
    rw [if_pos rfl]
    rfl
  | error error =>
    have hfailed : outcome ≠ .done := fun hdone => by cases hresult.2 hdone
    rw [if_neg hfailed]

/-! ### The invariant -/

/-- The revisions that were stored, up to that of the object. -/
structure InOrder (s : State) : Prop where
  newest : ∀ tenant, (s.written tenant).head? = (s.objects tenant).map PolicyDocument.revision
  increasing : ∀ tenant, (s.written tenant).Pairwise (· > ·)

/-- A document that replaces another is of a later revision. -/
theorem InOrder.setObject (h : InOrder s) {object : Option PolicyDocument}
    (hlater : ∀ document, object = some document → ∀ current, s.objects tenant = some current →
      current ≠ document → current.revision < document.revision) :
    InOrder (s.setObject tenant object) := by
  have hboth : ((s.setObject tenant object).written tenant).head? =
      object.map PolicyDocument.revision ∧
      ((s.setObject tenant object).written tenant).Pairwise (· > ·) := by
    simp only [State.setObject, Function.update_self]
    cases object with
    | none => exact ⟨rfl, List.Pairwise.nil⟩
    | some document =>
      simp only
      split
      case isTrue hsame => exact ⟨(h.newest tenant).trans (by rw [hsame]), h.increasing tenant⟩
      case isFalse hnew =>
        refine ⟨rfl, List.pairwise_cons.2 ⟨fun old hold => ?_, h.increasing tenant⟩⟩
        have hnewest := h.newest tenant
        have hincreasing := h.increasing tenant
        cases hwritten : s.written tenant with
        | nil =>
          rw [hwritten] at hold
          cases hold
        | cons first rest =>
          rw [hwritten] at hnewest hincreasing hold
          obtain ⟨current, hcurrent, hfirst⟩ := Option.map_eq_some_iff.1 hnewest.symm
          have hlt := hlater document rfl current hcurrent fun heq => hnew (heq ▸ hcurrent)
          rcases List.mem_cons.1 hold with rfl | hold
          · exact hfirst ▸ hlt
          · have hrest := (List.pairwise_cons.1 hincreasing).1 old hold
            omega
  constructor
  · intro other
    by_cases heq : other = tenant
    · subst heq
      rw [hboth.1]
      simp only [State.setObject, Function.update_self]
    · simp only [State.setObject, Function.update_of_ne heq]
      exact h.newest other
  · intro other
    by_cases heq : other = tenant
    · subst heq
      exact hboth.2
    · simp only [State.setObject, Function.update_of_ne heq]
      exact h.increasing other

/-- A push that the memory does not hold back, whenever it comes. -/
structure Pending (s : State) (tenant : String) (push : PolicyPush) : Prop where
  wellFormed : ∀ now, ∃ entry, push.entry now = .ok entry
  later : ∀ current, s.entries tenant = some current → current.revision < push.revision

structure Inv (s : State) : Prop where
  loaded : s.store ≠ some .localFiles → ∀ tenant, Loaded (s.objects tenant) (s.entries tenant)
  notAhead : ∀ tenant entry, s.entries tenant = some entry →
    ∃ document, s.objects tenant = some document ∧ entry.revision ≤ document.revision
  inOrder : InOrder s
  stored : ∀ failed ∈ s.failed, s.store.isSome = true
  failed : ∀ failed ∈ s.failed, Pending s failed.1 failed.2

theorem Loaded.revision {object : Option PolicyDocument} {entry : Option PolicyEntry}
    (h : Loaded object entry) :
    entry.map PolicyEntry.revision = object.map PolicyDocument.revision := by
  cases object with
  | none =>
    cases entry with
    | none => rfl
    | some entry => cases h
  | some document =>
    cases entry with
    | none => cases h
    | some entry => exact congrArg some (document_revision (Option.some.inj h))

theorem loaded_document (h : push.entry now = .ok entry) :
    Loaded (some entry.document) (some entry) :=
  congrArg some (entry_document h)

/-- What the memory lets through, the object store does. -/
theorem Inv.later (h : Inv s) {store : PolicyStore} (hstore : s.store = some store)
    (hfence : s.fence tenant entry = none) :
    store = .remote → ∀ current, s.objects tenant = some current →
      current.revision < entry.revision := by
  rintro rfl current hcurrent
  have hloaded : Loaded (s.objects tenant) (s.entries tenant) :=
    h.loaded (by rw [hstore]; exact fun h => by cases h) tenant
  have hrevision := hloaded.revision
  rw [hcurrent] at hrevision
  obtain ⟨memory, hmemory, heq⟩ := Option.map_eq_some_iff.1 hrevision
  exact heq ▸ fence_eq_none.1 hfence memory hmemory

theorem Pending.fence (h : Pending s tenant push) (hentry : push.entry now = .ok entry) :
    s.fence tenant entry = none := by
  rw [fence_eq_none, entry_revision hentry]
  exact h.later

/-- A push that was not held back goes on being so. -/
theorem pending_of_fence (hentry : push.entry now = .ok entry)
    (hfence : s.fence tenant entry = none) : Pending s tenant push := by
  rw [fence_eq_none, entry_revision hentry] at hfence
  exact ⟨fun later => ⟨_, entry_again hentry later⟩, hfence⟩

theorem Inv.retryable (h : Inv s) : Retryable s where
  notAhead := h.notAhead
  increasing := h.inOrder.increasing
  retried := by
    rintro ⟨tenant, push⟩ hmem now
    obtain ⟨store, hstore⟩ := Option.isSome_iff_exists.1 (h.stored _ hmem)
    have hpending := h.failed _ hmem
    obtain ⟨entry, hentry⟩ := hpending.wellFormed now
    have hfence := hpending.fence hentry
    obtain ⟨error, hpush⟩ :=
      push_eq Outcome.done hstore hentry hfence (h.later hstore hfence)
    rw [hpush, if_pos rfl]
    refine ⟨_, rfl, trivial, ?_⟩
    simp only [State.setEntry, State.setObject, Function.update_self]
    exact loaded_document hentry

/-! ### Steps -/

/-- A push that is held back, or that is not well formed, changes nothing. -/
theorem push_same (h : ∀ store entry, s.store = some store → push.entry now = .ok entry →
    s.fence tenant entry ≠ none) : (s.push tenant push now outcome).1 = s := by
  unfold State.push
  split
  · rfl
  case h_2 store hstore =>
    split
    · rfl
    case h_2 entry hentry =>
      split
      · rfl
      case h_2 hfence => exact absurd hfence (h store entry hstore hentry)

/-- What a push to files replaces is of an earlier revision. -/
theorem Calm.later (hcalm : Calm s (.push tenant push now outcome)) (h : Inv s)
    {store : PolicyStore} (hstore : s.store = some store) (hentry : push.entry now = .ok entry)
    (hfence : s.fence tenant entry = none) (hlands : outcome.lands = true) :
    ∀ document, some entry.document = some document →
      ∀ current, s.objects tenant = some current → current ≠ document →
        current.revision < document.revision := by
  rintro document hdocument current hcurrent hne
  obtain rfl := Option.some.inj hdocument
  have hcalm := hcalm entry hentry hfence hlands
  rw [hstore] at hcalm
  cases store with
  | remote => exact h.later hstore hfence rfl current hcurrent
  | localFiles => exact (hcalm current hcurrent hne).trans_eq (entry_revision hentry).symm

/-- The policy in memory is replaced by one that is as late. -/
theorem Pending.setEntry {other : String} {waiting : PolicyPush} (h : Pending s other waiting)
    (hlater : other ≠ tenant ∨ entry.revision < waiting.revision) {s' : State}
    (hentries : s'.entries = Function.update s.entries tenant (some entry)) :
    Pending s' other waiting := by
  refine ⟨h.wellFormed, fun current hcurrent => ?_⟩
  rw [hentries] at hcurrent
  by_cases heq : other = tenant
  · subst heq
    rw [Function.update_self] at hcurrent
    obtain rfl := Option.some.inj hcurrent
    exact hlater.resolve_left fun hne => hne rfl
  · rw [Function.update_of_ne heq] at hcurrent
    exact h.later current hcurrent

/-- The object of a tenant is as late as the policy in memory. -/
theorem Inv.notAhead_setObject (h : Inv s) {object : Option PolicyDocument}
    (hobject : ∀ current, s.entries tenant = some current →
      ∃ document, object = some document ∧ current.revision ≤ document.revision) :
    ∀ other current, s.entries other = some current → ∃ document,
      (s.setObject tenant object).objects other = some document ∧
        current.revision ≤ document.revision := by
  intro other current hcurrent
  by_cases heq : other = tenant
  · subst heq
    simp only [State.setObject, Function.update_self]
    exact hobject current hcurrent
  · simp only [State.setObject, Function.update_of_ne heq]
    exact h.notAhead other current hcurrent

/-- The store and the memory get a policy, or lose it. -/
theorem Inv.loaded_both (h : Inv s) {object : Option PolicyDocument} {entry : Option PolicyEntry}
    (hloaded : Loaded object entry) (hstore : s.store ≠ some .localFiles) (other : String) :
    Loaded (Function.update s.objects tenant object other)
      (Function.update s.entries tenant entry other) := by
  by_cases heq : other = tenant
  · subst heq
    simpa only [Function.update_self] using hloaded
  · simpa only [Function.update_of_ne heq] using h.loaded hstore other

/-- **A push that is calm.** -/
theorem Inv.pushed (h : Inv s) (hcalm : Calm s (.push tenant push now outcome)) :
    Inv (s.push tenant push now outcome).1 := by
  by_cases hgoes : ∀ store entry, s.store = some store → push.entry now = .ok entry →
      s.fence tenant entry ≠ none
  · rwa [push_same hgoes]
  push Not at hgoes
  obtain ⟨store, entry, hstore, hentry, hfence⟩ := hgoes
  have hrevision := entry_revision hentry
  obtain ⟨error, hpush⟩ := push_eq outcome hstore hentry hfence (h.later hstore hfence)
  rw [hpush]
  split
  case isTrue hdone =>
    subst hdone
    have horder := h.inOrder.setObject (hcalm.later h hstore hentry hfence rfl)
    refine ⟨fun hremote => h.loaded_both (loaded_document hentry) hremote, ?_,
      ⟨horder.newest, horder.increasing⟩, fun failed hmem => h.stored failed (List.mem_of_mem_filter hmem),
      fun failed hmem => ?_⟩
    · intro other current hcurrent
      simp only [State.setEntry, State.setObject] at hcurrent ⊢
      by_cases heq : other = tenant
      · subst heq
        rw [Function.update_self] at hcurrent ⊢
        obtain rfl := Option.some.inj hcurrent
        exact ⟨_, rfl, le_rfl⟩
      · rw [Function.update_of_ne heq] at hcurrent ⊢
        exact h.notAhead other current hcurrent
    · obtain ⟨hmem, hkept⟩ := List.mem_filter.1 hmem
      refine (h.failed failed hmem).setEntry ?_ rfl
      rw [Bool.or_eq_true, bne_iff_ne, decide_eq_true_eq] at hkept
      rwa [hrevision]
  case isFalse hfailed =>
    -- the memory stays as it is
    have hpending : ∀ failed ∈ (tenant, push) :: s.failed, Pending s failed.1 failed.2 :=
      List.forall_mem_cons.2 ⟨pending_of_fence hentry hfence, h.failed⟩
    have hstored : ∀ failed ∈ (tenant, push) :: s.failed, s.store.isSome = true :=
      fun _ _ => by rw [hstore]; rfl
    by_cases hlands : outcome.lands = true
    · rw [if_pos hlands]
      have horder := h.inOrder.setObject (hcalm.later h hstore hentry hfence hlands)
      refine ⟨fun hremote => ?_, ?_, ⟨horder.newest, horder.increasing⟩, hstored,
        fun failed hmem => ⟨(hpending failed hmem).wellFormed, (hpending failed hmem).later⟩⟩
      · -- an object store does not lose what it has done
        have hcalm := hcalm entry hentry hfence hlands
        rw [hstore] at hcalm
        cases store with
        | remote => exact absurd hcalm hfailed
        | localFiles => exact absurd hstore hremote
      · refine h.notAhead_setObject fun current hcurrent => ⟨_, rfl, ?_⟩
        exact (fence_eq_none.1 hfence current hcurrent).le
    · rw [if_neg hlands]
      have horder : InOrder (s.setObject tenant (s.objects tenant)) :=
        h.inOrder.setObject fun document hdocument current hcurrent hne =>
          absurd (Option.some.inj (hcurrent.symm.trans hdocument)) hne
      have hobjects : (s.setObject tenant (s.objects tenant)).objects = s.objects :=
        Function.update_eq_self tenant s.objects
      refine ⟨fun hremote other => ?_, ?_, ⟨horder.newest, horder.increasing⟩, hstored,
        fun failed hmem => ⟨(hpending failed hmem).wellFormed, (hpending failed hmem).later⟩⟩
      · simp only [hobjects]
        exact h.loaded hremote other
      · simp only [hobjects]
        exact h.notAhead

/-- **A removal that is calm.** -/
theorem Inv.removed (h : Inv s) (hcalm : Calm s (.remove tenant outcome)) :
    Inv (s.remove tenant outcome).1 := by
  cases hstore : s.store with
  | none =>
    simp only [State.remove, hstore]
    exact h
  | some store =>
    rw [remove_eq outcome hstore]
    have hdelete : InOrder (s.setObject tenant none) :=
      h.inOrder.setObject fun document hdocument => by cases hdocument
    split
    case isTrue hdone =>
      refine ⟨fun hremote => h.loaded_both rfl hremote, ?_,
        ⟨hdelete.newest, hdelete.increasing⟩, h.stored, fun failed hmem => ?_⟩
      · intro other current hcurrent
        simp only [State.setEntry, State.setObject] at hcurrent ⊢
        by_cases heq : other = tenant
        · subst heq
          rw [Function.update_self] at hcurrent
          cases hcurrent
        · rw [Function.update_of_ne heq] at hcurrent ⊢
          exact h.notAhead other current hcurrent
      · refine ⟨(h.failed failed hmem).wellFormed, fun current hcurrent => ?_⟩
        simp only [State.setEntry, State.setObject] at hcurrent
        by_cases heq : failed.1 = tenant
        · rw [heq, Function.update_self] at hcurrent
          cases hcurrent
        · rw [Function.update_of_ne heq] at hcurrent
          exact (h.failed failed hmem).later current hcurrent
    case isFalse hfailed =>
      have hpending : ∀ failed ∈ s.failed, ∀ object,
          Pending (s.setObject tenant object) failed.1 failed.2 := fun failed hmem _ =>
        ⟨(h.failed failed hmem).wellFormed, (h.failed failed hmem).later⟩
      by_cases hlands : outcome.lands = true
      · rw [if_pos hlands]
        -- nothing is in memory that the store would lose
        have hnone := (hcalm (by rw [hstore]; rfl) hlands).resolve_left hfailed
        refine ⟨fun hremote other => ?_, ?_, hdelete, h.stored,
          fun failed hmem => hpending failed hmem none⟩
        · have hboth : Loaded (Function.update s.objects tenant none other)
              (Function.update s.entries tenant none other) :=
            h.loaded_both (show Loaded none none from rfl) hremote other
          rwa [← hnone, Function.update_eq_self] at hboth
        · refine h.notAhead_setObject fun current hcurrent => ?_
          rw [hnone] at hcurrent
          cases hcurrent
      · rw [if_neg hlands]
        have hobjects : (s.setObject tenant (s.objects tenant)).objects = s.objects :=
          Function.update_eq_self tenant s.objects
        refine ⟨fun hremote other => ?_, ?_, ?_, h.stored,
          fun failed hmem => hpending failed hmem _⟩
        · rw [hobjects]
          exact h.loaded hremote other
        · rw [hobjects]
          exact h.notAhead
        · exact h.inOrder.setObject fun document hdocument current hcurrent hne =>
            absurd (Option.some.inj (hcurrent.symm.trans hdocument)) hne

theorem Inv.step (h : Inv s) {event : Event} (hcalm : Calm s event) : Inv (s.step event) := by
  cases event with
  | push tenant push now outcome => exact h.pushed hcalm
  | remove tenant outcome => exact h.removed hcalm

/-! ### Steps that are not calm -/

/-- **A retry is a conflict** where the object store has the push at another time. -/
theorem retry_conflicts (hstore : s.store = some .remote) (hentry : push.entry now = .ok entry)
    (hobject : s.objects tenant = some entry.document) (hpending : Pending s tenant push)
    {later : Nanos} (hlater : later ≠ now) :
    (s.push tenant push later .done).2 = .error (.persist
      ("tenant policy revision conflict for " ++ tenant ++ ": current=" ++
        toString push.revision ++ ", requested=" ++ toString push.revision)) := by
  have hagain := entry_again hentry later
  have hrevision := entry_revision hentry
  have hne : entry.document ≠ ({ entry with updatedAt := later } : PolicyEntry).document := by
    intro heq
    exact hlater ((entry_updatedAt hentry).symm.trans
      (congrArg PolicyDocument.updatedAt heq)).symm
  have hput : PolicyStore.remote.put (some entry.document) tenant
      ({ entry with updatedAt := later } : PolicyEntry).document .done =
      (some entry.document, .error ("tenant policy revision conflict for " ++ tenant ++
        ": current=" ++ toString push.revision ++ ", requested=" ++ toString push.revision)) := by
    have hle : ({ entry with updatedAt := later } : PolicyEntry).document.revision ≤
        entry.document.revision := le_refl entry.revision
    rw [PolicyStore.put, putTenantPolicyRevision, if_neg fun hsame => hne hsame.2, if_pos hle,
      ← hrevision]
    · rfl
    · exact fun _ heq => by cases heq
  simp only [State.push, hstore, hagain, hpending.fence hagain, hobject, hput]

theorem exists_ne_nanos (now : Nanos) : ∃ later : Nanos, later ≠ now := by
  by_cases h : now = .zero
  · exact ⟨.one, by rw [h]; decide⟩
  · exact ⟨.zero, Ne.symm h⟩

/-- A push that is not calm cannot be retried, or is stored out of order. -/
theorem Inv.not_retryable_pushed (h : Inv s)
    (hcalm : ¬ Calm s (.push tenant push now outcome)) :
    ¬ Retryable (s.push tenant push now outcome).1 := by
  rw [Calm] at hcalm
  push Not at hcalm
  obtain ⟨entry, hentry, hfence, hlands, hcalm⟩ := hcalm
  intro hretryable
  cases hstore : s.store with
  | none =>
    rw [hstore] at hcalm
    exact hcalm trivial
  | some store =>
    obtain ⟨error, hpush⟩ := push_eq outcome hstore hentry hfence (h.later hstore hfence)
    rw [hstore] at hcalm
    cases store with
    | remote =>
      -- it is stored and reported as failed
      have hfailed : outcome ≠ .done := hcalm
      rw [hpush, if_neg hfailed, if_pos hlands] at hretryable
      obtain ⟨later, hlater⟩ := exists_ne_nanos now
      obtain ⟨result, hresult, _⟩ := hretryable.retried _ List.mem_cons_self later
      have hpending := pending_of_fence hentry hfence
      have hconflict := retry_conflicts
        (s := { s.setObject tenant (some entry.document) with failed := (tenant, push) :: s.failed })
        hstore hentry (Function.update_self ..) ⟨hpending.wellFormed, hpending.later⟩ hlater
      cases hresult.symm.trans hconflict
    | localFiles =>
      push Not at hcalm
      obtain ⟨document, hdocument, hne, hle⟩ := hcalm
      have hwritten : (s.push tenant push now outcome).1.written tenant =
          push.revision :: s.written tenant := by
        rw [hpush]
        have hnew : s.objects tenant ≠ some entry.document := by
          rw [hdocument]
          exact fun heq => hne (Option.some.inj heq)
        split
        · simp only [State.setEntry, State.setObject, Function.update_self, if_neg hnew]
          rw [← entry_revision hentry]
          rfl
        · simp only [State.setObject, Function.update_self, if_neg hnew]
          rw [← entry_revision hentry]
          rfl
      have hincreasing := hretryable.increasing tenant
      rw [hwritten] at hincreasing
      have hnewest := h.inOrder.newest tenant
      rw [hdocument] at hnewest
      have hmem : document.revision ∈ s.written tenant := List.mem_of_mem_head? hnewest
      exact absurd ((List.pairwise_cons.1 hincreasing).1 _ hmem) (not_lt.2 hle)

/-- A removal that is not calm leaves the memory ahead of the store. -/
theorem Inv.not_retryable_removed (hcalm : ¬ Calm s (.remove tenant outcome)) :
    ¬ Retryable (s.remove tenant outcome).1 := by
  rw [Calm] at hcalm
  push Not at hcalm
  obtain ⟨hsome, hlands, hfailed, hentry⟩ := hcalm
  obtain ⟨store, hstore⟩ := Option.isSome_iff_exists.1 hsome
  obtain ⟨current, hcurrent⟩ := Option.ne_none_iff_exists'.1 hentry
  intro hretryable
  rw [remove_eq outcome hstore, if_neg hfailed, if_pos hlands] at hretryable
  obtain ⟨document, hdocument, _⟩ := hretryable.notAhead tenant current hcurrent
  simp only [State.setObject, Function.update_self] at hdocument
  cases hdocument

/-! ### Runs -/

variable {store : Option PolicyStore} {entries : String → Option PolicyEntry}
  {objects : String → Option PolicyDocument}

theorem inv_start (hloaded : ∀ tenant, Loaded (objects tenant) (entries tenant)) :
    Inv (.start store entries objects) where
  loaded _ := hloaded
  notAhead tenant entry hentry := by
    have hrevision := (hloaded tenant).revision
    rw [show entries tenant = some entry from hentry] at hrevision
    obtain ⟨document, hdocument, heq⟩ := Option.map_eq_some_iff.1 hrevision.symm
    exact ⟨document, hdocument, heq.ge⟩
  inOrder := by
    refine ⟨fun tenant => ?_, fun tenant => ?_⟩
    · change ((objects tenant).map _).toList.head? = _
      cases hobject : objects tenant <;> simp [State.start, hobject]
    · change (((objects tenant).map _).toList).Pairwise _
      cases objects tenant <;> simp
  stored _ hmem := absurd hmem List.not_mem_nil
  failed _ hmem := absurd hmem List.not_mem_nil

/-- **The runs in which a push can always be retried** are those of calm steps. -/
theorem retryable_iff (hloaded : ∀ tenant, Loaded (objects tenant) (entries tenant))
    (events : List Event) :
    machine.Within (fun _ _ s' => Retryable s') (.start store entries objects) events ↔
      machine.Within (fun s event _ => Calm s event) (.start store entries objects) events := by
  refine Machine.within_iff (fun s event s' h hstep => ?_) (fun s event s' h hstep hcalm => ?_)
    (inv_start hloaded) events
  · obtain rfl := Option.some.inj hstep
    refine ⟨fun hretryable => ?_, fun hcalm => (h.step hcalm).retryable⟩
    by_contra hcalm
    cases event with
    | push tenant push now outcome => exact h.not_retryable_pushed hcalm hretryable
    | remove tenant outcome => exact Inv.not_retryable_removed hcalm hretryable
  · obtain rfl := Option.some.inj hstep
    exact h.step hcalm

def sevenDays (revision : ℕ) : PolicyPush := ⟨revision, "7d", none, ⟨none, none, none⟩⟩

/-- A store and a memory without policies. -/
def empty : State := .start (some .remote) (fun _ => none) fun _ => none

/-- A push that was lost, repeated, and a removal. -/
theorem retryable_after_failure : machine.Within (fun _ _ s' => Retryable s') empty
    [.push "acme" (sevenDays 1) .zero (.failed "timeout"),
      .push "acme" (sevenDays 1) .one .done, .remove "acme" .done] := by
  refine (retryable_iff (fun _ => show Loaded none none from rfl) _).2 ?_
  refine ⟨fun entry _ _ hlands => ?_, fun entry _ _ _ => rfl, fun _ _ => .inl rfl, trivial⟩
  cases hlands

/-- **A push that conflicts with itself**: the object is stored and the put reported as failed, so
that every later attempt finds its own revision with another time, and the tenant has no policy in
memory. -/
theorem push_conflicts_with_itself : ∃ s,
    machine.run empty [.push "acme" (sevenDays 1) .zero (.lost "timeout")] = some s ∧
      s.entries "acme" = none ∧ (s.objects "acme").isSome = true ∧
      (s.push "acme" (sevenDays 1) .one .done).2 = .error (.persist
        "tenant policy revision conflict for acme: current=1, requested=1") ∧
      ¬ Retryable s := by
  refine ⟨_, rfl, rfl, rfl, by decide +kernel, fun hretryable => ?_⟩
  obtain ⟨result, hresult, _⟩ := hretryable.retried _ List.mem_cons_self .one
  have hconflict : (((empty.step (.push "acme" (sevenDays 1) .zero (.lost "timeout"))).push "acme"
      (sevenDays 1) .one .done).2).isOk = false := by decide +kernel
  rw [show ((empty.step (.push "acme" (sevenDays 1) .zero (.lost "timeout"))).push "acme"
    (sevenDays 1) .one .done).2 = .ok result from hresult] at hconflict
  cases hconflict

end Policies

end Obsy
