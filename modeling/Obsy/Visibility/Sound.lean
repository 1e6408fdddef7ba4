import Mathlib.Tactic.Abel
import Obsy.Visibility.Machine

/-!
# Readers see every item once

* `Store.Core`: what is held is in a buffer, in the hands of an abort, or in a part.
* `Reader.Good`: what a reader has seen so far, key by key.
* `Store.Sound.step`, `run_sawOnce`: in every run of smooth steps a reader sees each item as often as
  it is held.
* `smooth_of_joint`: where aborts and reads are one section each, every step is smooth.
-/

namespace Obsy

namespace Visibility

variable {M S β α κ : Type} [DecidableEq α] {T : Table M S β α κ}
  {D : Discipline κ} {valid : M → Prop} {sound : S → Prop} {fits : M → β → Prop}

/-! ### The invariant -/

namespace Store

/-- What an abort has in its hands. -/
def pending (T : Table M S β α κ) (store : Store M S α κ) : Multiset α :=
  match store.flight with
  | .aborting s => T.items s
  | _ => 0

/-- What is in memory. -/
def buffered (T : Table M S β α κ) (store : Store M S α κ) : Multiset α :=
  T.live store.memtable + T.frozen store.memtable + store.pending T

/-- The flush has what the frozen buffer has, or nothing is in it. -/
def FlightOk (T : Table M S β α κ) (sound : S → Prop) (store : Store M S α κ) : Prop :=
  match store.flight with
  | .idle | .retiring _ => T.frozen store.memtable = 0
  | .flushing s => T.frozen store.memtable = T.items s ∧ sound s
  | .aborting s => T.frozen store.memtable = 0 ∧ sound s

structure Core (T : Table M S β α κ) (valid : M → Prop) (sound : S → Prop)
    (store : Store M S α κ) : Prop where
  valid : valid store.memtable
  flight : store.FlightOk T sound
  held : store.buffered T + store.stored = store.held
  keys : ∀ a ∈ store.buffered T, T.keyOf a ∈ T.keys store.memtable

end Store

section

variable (T) (store : Store M S α κ) (reader : Reader α κ)

/-- The items of a key have been read from memory, each of them once. -/
def Settled (k : κ) : Prop :=
  ∀ a, T.keyOf a = k → reader.before.count a ≤ reader.seen.count a + store.stored.count a ∧
    reader.seen.count a ≤ (store.buffered T).count a

/-- Nothing of a key has been read. -/
def Unread (k : κ) : Prop := ∀ a, T.keyOf a = k → reader.seen.count a = 0

/-- What is missing of a key is in the live buffer. -/
def Halved (k : κ) : Prop :=
  ∀ a, T.keyOf a = k →
    reader.before.count a ≤
      reader.seen.count a + (T.live store.memtable).count a + store.stored.count a ∧
    reader.seen.count a + (T.live store.memtable).count a ≤ (store.buffered T).count a

/-- The frozen buffer had nothing of a key. -/
def Missed (k : κ) : Prop :=
  ∀ a, T.keyOf a = k →
    reader.before.count a ≤ (T.live store.memtable).count a + store.stored.count a

/-- Every item that a reader wants, it has seen as often as it was held at its start, and not more
often than it is held at its end. -/
def Within (held : Multiset α) : Prop :=
  ∀ a, reader.wanted (T.keyOf a) = true →
    reader.before.count a ≤ reader.seen.count a ∧ reader.seen.count a ≤ held.count a

namespace Reader

structure Probing (todo : List κ) (half : Option Bool) (chosen : List κ) : Prop where
  seen : reader.seen = 0
  nodup : (todo ++ chosen).Nodup
  wanted : ∀ k ∈ todo ++ chosen, reader.wanted k = true
  settled : ∀ k, reader.wanted k = true → k ∉ todo ++ chosen → Settled T store reader k
  missed : half = some false → ∀ k, todo.head? = some k → Missed T store reader k

structure Reading (todo : List κ) (half : Bool) : Prop where
  nodup : todo.Nodup
  wanted : ∀ k ∈ todo, reader.wanted k = true
  settled : ∀ k, reader.wanted k = true → k ∉ todo → Settled T store reader k
  unread : ∀ k ∈ todo, half = false ∨ todo.head? ≠ some k → Unread T reader k
  halved : half = true → ∀ k, todo.head? = some k → Halved T store reader k

/-- What a reader has seen so far. -/
def Good : Prop :=
  match reader.phase with
  | .guarded => reader.before ≤ store.held ∧ reader.seen = 0
  | .probing todo half chosen =>
    reader.before ≤ store.held ∧ Probing T store reader todo half chosen
  | .reading todo half => reader.before ≤ store.held ∧ Reading T store reader todo half
  | .buffered => ∀ k, reader.wanted k = true → Settled T store reader k
  | .complete => Within T reader store.held
  | .finished => Within T reader reader.after

end Reader

end

structure Store.Sound (T : Table M S β α κ) (valid : M → Prop) (sound : S → Prop)
    (store : Store M S α κ) : Prop where
  core : store.Core T valid sound
  readers : ∀ reader ∈ store.readers, reader.Good T store

/-! ### What a pass does to a reader -/

/-- The memory only gains, and the parts stay. -/
structure Grows (T : Table M S β α κ) (store store' : Store M S α κ) : Prop where
  stored : store'.stored = store.stored
  held : store.held ≤ store'.held
  buffered : ∀ a, (store.buffered T).count a ≤ (store'.buffered T).count a

/-- What the live buffer gains is new. -/
def Steady (T : Table M S β α κ) (store store' : Store M S α κ) : Prop :=
  ∀ a, (T.live store.memtable).count a ≤ (T.live store'.memtable).count a ∧
    (T.live store'.memtable).count a + (store.buffered T).count a ≤
      (T.live store.memtable).count a + (store'.buffered T).count a

variable {store store' : Store M S α κ} {reader : Reader α κ}

theorem Settled.grows {k : κ} (h : Settled T store reader k) (hgrows : Grows T store store') :
    Settled T store' reader k := by
  intro a ha
  obtain ⟨hlow, hhigh⟩ := h a ha
  rw [hgrows.stored]
  exact ⟨hlow, hhigh.trans (hgrows.buffered a)⟩

theorem Halved.grows {k : κ} (h : Halved T store reader k) (hgrows : Grows T store store')
    (hsteady : Steady T store store') : Halved T store' reader k := by
  intro a ha
  obtain ⟨hlow, hhigh⟩ := h a ha
  obtain ⟨hlive, hmore⟩ := hsteady a
  rw [hgrows.stored]
  exact ⟨by omega, by omega⟩

theorem Missed.grows {k : κ} (h : Missed T store reader k) (hgrows : Grows T store store')
    (hsteady : Steady T store store') : Missed T store' reader k := by
  intro a ha
  have hlow := h a ha
  have hlive := (hsteady a).1
  rw [hgrows.stored]
  omega

/-- A reader keeps what it knows while the memory only gains. -/
theorem Reader.Good.grows (h : reader.Good T store) (hgrows : Grows T store store')
    (hsteady : Steady T store store' ∨ reader.halfway = false) : reader.Good T store' := by
  rw [Reader.Good] at h ⊢
  cases hphase : reader.phase with
  | guarded =>
    rw [hphase] at h
    exact ⟨h.1.trans hgrows.held, h.2⟩
  | probing todo half chosen =>
    rw [hphase] at h
    refine ⟨h.1.trans hgrows.held, h.2.seen, h.2.nodup, h.2.wanted,
      fun k hk hnot => (h.2.settled k hk hnot).grows hgrows, ?_⟩
    rintro rfl k hk
    rcases hsteady with hsteady | hhalf
    · exact (h.2.missed rfl k hk).grows hgrows hsteady
    · rw [Reader.halfway, hphase] at hhalf
      cases hhalf
  | reading todo half =>
    rw [hphase] at h
    refine ⟨h.1.trans hgrows.held, h.2.nodup, h.2.wanted,
      fun k hk hnot => (h.2.settled k hk hnot).grows hgrows, h.2.unread, ?_⟩
    rintro rfl k hk
    rcases hsteady with hsteady | hhalf
    · exact (h.2.halved rfl k hk).grows hgrows hsteady
    · rw [Reader.halfway, hphase] at hhalf
      cases hhalf
  | buffered =>
    rw [hphase] at h
    exact fun k hk => (h k hk).grows hgrows
  | complete =>
    rw [hphase] at h
    exact fun a ha => ⟨(h a ha).1, (h a ha).2.trans (Multiset.count_le_of_le a hgrows.held)⟩
  | finished =>
    rw [hphase] at h
    exact h

/-- A reader that has given up its guard depends on nothing more. -/
theorem Reader.Good.of_free (h : reader.Good T store) (hfree : reader.free = true) :
    reader.Good T store' := by
  rw [Reader.Good] at h ⊢
  cases hphase : reader.phase with
  | finished =>
    rw [hphase] at h
    exact h
  | _ =>
    rw [Reader.free, hphase] at hfree
    cases hfree

/-! ### The passes -/

omit [DecidableEq α] in
theorem Store.inParts_append (parts more : List (String × Multiset α)) :
    Store.inParts (parts ++ more) = Store.inParts parts + Store.inParts more := by
  rw [Store.inParts, List.map_append, List.sum_append]
  rfl

omit [DecidableEq α] in
/-- The parts that ids leave and take are all parts. -/
theorem Store.others_add_chosen (store : Store M S α κ) (ids : List String) :
    Store.inParts (store.others ids) + Store.inParts (store.chosen ids) = store.stored := by
  have hperm : ((store.chosen ids) ++ (store.others ids)).Perm store.parts := by
    simpa only [Store.chosen, Store.others, decide_not] using List.filter_append_perm (fun part => part.1 ∈ ids) store.parts
  rw [add_comm, ← Store.inParts_append]
  exact (hperm.map Prod.snd).sum_eq

/-- What a pass does: it keeps the books, and readers under a guard see the memory only gain. -/
structure PassOk (T : Table M S β α κ) (valid : M → Prop) (sound : S → Prop)
    (store store' : Store M S α κ) : Prop where
  core : store'.Core T valid sound
  effect : store.free = true ∨
    Grows T store store' ∧ (Steady T store store' ∨ ∀ reader ∈ store.readers, reader.halfway = false)
  same : store'.readers = store.readers

/-- A pass that moves nothing in memory. -/
theorem grows_of_eq (hstored : store'.stored = store.stored) (hheld : store'.held = store.held)
    (hbuffered : store'.buffered T = store.buffered T) : Grows T store store' :=
  ⟨hstored, hheld ▸ le_rfl, fun a => by rw [hbuffered]⟩

theorem steady_of_eq (hlive : T.live store'.memtable = T.live store.memtable)
    (hbuffered : store'.buffered T = store.buffered T) : Steady T store store' :=
  fun a => by rw [hlive, hbuffered]; exact ⟨le_rfl, le_rfl⟩

/-- What a reader knows does not depend on the other readers. -/
theorem Reader.Good.withReaders (h : reader.Good T store) (readers : List (Reader α κ)) :
    reader.Good T { store with readers } :=
  h.grows (grows_of_eq rfl rfl rfl) (.inl (steady_of_eq rfl rfl))

variable [DecidableEq κ]

theorem passOk_insert (hT : T.Lawful valid sound fits) (h : store.Core T valid sound) {batch : β}
    (hfits : fits store.memtable batch) :
    PassOk T valid sound store { store with
      memtable := T.insert store.memtable batch
      held := store.held + T.accepted store.memtable batch } := by
  have hlive := hT.live_insert _ batch h.valid hfits
  have hfrozen := hT.frozen_insert store.memtable batch
  have hbuffered : ({ store with
      memtable := T.insert store.memtable batch
      held := store.held + T.accepted store.memtable batch } : Store M S α κ).buffered T =
      store.buffered T + T.accepted store.memtable batch := by
    simp only [Store.buffered, Store.pending, hlive, hfrozen]
    abel
  refine ⟨⟨hT.insert_valid _ batch h.valid hfits, ?_, ?_, fun a ha => ?_⟩,
    .inr ⟨⟨rfl, Multiset.le_add_right _ _, fun a => ?_⟩, .inl fun a => ?_⟩, rfl⟩
  · have hflight := h.flight
    rw [Store.FlightOk] at hflight ⊢
    dsimp only
    rwa [hfrozen]
  · rw [hbuffered, ← h.held]
    simp only [Store.stored]
    abel
  · rw [hbuffered, Multiset.mem_add] at ha
    rcases ha with ha | ha
    · exact hT.keys_insert _ _ _ (h.keys a ha)
    · exact hT.keys_accepted _ _ a ha
  · rw [hbuffered, Multiset.count_add]
    omega
  · rw [hbuffered]
    dsimp only
    rw [hlive, Multiset.count_add, Multiset.count_add]
    omega

theorem passOk_beginFlush (hT : T.Lawful valid sound fits) (h : store.Core T valid sound) {s : S}
    (hidle : store.flight = .idle) (hs : T.snapshot (T.beginFlush store.memtable) = some s)
    (hhalf : ∀ reader ∈ store.readers, reader.halfway = false) :
    PassOk T valid sound store
      { store with memtable := T.beginFlush store.memtable, flight := .flushing s } := by
  have hfrozen := hT.frozen_begin _ h.valid
  have hbuffered : ({ store with
      memtable := T.beginFlush store.memtable, flight := .flushing s } : Store M S α κ).buffered T =
      store.buffered T := by
    simp only [Store.buffered, Store.pending, hT.live_begin, hfrozen, hidle]
    abel
  obtain ⟨hitems, hsound⟩ := hT.snapshot_begin _ s h.valid hs
  refine ⟨⟨hT.begin_valid _ h.valid, ⟨hitems.symm, hsound⟩, ?_, fun a ha => ?_⟩,
    .inr ⟨grows_of_eq rfl rfl hbuffered, .inr hhalf⟩, rfl⟩
  · rw [hbuffered]
    exact h.held
  · rw [hbuffered] at ha
    dsimp only
    rw [hT.keys_begin]
    exact h.keys a ha

theorem passOk_commitFlush (hT : T.Lawful valid sound fits) (h : store.Core T valid sound) {s : S}
    {parts : List (String × Multiset α)} (hflight : store.flight = .flushing s)
    (hfree : store.free = true) (hparts : Store.inParts parts = T.items s) :
    PassOk T valid sound store { store with
      memtable := T.commitFlush store.memtable
      flight := .retiring s
      parts := store.parts ++ parts } := by
  have hfrozen : T.frozen store.memtable = T.items s := by
    have hok := h.flight
    rw [Store.FlightOk, hflight] at hok
    exact hok.1
  have hheld := h.held
  refine ⟨⟨hT.commit_valid _ h.valid, hT.frozen_commit _, ?_, fun a ha => ?_⟩, .inl hfree, rfl⟩
  · simp only [Store.buffered, Store.pending, Store.stored, hflight, hfrozen] at hheld
    simp only [Store.buffered, Store.pending, Store.stored, hT.live_commit, hT.frozen_commit,
      Store.inParts_append, hparts]
    rw [← hheld]
    abel
  · simp only [Store.buffered, Store.pending, hT.live_commit, hT.frozen_commit, add_zero] at ha
    dsimp only
    rw [hT.keys_commit]
    exact h.keys a (Multiset.mem_add.2 (.inl (Multiset.mem_add.2 (.inl ha))))

theorem passOk_retireFlushed (hT : T.Lawful valid sound fits) (h : store.Core T valid sound) {s : S}
    (hflight : store.flight = .retiring s) :
    PassOk T valid sound store
      { store with memtable := T.retireFlushed store.memtable s, flight := .idle } := by
  have hempty : T.frozen store.memtable = 0 := by
    have hok := h.flight
    rw [Store.FlightOk, hflight] at hok
    exact hok
  have hlive := hT.live_retire _ s h.valid
  have hbuffered : ({ store with
      memtable := T.retireFlushed store.memtable s, flight := .idle } : Store M S α κ).buffered T =
      store.buffered T := by
    simp only [Store.buffered, Store.pending, hlive, hT.frozen_retire, hflight]
  refine ⟨⟨hT.retire_valid _ s h.valid, (hT.frozen_retire _ s).trans hempty, ?_, fun a ha => ?_⟩,
    .inr ⟨grows_of_eq rfl rfl hbuffered, .inl (steady_of_eq hlive hbuffered)⟩, rfl⟩
  · rw [hbuffered]
    exact h.held
  · rw [hbuffered] at ha
    have hkey := h.keys a ha
    simp only [Store.buffered, Store.pending, hempty, hflight, add_zero] at ha
    exact hT.keys_retire _ s a h.valid ha hkey

/-- The first section of an abort. -/
theorem passOk_abortClear (hT : T.Lawful valid sound fits) (h : store.Core T valid sound) {s : S}
    (hflight : store.flight = .flushing s) :
    PassOk T valid sound store
      { store with memtable := T.abortClear store.memtable, flight := .aborting s } := by
  obtain ⟨hfrozen, hsound⟩ : T.frozen store.memtable = T.items s ∧ sound s := by
    have hok := h.flight
    rwa [Store.FlightOk, hflight] at hok
  have hbuffered : ({ store with
      memtable := T.abortClear store.memtable, flight := .aborting s } : Store M S α κ).buffered T =
      store.buffered T := by
    simp only [Store.buffered, Store.pending, hT.live_clear, hT.frozen_clear, hflight, hfrozen]
    abel
  refine ⟨⟨hT.clear_valid _ h.valid, ⟨hT.frozen_clear _, hsound⟩, ?_, fun a ha => ?_⟩,
    .inr ⟨grows_of_eq rfl rfl hbuffered, .inl (steady_of_eq (hT.live_clear _) hbuffered)⟩, rfl⟩
  · rw [hbuffered]
    exact h.held
  · rw [hbuffered] at ha
    dsimp only
    rw [hT.keys_clear]
    exact h.keys a ha

/-- The second section of an abort. -/
theorem passOk_abortRestore (hT : T.Lawful valid sound fits) (h : store.Core T valid sound) {s : S}
    (hflight : store.flight = .aborting s)
    (hhalf : ∀ reader ∈ store.readers, reader.halfway = false) :
    PassOk T valid sound store
      { store with memtable := T.abortRestore store.memtable s, flight := .idle } := by
  obtain ⟨hempty, hsound⟩ : T.frozen store.memtable = 0 ∧ sound s := by
    have hok := h.flight
    rwa [Store.FlightOk, hflight] at hok
  have hbuffered : ({ store with
      memtable := T.abortRestore store.memtable s, flight := .idle } : Store M S α κ).buffered T =
      store.buffered T := by
    simp only [Store.buffered, Store.pending, hT.live_restore _ s h.valid hsound, hT.frozen_restore,
      hempty, hflight]
    abel
  refine ⟨⟨hT.restore_valid _ s h.valid hsound, (hT.frozen_restore _ s).trans hempty, ?_,
    fun a ha => ?_⟩, .inr ⟨grows_of_eq rfl rfl hbuffered, .inr hhalf⟩, rfl⟩
  · rw [hbuffered]
    exact h.held
  · rw [hbuffered] at ha
    exact hT.keys_restore _ s _ (h.keys a ha)

/-- Both sections of an abort in one. -/
theorem passOk_abortFlush (hT : T.Lawful valid sound fits) (h : store.Core T valid sound) {s : S}
    (hflight : store.flight = .flushing s)
    (hhalf : ∀ reader ∈ store.readers, reader.halfway = false) :
    PassOk T valid sound store
      { store with
        memtable := T.abortRestore (T.abortClear store.memtable) s, flight := .idle } := by
  have hclear := passOk_abortClear hT h hflight
  have hrestore := passOk_abortRestore hT hclear.core rfl hhalf
  have hbuffered : ({ store with
      memtable := T.abortRestore (T.abortClear store.memtable) s
      flight := .idle } : Store M S α κ).buffered T = store.buffered T := by
    have hsound := hclear.core.flight.2
    have hfrozen : T.frozen store.memtable = T.items s := by
      have hok := h.flight
      rw [Store.FlightOk, hflight] at hok
      exact hok.1
    simp only [Store.buffered, Store.pending,
      hT.live_restore _ s (hT.clear_valid _ h.valid) hsound, hT.frozen_restore, hT.live_clear,
      hT.frozen_clear, hflight, hfrozen]
    abel
  exact ⟨hrestore.core, .inr ⟨grows_of_eq rfl rfl hbuffered, .inr hhalf⟩, rfl⟩

omit [DecidableEq κ] in
theorem passOk_replace (h : store.Core T valid sound) {ids : List String}
    {parts : List (String × Multiset α)} (hfree : store.free = true)
    (hparts : Store.inParts parts = Store.inParts (store.chosen ids)) :
    PassOk T valid sound store { store with parts := store.others ids ++ parts } := by
  have hstored : Store.inParts (store.others ids ++ parts) = store.stored := by
    rw [Store.inParts_append, hparts, Store.others_add_chosen]
  exact ⟨⟨h.valid, h.flight, (congrArg _ hstored).trans h.held, h.keys⟩, .inl hfree, rfl⟩

omit [DecidableEq κ] in
theorem passOk_expire (h : store.Core T valid sound) {ids : List String}
    (hfree : store.free = true) :
    PassOk T valid sound store { store with
      parts := store.others ids
      held := store.held - Store.inParts (store.chosen ids) } := by
  refine ⟨⟨h.valid, h.flight, ?_, h.keys⟩, .inl hfree, rfl⟩
  have hheld := h.held
  rw [← Store.others_add_chosen store ids, ← add_assoc] at hheld
  exact (Multiset.add_sub_cancel_right ..).symm.trans (congrArg (· - _) hheld)

/-- **A smooth pass** keeps the books. -/
theorem passOk_of_step (hT : T.Lawful valid sound fits) (h : store.Core T valid sound)
    {event : Event β α κ} (hsmooth : Smooth D fits store event)
    (hstep : passStep T D store event = some store') :
    PassOk T valid sound store store' ∨ ∃ wanted, store' = { store with
      readers := store.readers ++ [⟨wanted, .guarded, 0, store.held, 0⟩] } := by
  cases event with
  | insert batch =>
    obtain rfl := Option.some.inj hstep
    exact .inl (passOk_insert hT h hsmooth)
  | beginFlush =>
    rw [passStep] at hstep
    split at hstep
    · rename_i hidle
      obtain ⟨s, hs, rfl⟩ := Option.map_eq_some_iff.1 hstep
      exact .inl (passOk_beginFlush hT h hidle hs hsmooth)
    · cases hstep
  | commitFlush parts =>
    rw [passStep] at hstep
    split at hstep
    · rename_i s hflight
      split at hstep
      · rename_i hguard
        obtain rfl := Option.some.inj hstep
        exact .inl (passOk_commitFlush hT h hflight hguard.1 hguard.2)
      · cases hstep
    · cases hstep
  | retireFlushed =>
    rw [passStep] at hstep
    split at hstep
    · rename_i s hflight
      obtain rfl := Option.some.inj hstep
      exact .inl (passOk_retireFlushed hT h hflight)
    · cases hstep
  | abortFlush =>
    rw [passStep] at hstep
    split at hstep
    · rename_i s _ hflight
      obtain rfl := Option.some.inj hstep
      exact .inl (passOk_abortFlush hT h hflight hsmooth)
    · cases hstep
  | abortClear =>
    rw [passStep] at hstep
    split at hstep
    · rename_i s _ hflight
      obtain rfl := Option.some.inj hstep
      exact .inl (passOk_abortClear hT h hflight)
    · cases hstep
  | abortRestore =>
    rw [passStep] at hstep
    split at hstep
    · rename_i s hflight
      obtain rfl := Option.some.inj hstep
      exact .inl (passOk_abortRestore hT h hflight hsmooth)
    · cases hstep
  | replace ids parts =>
    rw [passStep] at hstep
    split at hstep
    · rename_i hguard
      obtain rfl := Option.some.inj hstep
      exact .inl (passOk_replace h hguard.1 hguard.2)
    · cases hstep
  | expire ids =>
    rw [passStep] at hstep
    split at hstep
    · rename_i hfree
      obtain rfl := Option.some.inj hstep
      exact .inl (passOk_expire h hfree)
    · cases hstep
  | start wanted =>
    obtain rfl := Option.some.inj hstep
    exact .inr ⟨wanted, rfl⟩
  | _ => cases hstep

/-! ### The sections of a reader -/

omit [DecidableEq κ] in
/-- An item that a reader does not want is not seen in what it filters. -/
theorem count_filter_wanted (T : Table M S β α κ) (wanted : κ → Bool) (items : Multiset α) (a : α) :
    (items.filter fun a => wanted (T.keyOf a) = true).count a =
      if wanted (T.keyOf a) = true then items.count a else 0 := by
  exact Multiset.count_filter

theorem count_filter_key (T : Table M S β α κ) (k : κ) (items : Multiset α) (a : α) :
    (items.filter fun a => T.keyOf a = k).count a = if T.keyOf a = k then items.count a else 0 := by
  exact Multiset.count_filter

omit [DecidableEq κ] in
/-- What is held, item by item. -/
theorem Store.Core.count (h : store.Core T valid sound) (a : α) :
    (T.live store.memtable).count a + (T.frozen store.memtable).count a +
        (store.pending T).count a + store.stored.count a = store.held.count a := by
  rw [← h.held, Store.buffered]
  simp only [Multiset.count_add]

omit [DecidableEq κ] in
theorem count_buffered (a : α) :
    (store.buffered T).count a = (T.live store.memtable).count a +
      (T.frozen store.memtable).count a + (store.pending T).count a := by
  rw [Store.buffered]
  simp only [Multiset.count_add]

omit [DecidableEq α] [DecidableEq κ] in
/-- A reader that looks at the frozen buffer outside an abort misses nothing. -/
theorem pending_eq_zero (h : store.flight.isAborting = false) : store.pending T = 0 := by
  rw [Store.pending]
  split
  · rename_i hflight
    rw [hflight] at h
    cases h
  · rfl

/-- One section that reads both buffers. -/
theorem Reader.Good.readAll (hT : T.Lawful valid sound fits) (h : store.Core T valid sound)
    (hgood : reader.Good T store) (hphase : reader.phase = .guarded)
    (hflight : store.flight.isAborting = false) :
    Reader.Good T store { reader with
      phase := .buffered
      seen := (T.readAll store.memtable).filter fun a => reader.wanted (T.keyOf a) } := by
  rw [Reader.Good, hphase] at hgood
  intro k hk a ha
  have hcount := h.count a
  have hbefore := Multiset.count_le_of_le a hgood.1
  have hpending : (store.pending T).count a = 0 := by
    rw [pending_eq_zero hflight, Multiset.count_zero]
  have hwanted : reader.wanted (T.keyOf a) = true := ha ▸ hk
  dsimp only
  rw [count_filter_wanted, if_pos hwanted, hT.readAll_eq, Multiset.count_add, count_buffered]
  omega

/-- The section that reads the keys: a key that is not among them has nothing in memory. -/
theorem Reader.Good.readKeys (hT : T.Lawful valid sound fits) (h : store.Core T valid sound)
    (hgood : reader.Good T store) (hphase : reader.phase = .guarded) :
    Reader.Good T store { reader with
      phase := .probing ((T.keys store.memtable).filter reader.wanted) none [] } := by
  rw [Reader.Good, hphase] at hgood
  refine ⟨hgood.1, hgood.2, ?_, fun k hk => ?_, fun k hk hnot a ha => ?_, nofun⟩
  · rw [List.append_nil]
    exact (hT.keys_nodup _ h.valid).filter _
  · rw [List.append_nil] at hk
    exact (List.mem_filter.1 hk).2
  · have hnone : (store.buffered T).count a = 0 := by
      refine Multiset.count_eq_zero.2 fun hmem => hnot ?_
      rw [List.append_nil]
      exact List.mem_filter.2 ⟨ha ▸ h.keys a hmem, hk⟩
    have hcount := h.count a
    have hbefore := Multiset.count_le_of_le a hgood.1
    have hbuffered : (store.buffered T).count a = (T.live store.memtable).count a +
        (T.frozen store.memtable).count a + (store.pending T).count a := count_buffered a
    dsimp only
    rw [hgood.2, Multiset.count_zero]
    omega

/-- A section of a look. -/
theorem Reader.Good.probe (hT : T.Lawful valid sound fits) (h : store.Core T valid sound)
    (hgood : reader.Good T store) {reader' : Reader α κ}
    (hflight : reader.meetsFrozen D = true → store.flight.isAborting = false)
    (hstep : probeStep T D store.memtable reader = some reader') : reader'.Good T store := by
  rw [probeStep] at hstep
  rw [Reader.Good] at hgood
  split at hstep
  · -- every key was looked at
    rename_i half chosen hphase
    rw [hphase] at hgood
    obtain ⟨hbefore, hprobing⟩ := hgood
    obtain rfl := Option.some.inj hstep
    refine ⟨hbefore, hprobing.nodup, hprobing.wanted, hprobing.settled, fun k _ _ a _ => ?_, nofun⟩
    dsimp only
    rw [hprobing.seen, Multiset.count_zero]
  · rename_i k todo half chosen hphase
    rw [hphase] at hgood
    obtain ⟨hbefore, hprobing⟩ := hgood
    have hmove : (todo ++ (chosen ++ [k])).Perm (k :: todo ++ chosen) := by
      rw [← List.append_assoc, List.cons_append]
      exact List.perm_append_singleton ..
    have hmoved : Reader.Good T store
        { reader with phase := .probing todo none (chosen ++ [k]) } :=
      ⟨hbefore, hprobing.seen, hmove.nodup_iff.2 hprobing.nodup,
        fun j hj => hprobing.wanted j (hmove.mem_iff.1 hj),
        fun j hj hnot => hprobing.settled j hj fun hmem => hnot (hmove.mem_iff.2 hmem), nofun⟩
    split at hstep
    · rename_i hprobes
      split at hstep
      · -- the section of the frozen buffer
        obtain rfl := Option.some.inj hstep
        refine ⟨hbefore, hprobing.seen, hprobing.nodup, hprobing.wanted, hprobing.settled, ?_⟩
        intro hfound j hj a ha
        obtain rfl : k = j := Option.some.inj hj
        have hnone : T.readFrozen store.memtable k = 0 := by
          simpa using Option.some.inj hfound
        have hfrozen : (T.frozen store.memtable).count a = 0 := by
          have hread := congrArg (Multiset.count a) hnone
          rwa [hT.readFrozen_eq, count_filter_key, if_pos ha, Multiset.count_zero] at hread
        have hpending : (store.pending T).count a = 0 := by
          rw [pending_eq_zero (hflight (by simp [Reader.meetsFrozen, hphase, hprobes])),
            Multiset.count_zero]
        have hcount := h.count a
        have hle := Multiset.count_le_of_le a hbefore
        show reader.before.count a ≤ _
        omega
      · -- the section of the live buffer
        rename_i found
        obtain rfl := Option.some.inj hstep
        split
        · exact hmoved
        · rename_i hnothing
          simp only [ne_eq, Bool.or_eq_true, decide_eq_true_eq, not_or, not_not,
            Bool.not_eq_true] at hnothing
          obtain ⟨rfl, hnone⟩ := hnothing
          have hnodup := hprobing.nodup
          rw [List.cons_append] at hnodup
          refine ⟨hbefore, hprobing.seen, hnodup.of_cons,
            fun j hj => hprobing.wanted j (List.mem_cons_of_mem _ hj), fun j hj hnot => ?_, nofun⟩
          by_cases hjk : j = k
          · subst hjk
            intro a ha
            have hmissed := hprobing.missed rfl j rfl a ha
            have hlive : (T.live store.memtable).count a = 0 := by
              have hread := congrArg (Multiset.count a) hnone
              rwa [hT.readLive_eq _ _ h.valid, count_filter_key, if_pos ha,
                Multiset.count_zero] at hread
            dsimp only
            rw [hprobing.seen, Multiset.count_zero]
            omega
          · refine hprobing.settled j hj fun hmem => hnot ?_
            rw [List.cons_append] at hmem
            exact (List.mem_cons.1 hmem).resolve_left hjk
    · obtain rfl := Option.some.inj hstep
      exact hmoved
  · cases hstep

/-- A section of a read. -/
theorem Reader.Good.read (hT : T.Lawful valid sound fits) (h : store.Core T valid sound)
    (hgood : reader.Good T store) {reader' : Reader α κ}
    (hflight : reader.meetsFrozen D = true → store.flight.isAborting = false)
    (hstep : readStep T store.memtable reader = some reader') : reader'.Good T store := by
  rw [readStep] at hstep
  rw [Reader.Good] at hgood
  split at hstep
  · rename_i half hphase
    rw [hphase] at hgood
    obtain rfl := Option.some.inj hstep
    exact fun k hk => hgood.2.settled k hk List.not_mem_nil
  · -- the section of the frozen buffer
    rename_i k todo hphase
    rw [hphase] at hgood
    obtain ⟨hbefore, hreading⟩ := hgood
    obtain rfl := Option.some.inj hstep
    have hother : ∀ a, T.keyOf a ≠ k →
        (reader.seen + T.readFrozen store.memtable k).count a = reader.seen.count a := by
      intro a ha
      rw [Multiset.count_add, hT.readFrozen_eq, count_filter_key, if_neg ha, add_zero]
    refine ⟨hbefore, hreading.nodup, hreading.wanted, fun j hj hnot a ha => ?_,
      fun j hj hcase a ha => ?_, fun _ j hj a ha => ?_⟩
    · have hne : T.keyOf a ≠ k := fun heq => hnot (ha ▸ heq ▸ List.mem_cons_self)
      dsimp only
      rw [hother a hne]
      exact hreading.settled j hj hnot a ha
    · have hne : T.keyOf a ≠ k := by
        rintro heq
        rcases hcase with hcase | hcase
        · cases hcase
        · exact hcase (congrArg some (heq.symm.trans ha))
      dsimp only
      rw [hother a hne]
      exact hreading.unread j hj (.inl rfl) a ha
    · obtain rfl : k = j := Option.some.inj hj
      have hunread := hreading.unread k List.mem_cons_self (.inl rfl) a ha
      have hpending : (store.pending T).count a = 0 := by
        rw [pending_eq_zero (hflight (by simp [Reader.meetsFrozen, hphase])), Multiset.count_zero]
      have hcount := h.count a
      have hle := Multiset.count_le_of_le a hbefore
      dsimp only
      rw [Multiset.count_add, hunread, hT.readFrozen_eq, count_filter_key, if_pos ha,
        count_buffered]
      omega
  · -- the section of the live buffer
    rename_i k todo hphase
    rw [hphase] at hgood
    obtain ⟨hbefore, hreading⟩ := hgood
    obtain rfl := Option.some.inj hstep
    obtain ⟨hnew, hnodup⟩ := List.nodup_cons.1 hreading.nodup
    have hother : ∀ a, T.keyOf a ≠ k →
        (reader.seen + T.readLive store.memtable k).count a = reader.seen.count a := by
      intro a ha
      rw [Multiset.count_add, hT.readLive_eq _ _ h.valid, count_filter_key, if_neg ha, add_zero]
    refine ⟨hbefore, hnodup, fun j hj => hreading.wanted j (List.mem_cons_of_mem _ hj),
      fun j hj hnot a ha => ?_, fun j hj _ a ha => ?_, nofun⟩
    · by_cases hjk : j = k
      · subst hjk
        have hhalved := hreading.halved rfl j rfl a ha
        dsimp only
        rw [Multiset.count_add, hT.readLive_eq _ _ h.valid, count_filter_key, if_pos ha]
        omega
      · dsimp only
        rw [hother a (ha ▸ hjk)]
        exact hreading.settled j hj (by simp [hjk, hnot]) a ha
    · have hjk : j ≠ k := fun heq => hnew (heq ▸ hj)
      dsimp only
      rw [hother a (ha ▸ hjk)]
      refine hreading.unread j (List.mem_cons_of_mem _ hj) (.inr fun heq => hjk ?_) a ha
      exact (Option.some.inj heq).symm
  · cases hstep

/-- **A smooth step of a reader** keeps what it has seen right. -/
theorem Reader.Good.step (hT : T.Lawful valid sound fits) (h : store.Core T valid sound)
    (hgood : reader.Good T store) {event : Event β α κ} {q : ℕ} (hq : store.readers[q]? = some reader)
    (hreader : event.reader? = some q) (hsmooth : Smooth D fits store event) {reader' : Reader α κ}
    (hstep : readerStep T D store reader event = some reader') : reader'.Good T store := by
  cases event with
  | readAll i =>
    obtain rfl : i = q := Option.some.inj hreader
    rw [readerStep] at hstep
    split at hstep
    · rename_i hjoint hphase
      obtain rfl := Option.some.inj hstep
      exact hgood.readAll hT h hphase
        (hsmooth reader hq (by simp [Reader.meetsFrozen, hphase, hjoint]))
    · cases hstep
  | readKeys i =>
    rw [readerStep] at hstep
    split at hstep
    · rename_i hphase
      obtain rfl := Option.some.inj hstep
      exact hgood.readKeys hT h hphase
    · cases hstep
  | probe i =>
    obtain rfl : i = q := Option.some.inj hreader
    exact hgood.probe hT h (hsmooth reader hq) hstep
  | read i =>
    obtain rfl : i = q := Option.some.inj hreader
    exact hgood.read hT h (hsmooth reader hq) hstep
  | readParts i =>
    rw [readerStep] at hstep
    split at hstep
    · rename_i hphase
      rw [Reader.Good, hphase] at hgood
      obtain rfl := Option.some.inj hstep
      intro a ha
      obtain ⟨hlow, hhigh⟩ := hgood _ ha a rfl
      have hcount := h.count a
      rw [count_buffered] at hhigh
      dsimp only
      rw [Multiset.count_add, count_filter_wanted, if_pos ha]
      omega
    · cases hstep
  | finish i =>
    rw [readerStep] at hstep
    split at hstep
    · rename_i hphase
      rw [Reader.Good, hphase] at hgood
      obtain rfl := Option.some.inj hstep
      exact hgood
    · cases hstep
  | _ => cases hreader

/-! ### Runs -/

/-- **Step.** -/
theorem Store.Sound.step (hT : T.Lawful valid sound fits) (h : store.Sound T valid sound)
    {event : Event β α κ} (hstep : (tableMachine T D).step store event = some store')
    (hsmooth : Smooth D fits store event) : store'.Sound T valid sound := by
  simp only [tableMachine] at hstep
  split at hstep
  · rename_i q hreader
    obtain ⟨reader, hq, hmap⟩ := Option.bind_eq_some_iff.1 hstep
    obtain ⟨reader', hreaderStep, rfl⟩ := Option.map_eq_some_iff.1 hmap
    have hgood := (h.readers reader (List.mem_of_getElem? hq)).step hT h.core hq hreader hsmooth
      hreaderStep
    refine ⟨⟨h.core.valid, h.core.flight, h.core.held, h.core.keys⟩, fun other hother => ?_⟩
    rcases List.mem_or_eq_of_mem_set hother with hother | rfl
    · exact (h.readers other hother).withReaders _
    · exact hgood.withReaders _
  · rcases passOk_of_step hT h.core hsmooth hstep with hpass | ⟨wanted, rfl⟩
    · refine ⟨hpass.core, fun reader hreader => ?_⟩
      rw [hpass.same] at hreader
      have hgood := h.readers reader hreader
      rcases hpass.effect with hfree | ⟨hgrows, hsteady⟩
      · exact hgood.of_free (List.all_eq_true.1 hfree reader hreader)
      · exact hgood.grows hgrows (hsteady.imp_right fun hall => hall reader hreader)
    · refine ⟨⟨h.core.valid, h.core.flight, h.core.held, h.core.keys⟩, fun reader hreader => ?_⟩
      rcases List.mem_append.1 hreader with hreader | hreader
      · exact (h.readers reader hreader).withReaders _
      · rw [List.mem_singleton.1 hreader]
        exact ⟨le_rfl, rfl⟩

def Store.new (m : M) : Store M S α κ := ⟨m, .idle, [], 0, []⟩

omit [DecidableEq κ] in
theorem Store.sound_new {m : M} (hvalid : valid m) (hlive : T.live m = 0) (hfrozen : T.frozen m = 0) :
    (Store.new m : Store M S α κ).Sound T valid sound := by
  have hbuffered : (Store.new m : Store M S α κ).buffered T = 0 := by
    simp [Store.buffered, Store.pending, Store.new, hlive, hfrozen]
  refine ⟨⟨hvalid, hfrozen, ?_, fun a ha => ?_⟩, nofun⟩
  · rw [hbuffered]
    rfl
  · rw [hbuffered] at ha
    cases ha

/-- **Every item once.**  After a run of smooth steps, a reader that has given up its guard has seen
each item that it wanted as often as the item was held when it took the guard, or was held at its
end. -/
theorem run_sawOnce (hT : T.Lawful valid sound fits) {m : M} (hvalid : valid m)
    (hlive : T.live m = 0) (hfrozen : T.frozen m = 0) {events : List (Event β α κ)}
    (hrun : (tableMachine T D).run (.new m) events = some store)
    (hsmooth : (tableMachine T D).Within (fun store event _ => Smooth D fits store event) (.new m)
      events) {reader : Reader α κ} (hreader : reader ∈ store.readers)
    (hfinished : reader.free = true) : Within T reader reader.after := by
  have hsound := Machine.run_invariant_within
    (fun s e s' hs hstep hok => Store.Sound.step hT hs hstep hok)
    (show (Store.new m).Sound T valid sound from Store.sound_new hvalid hlive hfrozen) hsmooth hrun
  have hgood := hsound.readers reader hreader
  rw [Reader.Good] at hgood
  cases hphase : reader.phase with
  | finished => rwa [hphase] at hgood
  | _ =>
    rw [Reader.free, hphase] at hfinished
    cases hfinished

/-! ### Joint reads -/

/-- Whether a reader reads key by key. -/
def Phase.isKeyed : Phase κ → Bool
  | .probing .. | .reading .. => true
  | _ => false

/-- No abort is between its sections, and no reader reads key by key. -/
structure Store.Joint (store : Store M S α κ) : Prop where
  flight : store.flight.isAborting = false
  readers : ∀ reader ∈ store.readers, reader.phase.isKeyed = false

omit [DecidableEq α] [DecidableEq κ] in
theorem Store.Joint.halfway (h : store.Joint) {reader : Reader α κ}
    (hreader : reader ∈ store.readers) : reader.halfway = false := by
  have hphase := h.readers reader hreader
  rw [Reader.halfway]
  split
  · rename_i hprobing
    rw [hprobing] at hphase
    cases hphase
  · rename_i hreading
    rw [hreading] at hphase
    cases hphase
  · rfl

omit [DecidableEq κ] in
/-- A reader that reads both buffers at once never reads by key. -/
theorem isKeyed_readerStep (hread : D.jointRead = true) {reader reader' : Reader α κ}
    (h : reader.phase.isKeyed = false) {event : Event β α κ}
    (hstep : readerStep T D store reader event = some reader') :
    reader'.phase.isKeyed = false := by
  cases event with
  | readAll q =>
    rw [readerStep] at hstep
    split at hstep
    · obtain rfl := Option.some.inj hstep
      rfl
    · cases hstep
  | readKeys q =>
    rw [readerStep, hread] at hstep
    cases hstep
  | probe q =>
    rw [readerStep, probeStep] at hstep
    split at hstep
    · rename_i hphase
      rw [hphase] at h
      cases h
    · rename_i hphase
      rw [hphase] at h
      cases h
    · cases hstep
  | read q =>
    rw [readerStep, readStep] at hstep
    split at hstep
    · rename_i hphase
      rw [hphase] at h
      cases h
    · rename_i hphase
      rw [hphase] at h
      cases h
    · rename_i hphase
      rw [hphase] at h
      cases h
    · cases hstep
  | readParts q =>
    rw [readerStep] at hstep
    split at hstep
    · obtain rfl := Option.some.inj hstep
      rfl
    · cases hstep
  | finish q =>
    rw [readerStep] at hstep
    split at hstep
    · obtain rfl := Option.some.inj hstep
      rfl
    · cases hstep
  | _ => cases hstep

omit [DecidableEq κ] in
/-- A pass starts no abort of two sections, and lets in no reader but a new one. -/
theorem joint_passStep (habort : D.atomicAbort = true) (h : store.Joint) {event : Event β α κ}
    (hstep : passStep T D store event = some store') : store'.Joint := by
  cases event with
  | insert batch =>
    obtain rfl := Option.some.inj hstep
    exact ⟨h.flight, h.readers⟩
  | beginFlush =>
    rw [passStep] at hstep
    split at hstep
    · obtain ⟨s, _, rfl⟩ := Option.map_eq_some_iff.1 hstep
      exact ⟨rfl, h.readers⟩
    · cases hstep
  | commitFlush parts =>
    rw [passStep] at hstep
    split at hstep
    · obtain ⟨_, hsome⟩ := Option.ite_none_right_eq_some.1 hstep
      obtain rfl := Option.some.inj hsome
      exact ⟨rfl, h.readers⟩
    · cases hstep
  | retireFlushed =>
    rw [passStep] at hstep
    split at hstep
    · obtain rfl := Option.some.inj hstep
      exact ⟨rfl, h.readers⟩
    · cases hstep
  | abortFlush =>
    rw [passStep] at hstep
    split at hstep
    · obtain rfl := Option.some.inj hstep
      exact ⟨rfl, h.readers⟩
    · cases hstep
  | abortClear =>
    rw [passStep, habort] at hstep
    cases hstep
  | abortRestore =>
    rw [passStep] at hstep
    split at hstep
    · obtain rfl := Option.some.inj hstep
      exact ⟨rfl, h.readers⟩
    · cases hstep
  | replace ids parts =>
    obtain ⟨_, hsome⟩ := Option.ite_none_right_eq_some.1 hstep
    obtain rfl := Option.some.inj hsome
    exact ⟨h.flight, h.readers⟩
  | expire ids =>
    obtain ⟨_, hsome⟩ := Option.ite_none_right_eq_some.1 hstep
    obtain rfl := Option.some.inj hsome
    exact ⟨h.flight, h.readers⟩
  | start wanted =>
    obtain rfl := Option.some.inj hstep
    refine ⟨h.flight, fun reader hreader => ?_⟩
    rcases List.mem_append.1 hreader with hreader | hreader
    · exact h.readers reader hreader
    · rw [List.mem_singleton.1 hreader]
      rfl
  | _ => cases hstep

omit [DecidableEq κ] in
theorem Store.Joint.step (habort : D.atomicAbort = true) (hread : D.jointRead = true)
    (h : store.Joint) {event : Event β α κ}
    (hstep : (tableMachine T D).step store event = some store') : store'.Joint := by
  simp only [tableMachine] at hstep
  split at hstep
  · rename_i q hevent
    obtain ⟨reader, hq, hmap⟩ := Option.bind_eq_some_iff.1 hstep
    obtain ⟨reader', hreader, rfl⟩ := Option.map_eq_some_iff.1 hmap
    refine ⟨h.flight, fun other hother => ?_⟩
    rcases List.mem_or_eq_of_mem_set hother with hother | rfl
    · exact h.readers other hother
    · exact isKeyed_readerStep hread (h.readers reader (List.mem_of_getElem? hq)) hreader
  · exact joint_passStep habort h hstep

omit [DecidableEq κ] in
/-- **Joint reads.**  Where aborts and reads are one section each, every step is smooth. -/
theorem smooth_of_joint (habort : D.atomicAbort = true) (hread : D.jointRead = true)
    (hfits : ∀ m b, fits m b) {m : M} (events : List (Event β α κ)) :
    (tableMachine T D).Within (fun store event _ => Smooth D fits store event)
      (.new m : Store M S α κ) events := by
  refine Machine.within_of_invariant (P := Store.Joint) (fun store event store' h hstep => ?_)
    ⟨rfl, fun _ hmem => absurd hmem List.not_mem_nil⟩ events
  refine ⟨h.step habort hread hstep, ?_⟩
  cases event with
  | insert batch => exact hfits _ _
  | beginFlush | abortFlush | abortRestore => exact fun reader hreader => h.halfway hreader
  | readAll q | probe q | read q => exact fun _ _ _ => h.flight
  | _ => trivial

end Visibility

end Obsy
