import Obsy.Queue.Arrival
import Obsy.Queue.Calls
import Mathlib.Algebra.BigOperators.Group.List.Basic

/-!
# What the queue counts

`queuedBytes` should be the size of everything held: the loop that makes room for a record goes
by nothing else.

* `Inner.Tallied`: the counter is right, and an open segment that took nothing counts nothing.
* `Lapses`: what the file operations of a call say of its counting.  A segment that is taken off
  and cannot be unlinked stays counted; one that is closed and has no successor is not.
* `queuedBytes_exact`: until a call lapses the counter is right, no subtraction goes below zero
  and the loop comes to an end.
-/

namespace Obsy

namespace Queue

open Machine Machine.Program

open Journal (SenderId sampleSender)

/-! ### The counter -/

/-- The size of a signal's segments. -/
def SignalQueue.heldBytes (q : SignalQueue) : ℕ := (q.segments.map (·.bytes)).sum

/-- The size of everything held. -/
def Inner.heldBytes (inner : Inner) : ℕ :=
  (Signal.all.map fun signal => (inner.signals signal).heldBytes).sum

/-- The segments that a signal holds or would hold once its open one is closed. -/
def SignalQueue.slots (q : SignalQueue) : ℕ :=
  q.closed.length + if q.activeSince.isSome then 1 else 0

/-- The segments that there are to drop. -/
def Inner.slots (inner : Inner) : ℕ :=
  (Signal.all.map fun signal => (inner.signals signal).slots).sum

/-- An open segment counts no more than its encoder wrote, and nothing before its first
record. -/
structure SignalQueue.Settled (q : SignalQueue) : Prop where
  fresh : q.activeSince = none → q.back.bytes = 0
  written : ∀ writer, q.active = some writer → q.back.bytes ≤ writer.written

/-- The counter is right. -/
structure Inner.Tallied (inner : Inner) : Prop where
  exact : inner.stats.queuedBytes = inner.heldBytes
  settled : ∀ signal, (inner.signals signal).Settled

variable {inner m : Inner} {signal : Signal} {sender : SenderId} {disk : Disk}

@[simp] theorem SignalQueue.heldBytes_eq (q : SignalQueue) :
    q.heldBytes = (q.closed.map (·.bytes)).sum + q.back.bytes := by
  simp [heldBytes, segments]

@[simp] theorem Inner.signals_update_self (f : SignalQueue → SignalQueue) :
    (inner.update signal f).signals signal = f (inner.signals signal) := by
  simp [update]

theorem Inner.signals_update_of_ne {other : Signal} (h : other ≠ signal)
    (f : SignalQueue → SignalQueue) :
    (inner.update signal f).signals other = inner.signals other := by
  simp [update, h]

/-- A sum over the signals, of which one changes. -/
theorem sum_signals_update (inner : Inner) (signal : Signal) (f : SignalQueue → SignalQueue)
    (size : SignalQueue → ℕ) :
    (Signal.all.map fun s => size ((inner.update signal f).signals s)).sum +
        size (inner.signals signal) =
      (Signal.all.map fun s => size (inner.signals s)).sum + size (f (inner.signals signal)) := by
  cases signal <;> simp [Signal.all, Inner.update] <;> omega

theorem Inner.heldBytes_update (inner : Inner) (signal : Signal) (f : SignalQueue → SignalQueue) :
    (inner.update signal f).heldBytes + (inner.signals signal).heldBytes =
      inner.heldBytes + (f (inner.signals signal)).heldBytes :=
  sum_signals_update inner signal f SignalQueue.heldBytes

theorem Inner.slots_update (inner : Inner) (signal : Signal) (f : SignalQueue → SignalQueue) :
    (inner.update signal f).slots + (inner.signals signal).slots =
      inner.slots + (f (inner.signals signal)).slots :=
  sum_signals_update inner signal f SignalQueue.slots

theorem Inner.heldBytes_le (inner : Inner) (signal : Signal) :
    (inner.signals signal).heldBytes ≤ inner.heldBytes := by
  unfold Inner.heldBytes
  cases signal <;> simp only [Signal.all, List.map_cons, List.sum_cons] <;> omega

theorem Inner.slots_congr (h : m.signals = inner.signals) : m.slots = inner.slots := by
  simp only [Inner.slots, h]

/-- A change of one signal and of the counter that agree. -/
theorem Inner.Tallied.change (h : inner.Tallied) (signal : Signal) (f : SignalQueue → SignalQueue)
    (hsettled : (f (inner.signals signal)).Settled) (hsignals : m.signals =
      (inner.update signal f).signals)
    (hbytes : m.stats.queuedBytes + (inner.signals signal).heldBytes =
      inner.stats.queuedBytes + (f (inner.signals signal)).heldBytes) : m.Tallied := by
  have hupdate := inner.heldBytes_update signal f
  have hm : m.heldBytes = (inner.update signal f).heldBytes := by
    simp only [Inner.heldBytes, hsignals]
  refine ⟨?_, fun other => ?_⟩
  · have hexact := h.exact
    omega
  · rw [hsignals]
    by_cases ho : other = signal
    · subst ho
      rwa [Inner.signals_update_self]
    · rw [Inner.signals_update_of_ne ho]
      exact h.settled other

/-- Only the signals and the counter matter. -/
theorem Inner.Tallied.counters (h : inner.Tallied) (hsignals : m.signals = inner.signals)
    (hqueued : m.stats.queuedBytes = inner.stats.queuedBytes) : m.Tallied := by
  refine ⟨?_, fun other => hsignals ▸ h.settled other⟩
  rw [hqueued, h.exact]
  simp only [Inner.heldBytes, hsignals]

/-- **What is counted is there to drop.** -/
theorem Inner.Tallied.slots_pos (h : inner.Tallied) (hpos : 0 < inner.stats.queuedBytes) :
    0 < inner.slots := by
  by_contra hslots
  have hzero : ∀ signal, (inner.signals signal).heldBytes = 0 := by
    intro signal
    have hslot : (inner.signals signal).slots = 0 := by
      have hs : inner.slots = 0 := by omega
      simp only [Inner.slots, Signal.all, List.map_cons, List.map_nil, List.sum_cons,
        List.sum_nil] at hs
      cases signal <;> omega
    unfold SignalQueue.slots at hslot
    have hclosed : (inner.signals signal).closed = [] := by
      rw [← List.length_eq_zero_iff]
      omega
    have hsince : (inner.signals signal).activeSince = none := by
      cases hs : (inner.signals signal).activeSince with
      | none => rfl
      | some since => simp [hs] at hslot
    simp [hclosed, (h.settled signal).fresh hsince]
  have hsum : inner.heldBytes = 0 := by
    simp only [Inner.heldBytes, hzero]
    simp
  rw [h.exact, hsum] at hpos
  exact absurd hpos (lt_irrefl 0)

/-! ### Calls under an observer -/

/-- What the operations of a call say of its counting. -/
structure Lapses where
  /-- A segment is being created. -/
  creating : Bool
  /-- A segment that was taken off could not be unlinked, or one that was closed could not be
  followed by the next. -/
  lapsed : Bool
deriving DecidableEq

/-- An operation failed. -/
def failed {α : Type} : Except QueueError α → Bool
  | .ok _ => false
  | .error _ => true

/-- One more operation. -/
def Lapses.see (w : Lapses) (op : FileOp) (r : Except QueueError op.Res) : Lapses :=
  match op with
  | .remove _ _ _ => ⟨false, w.lapsed || failed r⟩
  | .createSegment _ _ _ => ⟨true, w.lapsed || failed r⟩
  | .sync => ⟨w.creating, w.lapsed || (w.creating && failed r)⟩
  | _ => ⟨false, w.lapsed⟩

/-- Before the first operation of a call. -/
def Lapses.none : Lapses := ⟨false, false⟩

/-- The files under the observer. -/
abbrev watched : Device fileInterface (Disk × Lapses) Fate := files.watch Lapses.see

/-- What holds after a call that returned. -/
def Counted (m : Inner) (s : Disk × Lapses) : Prop := s.2.lapsed = false ∧ m.Tallied

/-- What holds after a call that failed: unless it lapsed the counter is right; it ran out of
rounds only if `short`. -/
def Spoiled (short : Prop) (e : QueueError) (m : Inner) (s : Disk × Lapses) : Prop :=
  (s.2.lapsed = false → m.Tallied) ∧ e ≠ .overflow ∧ (e = .unfinished → short)

/-- What holds after a crash. -/
def Gone : Disk × Lapses → Prop := fun _ => True

theorem spoiled_io {short : Prop} {s : Disk × Lapses} (h : s.2.lapsed = false → m.Tallied) :
    Spoiled short .io m s := ⟨h, by decide, fun he => by cases he⟩

theorem Spoiled.mono {short short' : Prop} {e : QueueError} {s : Disk × Lapses}
    (h : Spoiled short e m s) (hs : short → short') : Spoiled short' e m s :=
  ⟨h.1, h.2.1, fun he => hs (h.2.2 he)⟩

/-! ### The pieces of a call -/

variable {s : Disk × Lapses}

/-- Handing bytes to the encoder counts nothing yet. -/
theorem wp_writeAll_counted (signal : Signal) (plain : List UInt8) (h : Counted m s) :
    (writeAll signal plain).wp watched
      ⟨fun _ m s => Counted m s ∧ (m.signals signal).active.isSome, Spoiled False, Gone⟩ m s := by
  obtain ⟨disk, w⟩ := s
  obtain ⟨hlapsed, h⟩ := h
  simp only [writeAll, bind_eq, wp_bind, wp_load]
  cases ha : (m.signals signal).active with
  | none => exact ⟨fun _ => h, by decide, fun he => by cases he⟩
  | some writer =>
    refine wp_seq (wp_ask_seen (K := Gone) trivial (Q := fun _ m' s' => m' = m ∧ s'.2.lapsed = false)
      (fun _ _ => ⟨rfl, hlapsed⟩) fun _ => spoiled_io fun _ => h) fun encoded m' s' hs' => ?_
    obtain ⟨rfl, hlapsed'⟩ := hs'
    have hwritten : (m'.update signal fun q => { q with
        active := some { writer with
          written := writer.written + encoded.emitted
          plain := writer.plain ++ plain.take encoded.accepted } }).Tallied := by
      refine h.change _ _ ⟨(h.settled signal).fresh, fun writer' hw => ?_⟩ rfl rfl
      rw [← Option.some.inj hw]
      exact ((h.settled signal).written writer ha).trans (Nat.le_add_right _ _)
    simp only [wp_bind, wp_store]
    split_ifs
    · exact ⟨⟨hlapsed', hwritten⟩, by rw [Inner.signals_update_self]; rfl⟩
    · exact spoiled_io fun _ => hwritten

/-- Closing the stream gives the segment's size, which is no less than was counted. -/
theorem wp_finish_counted (signal : Signal) (h : Counted m s) :
    (finish signal).wp watched ⟨fun bytes m' s' => s'.2.lapsed = false ∧
      m' = m.update signal (fun q => { q with active := none }) ∧
      (m.signals signal).back.bytes ≤ bytes, Spoiled False, Gone⟩ m s := by
  obtain ⟨disk, w⟩ := s
  obtain ⟨hlapsed, h⟩ := h
  simp only [finish, bind_eq, wp_bind, wp_load]
  cases ha : (m.signals signal).active with
  | none => exact ⟨fun _ => h, by decide, fun he => by cases he⟩
  | some writer =>
    have hclosed : (m.update signal fun q => { q with active := none }).Tallied :=
      h.change _ _ ⟨(h.settled signal).fresh, fun _ hw => by cases hw⟩ rfl rfl
    simp only [wp_bind, wp_store]
    refine wp_mono (wp_ask_seen (K := Gone) trivial (Q := fun _ m' s' => s'.2 = ⟨false, false⟩ ∧
      m' = m.update signal fun q => { q with active := none }) (fun _ _ => ?_)
      fun _ => spoiled_io fun _ => hclosed) (fun encoded m' s' hs' => ?_) (fun _ _ _ h => h)
      fun _ h => h
    · exact ⟨by simp only [Lapses.see, show w.lapsed = false from hlapsed], rfl⟩
    obtain ⟨disk', w'⟩ := s'
    obtain ⟨hw, rfl⟩ := hs'
    obtain rfl : w' = ⟨false, false⟩ := hw
    split_ifs
    · refine wp_seq (wp_act_seen (K := Gone) trivial (Q := fun m' s' => s'.2.lapsed = false ∧
        m' = m.update signal fun q => { q with active := none }) (fun _ _ => ⟨rfl, rfl⟩)
        fun _ => spoiled_io fun _ => hclosed) fun _ m' s' hs' => ⟨hs'.1, hs'.2, ?_⟩
      exact ((h.settled signal).written writer ha).trans (Nat.le_add_right _ _)
    · exact spoiled_io fun _ => hclosed

/-- Creating a segment leaves the queue as it is, and has lapsed when it fails. -/
theorem wp_createSegment_watched {seq : ℕ} (h : s.2.lapsed = false) :
    (createSegment sender signal seq : Call Inner Unit).wp watched
      ⟨fun _ m' s' => m' = m ∧ s'.2.lapsed = false,
        fun e _ s' => e = .io ∧ s'.2.lapsed = true, Gone⟩ m s := by
  obtain ⟨disk, w⟩ := s
  have hsync : ∀ m' s', m' = m ∧ s'.2 = (⟨true, false⟩ : Lapses) →
      (act .sync : Call Inner Unit).wp watched ⟨fun _ m' s' => m' = m ∧
        s'.2 = (⟨true, false⟩ : Lapses), fun e _ s' => e = .io ∧ s'.2.lapsed = true, Gone⟩ m' s' := by
    rintro m' ⟨disk, w⟩ ⟨rfl, rfl⟩
    exact wp_act_seen (K := Gone) trivial (Q := fun m s => m = m' ∧ s.2 = (⟨true, false⟩ : Lapses))
      (fun _ _ => ⟨rfl, rfl⟩) fun _ => ⟨rfl, rfl⟩
  have hw : w.lapsed = false := h
  simp only [createSegment, bind_eq]
  refine wp_seq (wp_act_seen (K := Gone) trivial (Q := fun m' s' => m' = m ∧ s'.2 = (⟨true, false⟩ : Lapses))
    (fun _ _ => ⟨rfl, ?_⟩) fun _ => ⟨rfl, ?_⟩) fun _ m' s' h' =>
      wp_seq (hsync m' s' h') fun _ m' s' h' => wp_mono (hsync m' s' h') (fun _ _ _ h' =>
        ⟨h'.1, h'.2 ▸ rfl⟩) (fun _ _ _ he => he) fun _ hk => hk
  · simp only [Lapses.see, hw, failed, Bool.or_false]
  · simp only [Lapses.see, failed, Bool.or_true]

/-- What closing a segment does to the count: its slot stays. -/
structure Rolled (signal : Signal) (m m' : Inner) : Prop where
  slots : m'.slots = m.slots
  fresh : (m'.signals signal).activeSince = none
  others : ∀ other, other ≠ signal → m'.signals other = m.signals other

theorem rolled_of_signals {m' : Inner} {f : SignalQueue → SignalQueue}
    (hsignals : m'.signals = (m.update signal f).signals)
    (hslots : (f (m.signals signal)).slots = (m.signals signal).slots)
    (hfresh : (f (m.signals signal)).activeSince = none) : Rolled signal m m' := by
  refine ⟨?_, ?_, fun other ho => ?_⟩
  · have hupdate := m.slots_update signal f
    have hm := Inner.slots_congr hsignals
    omega
  · rw [hsignals, Inner.signals_update_self, hfresh]
  · rw [hsignals, Inner.signals_update_of_ne ho]

/-- **Closing a segment** keeps the count. -/
theorem wp_roll_counted (sender : SenderId) (signal : Signal) (h : Counted m s) :
    (roll sender signal).wp watched
      ⟨fun _ m' s' => Counted m' s' ∧ Rolled signal m m', Spoiled False, Gone⟩ m s := by
  simp only [roll, bind_eq, wp_bind, wp_load]
  split_ifs with hsince
  · exact ⟨h, rfl, Option.isNone_iff_eq_none.1 hsince, fun _ _ => rfl⟩
  have hstamped : Counted { m with stamped := m.stamped + 1 } s := ⟨h.1, h.2.counters rfl rfl⟩
  simp only [wp_bind, wp_store]
  refine wp_mono (wp_finish_counted signal hstamped) (fun bytes m' s' hfin => ?_)
    (fun _ _ _ he => he) fun _ hk => hk
  obtain ⟨hlapsed, rfl, hle⟩ := hfin
  refine wp_checkedSub (fun _ => ?_) fun hlt => absurd hle (Nat.not_le.2 hlt)
  simp only [wp_load]
  refine wp_mono (wp_createSegment_watched hlapsed) (fun _ m' s' hm => ?_) (fun e _ s' he => ?_)
    fun _ hk => hk
  · obtain ⟨rfl, hlapsed'⟩ := hm
    obtain ⟨since, hs⟩ := Option.ne_none_iff_exists'.1 (Option.isNone_iff_eq_none.not.1 hsince)
    have hle' : (m.signals signal).back.bytes ≤ bytes := hle
    set f : SignalQueue → SignalQueue := fun q =>
      { closed := q.closed ++ [{ q.back with bytes := bytes, stamp := m.stamped + 1 }]
        back := ⟨((m.signals signal).back.seq + 1) % u64Wrap, 0, 0⟩
        active := some ⟨((m.signals signal).back.seq + 1) % u64Wrap, 0, []⟩
        activeSince := none } with hf
    have hsignals : ∀ n, Inner.signals { Inner.update (Inner.update (Inner.update
        { m with stamped := m.stamped + 1 } signal fun q => { q with active := none }) signal
          fun q => { q with back := { q.back with bytes := bytes, stamp := m.stamped + 1 } })
          signal (fun q =>
            { closed := q.closed ++ [q.back]
              back := ⟨((m.signals signal).back.seq + 1) % u64Wrap, 0, 0⟩
              active := some ⟨((m.signals signal).back.seq + 1) % u64Wrap, 0, []⟩
              activeSince := none }) with
        stats := { m.stats with queuedBytes := n } } = (m.update signal f).signals := by
      intro n
      simp only [Inner.update, Function.update_self, Function.update_idem, hf]
    refine ⟨⟨hlapsed', h.2.change _ f ⟨fun _ => rfl, fun _ _ => Nat.zero_le _⟩
      (hsignals _) ?_⟩, rolled_of_signals (hsignals _) ?_ rfl⟩
    · simp only [SignalQueue.heldBytes_eq, hf, List.map_append, List.sum_append, List.map_cons,
        List.map_nil, List.sum_cons, List.sum_nil]
      show m.stats.queuedBytes + (bytes - (m.signals signal).back.bytes) + _ = _
      omega
    · simp [SignalQueue.slots, hf, hs]
  · obtain ⟨rfl, hl⟩ := he
    exact spoiled_io fun hn => by rw [hl] at hn; cases hn

/-- Closing one segment after the other leaves every slot there. -/
theorem wp_rollAll_counted (sender : SenderId) (h : Counted m s) :
    (each (roll sender) Signal.all).wp watched ⟨fun _ m' s' => Counted m' s' ∧
      m'.slots = m.slots ∧ ∀ signal, (m'.signals signal).activeSince = none,
      Spoiled False, Gone⟩ m s := by
  refine wp_each (fun _ todo m' s' => Counted m' s' ∧ m'.slots = m.slots ∧
    ∀ signal, signal ∉ todo → (m'.signals signal).activeSince = none)
    (fun signal todo _ m' s' hi => ?_) Signal.all []
    ⟨h, rfl, fun signal hs => absurd signal.mem_all hs⟩
    fun _ _ _ hc => ⟨hc.1, hc.2.1, fun signal => hc.2.2 signal List.not_mem_nil⟩
  obtain ⟨hcounted, hslots, hfresh⟩ := hi
  refine wp_mono (wp_roll_counted sender signal hcounted) (fun _ m'' s'' hr => ?_)
    (fun _ _ _ he => he) fun _ hk => hk
  refine ⟨hr.1, hr.2.slots.trans hslots, fun other ho => ?_⟩
  by_cases heq : other = signal
  · exact heq ▸ hr.2.fresh
  · rw [hr.2.others other heq]
    exact hfresh other (by simp [heq, ho])

theorem oldestSealed_isSome {other : Signal} (h : (m.signals other).closed ≠ []) :
    (oldestSealed m).isSome := by
  obtain ⟨front, hfront⟩ := Option.ne_none_iff_exists'.1 (List.head?_eq_none_iff.not.2 h)
  have hmem : (other, front) ∈ sealedFronts m :=
    List.mem_filterMap.2 ⟨other, other.mem_all, by rw [hfront]; rfl⟩
  unfold oldestSealed
  cases hs : sealedFronts m with
  | nil => rw [hs] at hmem; cases hmem
  | cons first rest => rfl

/-- When no open segment took anything, the segments there are to drop are closed. -/
theorem oldestSealed_of_slots (hslots : 0 < m.slots)
    (hfresh : ∀ signal, (m.signals signal).activeSince = none) : (oldestSealed m).isSome := by
  by_contra hnone
  have hzero : ∀ signal, (m.signals signal).slots = 0 := by
    intro signal
    have hclosed : (m.signals signal).closed = [] := by
      by_contra hc
      exact hnone (oldestSealed_isSome hc)
    simp [SignalQueue.slots, hclosed, hfresh signal]
  have hsum : m.slots = 0 := by
    simp only [Inner.slots, hzero]
    simp
  omega

/-- **Dropping a segment** keeps the count and leaves one less to drop. -/
theorem wp_dropSealed_counted (h : Counted m s) : dropSealed.wp watched
    ⟨fun _ m' s' => Counted m' s' ∧ ((oldestSealed m).isSome → m'.slots + 1 = m.slots),
      Spoiled False, Gone⟩ m s := by
  obtain ⟨disk, w⟩ := s
  obtain ⟨hlapsed, h⟩ := h
  simp only [dropSealed, bind_eq, wp_bind, wp_load]
  cases ho : oldestSealed m with
  | none => exact ⟨⟨hlapsed, h⟩, fun hs => by cases hs⟩
  | some oldest =>
    obtain ⟨signal, held⟩ := oldest
    have hclosed := closed_of_oldestSealed ho
    have hfront : (m.signals signal).heldBytes =
        held.bytes + ((m.signals signal).closed.tail.map (·.bytes)).sum +
          (m.signals signal).back.bytes := by
      rw [SignalQueue.heldBytes_eq, hclosed]
      simp [Nat.add_assoc]
    have hle : held.bytes ≤ m.stats.queuedBytes := by
      have htotal := m.heldBytes_le signal
      rw [h.exact]
      omega
    set f : SignalQueue → SignalQueue := fun q => { q with closed := q.closed.tail } with hf
    have hbytes : (f (m.signals signal)).heldBytes + held.bytes =
        (m.signals signal).heldBytes := by
      rw [hfront, SignalQueue.heldBytes_eq]
      simp only [hf]
      omega
    have hslot : (f (m.signals signal)).slots + 1 = (m.signals signal).slots := by
      simp only [SignalQueue.slots, hf]
      rw [hclosed, List.length_cons, List.tail_cons]
      omega
    simp only [wp_bind, wp_store, wp_load]
    -- A segment that was taken off and could not be unlinked stays counted.
    refine wp_mono (wp_act_seen (K := Gone) trivial (Q := fun m' s' => s'.2.lapsed = false ∧
      m' = m.update signal f) (fun _ _ => ?_) fun _ => spoiled_io fun hn => ?_) (fun _ m' s' hm => ?_) (fun _ _ _ he => he) fun _ hk => hk
    · exact ⟨by simp only [Lapses.see, failed, Bool.or_false]; exact hlapsed, rfl⟩
    · simp [Lapses.see, failed] at hn
    obtain ⟨hlapsed', rfl⟩ := hm
    refine wp_checkedSub (fun _ => ⟨⟨hlapsed', ?_⟩, fun _ => ?_⟩) fun hlt =>
      absurd hle (Nat.not_le.2 hlt)
    · refine h.change signal f
        ⟨(h.settled signal).fresh, (h.settled signal).written⟩ rfl ?_
      show m.stats.queuedBytes - held.bytes + _ = _
      omega
    · have hupdate := m.slots_update signal f
      refine (congrArg (· + 1) (@Inner.slots_congr (m.update signal f) _ rfl)).trans ?_
      show (m.update signal f).slots + 1 = m.slots
      omega

/-- **One round of the loop** drops a segment when there is one to drop. -/
theorem wp_dropOldest_counted (sender : SenderId) (h : Counted m s) (hslots : 0 < m.slots) :
    (dropOldest sender).wp watched
      ⟨fun _ m' s' => Counted m' s' ∧ m'.slots + 1 = m.slots, Spoiled False, Gone⟩ m s := by
  simp only [dropOldest, bind_eq, wp_bind, wp_load]
  split_ifs with hnone
  · refine wp_seq (wp_rollAll_counted sender h) fun _ m' s' hr => ?_
    obtain ⟨hcounted, hsame, hfresh⟩ := hr
    refine wp_mono (wp_dropSealed_counted hcounted) (fun _ m'' s'' hd => ⟨hd.1, ?_⟩)
      (fun _ _ _ he => he) fun _ hk => hk
    rw [hd.2 (oldestSealed_of_slots (by omega) hfresh), hsame]
  · refine wp_mono (wp_dropSealed_counted h) (fun _ m'' s'' hd => ⟨hd.1, hd.2 ?_⟩)
      (fun _ _ _ he => he) fun _ hk => hk
    rwa [Option.isNone_iff_eq_none, ← Option.isNone_iff_eq_none, Bool.not_eq_true,
      Option.isNone_eq_false_iff] at hnone

/-- **The loop ends**: it needs no more rounds than there are segments to drop. -/
theorem wp_makeRoom_counted {limits : QueueLimits} (sender : SenderId) {plainLen : ℕ}
    (hfits : plainLen ≤ limits.maxBytes) (fuel : ℕ) (h : Counted m s) :
    (makeRoom limits sender plainLen fuel).wp watched
      ⟨fun _ m' s' => Counted m' s', Spoiled (fuel < m.slots), Gone⟩ m s := by
  induction fuel generalizing m s with
  | zero =>
    simp only [makeRoom, bind_eq, wp_bind, wp_load]
    split_ifs with hfull
    · exact ⟨fun _ => h.2, by decide, fun _ => h.2.slots_pos (by omega)⟩
    · exact h
  | succ fuel ih =>
    simp only [makeRoom, bind_eq, wp_bind, wp_load]
    split_ifs with hfull
    · have hslots : 0 < m.slots := h.2.slots_pos (by omega)
      simp only [wp_bind]
      refine wp_mono (wp_dropOldest_counted sender h hslots) (fun _ m' s' hd => ?_)
        (fun _ _ _ he => he.mono False.elim) fun _ hk => hk
      exact wp_mono (ih hd.1) (fun _ _ _ hc => hc) (fun _ _ _ he => he.mono (by omega))
        fun _ hk => hk
    · exact h

theorem wp_countRecord_counted (signal : Signal) (plainLen now : ℕ) (h : Counted m s)
    (hactive : (m.signals signal).active.isSome) :
    (countRecord signal plainLen now).wp watched
      ⟨fun _ m' s' => Counted m' s', Spoiled False, Gone⟩ m s := by
  obtain ⟨writer, hwriter⟩ := Option.isSome_iff_exists.1 hactive
  have hle := (h.2.settled signal).written writer hwriter
  simp only [countRecord, bind_eq, wp_bind, wp_load, wp_store, Inner.signals_update_self, hwriter,
    Option.map_some, Option.getD_some]
  refine wp_checkedSub (fun _ => ⟨h.1, ?_⟩) fun hlt => absurd hle (Nat.not_le.2 hlt)
  refine h.2.change signal (fun q => { q with
    back := { q.back with bytes := writer.written }
    activeSince := some (q.activeSince.getD now) })
    { fresh := fun hs => by cases hs
      written := fun writer' hw => ?_ } ?_ ?_
  · rw [Option.some.inj (hwriter.symm.trans hw)]
  · simp only [Inner.update, Function.update_self, Function.update_idem]
  · simp only [SignalQueue.heldBytes_eq]
    show m.stats.queuedBytes + (writer.written - (m.signals signal).back.bytes) + _ = _
    omega

/-- **An append** keeps the count, and its loop ends. -/
theorem wp_writeRecord_counted (limits : QueueLimits) (sender : SenderId) (signal : Signal)
    (pieces : List (List UInt8)) (now fuel : ℕ) (h : Counted m s) :
    (writeRecord limits sender signal pieces now fuel).wp watched
      ⟨fun _ m' s' => Counted m' s', Spoiled (fuel < m.slots), Gone⟩ m s := by
  have hwrite : ∀ plainLen bytes m' s', Counted m' s' → (do
      writeAll signal (Bytes.leBytes recordHeaderBytes bytes)
      let _ ← each (writeAll signal) pieces
      countRecord signal plainLen now : Call Inner Unit).wp watched
        ⟨fun _ m' s' => Counted m' s', Spoiled (fuel < m.slots), Gone⟩ m' s' := by
    intro plainLen bytes m' s' hc
    refine wp_mono (wp_seq (wp_writeAll_counted signal _ hc) fun _ m' s' hw => wp_seq (wp_each
      (fun _ _ m s => Counted m s ∧ (m.signals signal).active.isSome)
      (fun piece _ _ m' s' hw => wp_writeAll_counted signal piece hw.1) pieces [] hw
      fun _ _ _ hc => hc) fun _ m' s' hw => wp_countRecord_counted signal plainLen now hw.1 hw.2)
      (fun _ _ _ hc => hc) (fun _ _ _ he => he.mono False.elim) fun _ hk => hk
  simp only [writeRecord]
  split_ifs with hlarge
  · exact ⟨fun _ => h.2, QueueError.noConfusion, QueueError.noConfusion⟩
  refine wp_seq (wp_makeRoom_counted sender (Nat.not_lt.1 hlarge) fuel h) fun _ m' s' hc => ?_
  simp only [bind_eq, wp_bind, wp_load]
  split_ifs
  · refine wp_seq (wp_mono (wp_roll_counted sender signal hc) (fun _ _ _ hr => hr.1)
      (fun _ _ _ he => he.mono False.elim) fun _ hk => hk) fun _ m' s' hc => ?_
    exact hwrite _ _ m' s' hc
  · exact hwrite _ _ m' s' hc

/-- What a commit takes off before it ends. -/
theorem wp_commitLoop_counted (signal : Signal) (acked active : ℕ) (closed : List Held)
    (hlapsed : s.2.lapsed = false) :
    (commitLoop signal acked active closed).wp watched
      ⟨fun freed m' s' => s'.2.lapsed = false ∧ (freed = 0 ∧ m' = m ∨ ∃ rest,
          m' = m.update signal (fun q => { q with closed := rest }) ∧
          freed + (rest.map (·.bytes)).sum = (closed.map (·.bytes)).sum),
        fun e _ s' => e = .io ∧ s'.2.lapsed = true, Gone⟩ m s := by
  induction closed generalizing m s with
  | nil => exact ⟨hlapsed, .inl ⟨rfl, rfl⟩⟩
  | cons front rest ih =>
    obtain ⟨disk, w⟩ := s
    simp only [commitLoop]
    split_ifs
    · exact ⟨hlapsed, .inl ⟨rfl, rfl⟩⟩
    simp only [bind_eq, wp_bind, wp_load, wp_store]
    refine wp_mono (wp_act_seen (K := Gone) trivial (Q := fun m' s' => s'.2.lapsed = false ∧
      m' = m.update signal fun q => { q with closed := rest }) (fun _ _ => ?_)
      fun _ => ⟨rfl, by simp [Lapses.see, failed]⟩) (fun _ m' s' hm => ?_) (fun _ _ _ he => he)
      fun _ hk => hk
    · exact ⟨by simp only [Lapses.see, failed, Bool.or_false]; exact hlapsed, rfl⟩
    obtain ⟨hlapsed', rfl⟩ := hm
    refine wp_mono (ih hlapsed') (fun freed m' s' hf => ⟨hf.1, .inr ?_⟩) (fun _ _ _ he => he)
      fun _ hk => hk
    rcases hf.2 with ⟨rfl, rfl⟩ | ⟨rest', rfl, hsum⟩
    · exact ⟨rest, rfl, by simp⟩
    · refine ⟨rest', ?_, ?_⟩
      · simp only [Inner.update, Function.update_self, Function.update_idem]
      · simp only [List.map_cons, List.sum_cons]
        omega

/-- **A commit** keeps the count. -/
theorem wp_commit_counted (signal : Signal) (acked : ℕ) (h : Counted m s) :
    (commit signal acked).wp watched
      ⟨fun _ m' s' => Counted m' s', Spoiled False, Gone⟩ m s := by
  simp only [commit, bind_eq, wp_bind, wp_load, wp_store]
  refine wp_mono (wp_commitLoop_counted signal acked _ _ h.1) (fun freed m' s' hf => ?_)
    (fun e _ _ he => ?_) fun _ hk => hk
  · obtain ⟨hlapsed, ⟨rfl, rfl⟩ | ⟨rest, rfl, hsum⟩⟩ := hf
    · exact wp_checkedSub (fun _ => ⟨hlapsed, h.2.counters rfl rfl⟩) fun hlt =>
        absurd hlt (Nat.not_lt_zero _)
    have htotal := m.heldBytes_le signal
    have hexact := h.2.exact
    rw [SignalQueue.heldBytes_eq] at htotal
    refine wp_checkedSub (fun _ => ⟨hlapsed, ?_⟩) fun hlt => ?_
    · refine h.2.change signal (fun q => { q with closed := rest })
        ⟨(h.2.settled signal).fresh, (h.2.settled signal).written⟩ rfl ?_
      simp only [SignalQueue.heldBytes_eq]
      show m.stats.queuedBytes - freed + _ = _
      omega
    · have hlt' : m.stats.queuedBytes < freed := hlt
      omega
  · obtain ⟨rfl, hl⟩ := he
    exact spoiled_io fun hn => by rw [hl] at hn; cases hn

/-- A call runs out of rounds only if it is an append with fewer than there are segments to
drop. -/
def Command.Short (m : Inner) : Command → Prop
  | append _ _ _ fuel => fuel < m.slots
  | _ => False

/-- **Every call** keeps the count until it lapses. -/
theorem wp_command_counted (limits : QueueLimits) (sender : SenderId) (command : Command)
    (h : Counted m s) : (command.program limits sender).wp watched
      ⟨fun _ m' s' => Counted m' s', Spoiled (command.Short m), Gone⟩ m s := by
  have hroll : ∀ signal m s, Counted m s → (roll sender signal).wp watched
      ⟨fun _ m' s' => Counted m' s', Spoiled False, Gone⟩ m s := fun signal m s hc =>
    wp_mono (wp_roll_counted sender signal hc) (fun _ _ _ hr => hr.1) (fun _ _ _ he => he)
      fun _ hk => hk
  cases command with
  | append signal pieces now fuel => exact wp_writeRecord_counted _ _ _ _ _ _ h
  | sealIfDue due =>
    refine wp_seq (wp_each (fun _ _ m s => Counted m s) (fun signal _ _ m s hc => ?_) _ [] h
      fun _ _ _ hc => hc) fun _ _ _ hc => hc
    split_ifs
    · exact hroll signal m s hc
    · exact hc
  | sealAll =>
    exact wp_seq (wp_each (fun _ _ m s => Counted m s) (fun signal _ _ m s hc => hroll signal m s hc)
      _ [] h fun _ _ _ hc => hc) fun _ _ _ hc => hc
  | dropOldest =>
    simp only [Command.program, Queue.dropOldest, bind_eq, wp_bind, wp_load]
    have hdrop : ∀ m s, Counted m s → dropSealed.wp watched
        ⟨fun _ m' s' => Counted m' s', Spoiled False, Gone⟩ m s := fun m s hc =>
      wp_mono (wp_dropSealed_counted hc) (fun _ _ _ hd => hd.1) (fun _ _ _ he => he) fun _ hk => hk
    split_ifs
    · exact wp_seq (wp_mono (wp_rollAll_counted sender h) (fun _ _ _ hr => hr.1)
        (fun _ _ _ he => he) fun _ hk => hk) fun _ m s hc => hdrop m s hc
    · exact hdrop m s h
  | commit signal acked => exact wp_commit_counted signal acked h

/-! ### Runs -/

theorem sum_heldOf (stamped : List (Signal × Held)) :
    (Signal.all.map fun signal => ((heldOf signal stamped).map (·.bytes)).sum).sum =
      (stamped.map (·.2.bytes)).sum := by
  induction stamped with
  | nil => rfl
  | cons x xs ih =>
    obtain ⟨signal, held⟩ := x
    simp only [heldOf, Signal.all, List.map_cons, List.map_nil, List.sum_cons, List.sum_nil,
      List.filter_cons] at ih ⊢
    rw [← ih]
    cases signal <;> simp <;> omega

theorem bytes_stampFiles (files : List (Signal × Listed)) :
    (stampFiles files).map (·.2.bytes) = files.map (·.2.bytes) := by
  have hbytes : ((·.2.bytes) : Signal × Held → ℕ) ∘ (fun (x : (Signal × Listed) × ℕ) =>
      (x.1.1, (⟨x.1.2.seq, x.1.2.bytes, x.2 + 1⟩ : Held))) =
      ((·.2.bytes) : Signal × Listed → ℕ) ∘ Prod.fst := rfl
  show ((files.zipIdx.map fun x => (x.1.1, (⟨x.1.2.seq, x.1.2.bytes, x.2 + 1⟩ : Held))).map _) = _
  rw [List.map_map, hbytes, ← List.map_map, List.zipIdx_map_fst]

/-- **An opened queue** counts what it found. -/
theorem tallied_openedInner (recovered : List Recovered) : (openedInner recovered).Tallied := by
  refine ⟨?_, fun signal => ⟨fun _ => rfl, fun _ _ => Nat.zero_le _⟩⟩
  have hperm := (List.perm_insertionSort (fun a b => sortKey a ≤ sortKey b)
    (recovered.flatMap fun r => r.files.map fun file => (r.signal, file))).map (·.2.bytes)
  have hheld : (openedInner recovered).heldBytes =
      ((stampFiles (arrivalOrder recovered)).map (·.2.bytes)).sum := by
    rw [← sum_heldOf]
    simp only [Inner.heldBytes, SignalQueue.heldBytes_eq, openedInner, Nat.add_zero]
  rw [hheld, bytes_stampFiles, arrivalOrder, hperm.sum_eq]
  simp only [openedInner, List.map_flatMap, List.map_map, Function.comp_def]

/-- A call lapses when a segment it has taken off cannot be unlinked, or one it has closed cannot
be followed by the next; other steps do not. -/
def Kept (limits : QueueLimits) (s : State) (e : Event) (_ : State) : Prop :=
  match e, s.queue with
  | .call command fates, some (sender, inner) =>
    ((command.program limits sender).seen files Lapses.see fates inner s.disk
      Lapses.none).lapsed = false
  | _, _ => True

instance (limits : QueueLimits) (s : State) (e : Event) (s' : State) :
    Decidable (Kept limits s e s') := by
  unfold Kept
  split <;> infer_instance

/-- The counter of the open queue is right. -/
def State.Tallied (s : State) : Prop :=
  ∀ sender inner, s.queue = some (sender, inner) → inner.Tallied

theorem exists_openedInner {zstd : Zstd} {fresh : SenderId} {fates : List Fate}
    (hq : (afterOpen ((openQueue zstd fresh).exec files fates () disk)).queue =
      some (sender, inner)) : ∃ recovered, inner = openedInner recovered := by
  have hopened := exec_of_wp_restrict
    (wp_openQueue_recovered (A := fun _ => True) zstd fresh disk) fates fun _ _ => trivial
  unfold Outcome.Meets at hopened
  unfold afterOpen at hq
  cases ho : ((openQueue zstd fresh).exec files fates () disk).ending with
  | done opened =>
    rw [ho] at hq hopened
    obtain ⟨recovered, -, hinner⟩ := hopened
    cases Option.some.inj hq
    exact ⟨recovered, hinner⟩
  | failed e => rw [ho] at hq; cases hq
  | crashed => rw [ho] at hq; cases hq

theorem tallied_step (zstd : Zstd) (limits : QueueLimits) {s s' : State} {e : Event}
    (h : s.Tallied) (hstep : (queueMachine zstd limits).step s e = some s')
    (hkept : Kept limits s e s') : s'.Tallied := by
  obtain ⟨disk, queue⟩ := s
  intro sender inner hq
  cases e with
  | openQueue fresh fates =>
    cases queue with
    | some q => simp [queueMachine] at hstep
    | none =>
      simp only [queueMachine, Option.some.injEq] at hstep
      subst hstep
      obtain ⟨recovered, rfl⟩ := exists_openedInner hq
      exact tallied_openedInner recovered
  | call command fates =>
    cases queue with
    | none => simp [queueMachine] at hstep
    | some q =>
      obtain ⟨sender', inner'⟩ := q
      simp only [queueMachine, Option.some.injEq] at hstep
      subst hstep
      have hcounted := exec_of_wp_watch (wp_command_counted limits sender' command
        (s := (disk, Lapses.none)) ⟨rfl, h sender' inner' rfl⟩) fates
      unfold Outcome.Meets at hcounted
      unfold afterCall at hq
      cases ho : ((command.program limits sender').exec files fates inner' disk).ending with
      | done _ =>
        rw [ho] at hq hcounted
        cases Option.some.inj hq
        exact hcounted.2
      | failed e =>
        rw [ho] at hq hcounted
        cases Option.some.inj hq
        exact hcounted.1 hkept
      | crashed => rw [ho] at hq; cases hq
  | crash =>
    simp only [queueMachine, Option.some.injEq] at hstep
    subst hstep
    cases hq

/-- **The counter is right until a call lapses**: `queuedBytes` is the size of the segments held,
no call takes more off it than it counts, and an append that is given as many rounds as there
are segments to drop ends. -/
theorem queuedBytes_exact (zstd : Zstd) (limits : QueueLimits) {disk : Disk} {es : List Event}
    {t : State} (hrun : (queueMachine zstd limits).run ⟨disk, none⟩ es = some t)
    (hkept : (queueMachine zstd limits).Within (Kept limits) ⟨disk, none⟩ es)
    {sender : SenderId} {inner : Inner} (hq : t.queue = some (sender, inner)) :
    inner.stats.queuedBytes = inner.heldBytes ∧
      (∀ (command : Command) fates, ((command.program limits sender).exec files fates inner t.disk).ending ≠
        .failed .overflow) ∧
      ∀ signal pieces now fuel fates, inner.slots ≤ fuel →
        ((writeRecord limits sender signal pieces now fuel).exec files fates inner t.disk).ending ≠
          .failed .unfinished := by
  have htallied : inner.Tallied := run_invariant_within (P := State.Tallied)
    (fun _ _ _ h hstep hk => tallied_step zstd limits h hstep hk) (fun _ _ hn => by cases hn)
    hkept hrun sender inner hq
  have hspoiled : ∀ (command : Command) fates e,
      ((command.program limits sender).exec files fates inner t.disk).ending = .failed e →
      e ≠ .overflow ∧ (e = .unfinished → command.Short inner) := by
    intro command fates e he
    have hmeets := exec_of_wp_watch (wp_command_counted limits sender command
      (s := (t.disk, Lapses.none)) ⟨rfl, htallied⟩) fates
    unfold Outcome.Meets at hmeets
    rw [he] at hmeets
    exact hmeets.2
  refine ⟨htallied.exact, fun command fates he => (hspoiled command fates _ he).1 rfl,
    fun signal pieces now fuel fates hfuel he => ?_⟩
  exact Nat.not_lt.2 hfuel ((hspoiled (.append signal pieces now fuel) fates _ he).2 rfl)

/-- A record is appended, its segment closed and dropped again. -/
def countedEvents : List Event :=
  [sampleOpen,
    .call (.append .logs [List.replicate 40 7] 5 0) (List.replicate 2 (Fate.fine 5
      (List.replicate 30 0))),
    .call .sealAll (List.replicate 5 (Fate.fine 6 [])),
    .call .dropOldest [Fate.fine 7 []]]

theorem queuedBytes_exact_sample : ∃ t sender inner,
    (queueMachine sampleZstd ⟨100, 50⟩).run State.empty countedEvents = some t ∧
      t.queue = some (sender, inner) ∧ inner.stats.droppedBytes = 60 ∧
      inner.stats.queuedBytes = inner.heldBytes := by
  have hrun : (((queueMachine sampleZstd ⟨100, 50⟩).run State.empty countedEvents).bind
      (·.queue)).map (fun q => q.2.stats.droppedBytes) = some 60 := by decide +kernel
  obtain ⟨⟨sender, inner⟩, hq, hdropped⟩ := Option.map_eq_some_iff.1 hrun
  obtain ⟨t, ht, hq⟩ := Option.bind_eq_some_iff.1 hq
  exact ⟨t, sender, inner, ht, hq, hdropped,
    (queuedBytes_exact sampleZstd ⟨100, 50⟩ ht (by decide +kernel) hq).1⟩

/-! ### A segment that cannot be unlinked -/

/-- Where there is nothing to drop and the queue counts itself full, the loop never ends. -/
theorem wp_makeRoom_stuck {limits : QueueLimits} {plainLen : ℕ} (fuel : ℕ)
    (hfull : limits.maxBytes < inner.stats.queuedBytes + plainLen)
    (hnone : oldestSealed inner = none)
    (hfresh : ∀ signal, (inner.signals signal).activeSince = none) :
    (makeRoom limits sender plainLen fuel).wp files
      ⟨fun _ _ _ => False, fun e _ _ => e = .unfinished, fun _ => False⟩ inner disk := by
  induction fuel with
  | zero => simp [makeRoom, hfull]
  | succ fuel ih =>
    simp [makeRoom, hfull, dropOldest, hnone, each, Signal.all, roll, hfresh, dropSealed, ih]

/-- The unlink of the dropped segment fails. -/
def stuckEvents : List Event :=
  countedEvents.dropLast ++ [.call .dropOldest [{ Fate.fine 7 [] with fails := true }]]

/-- **An append that never ends**: the queue is empty and counts sixty bytes, so that a record
that would fit waits for room that no round of the loop can make. -/
theorem append_never_ends : ∃ t sender inner,
    (queueMachine sampleZstd ⟨100, 50⟩).run State.empty stuckEvents = some t ∧
      t.queue = some (sender, inner) ∧ inner.stats.queuedBytes ≠ inner.heldBytes ∧
      ∀ now fuel fates, ((writeRecord ⟨100, 50⟩ sender .logs [List.replicate 40 7] now fuel).exec
        files fates inner t.disk).ending = .failed .unfinished := by
  have hrun : (((queueMachine sampleZstd ⟨100, 50⟩).run State.empty stuckEvents).bind
      (·.queue)).map (fun q => (q.2.stats.queuedBytes, q.2.heldBytes, (oldestSealed q.2).isNone,
        Signal.all.map fun signal => (q.2.signals signal).activeSince)) =
      some (60, 0, true, [none, none, none]) := by decide +kernel
  obtain ⟨⟨sender, inner⟩, hq, hsees⟩ := Option.map_eq_some_iff.1 hrun
  obtain ⟨t, ht, hq⟩ := Option.bind_eq_some_iff.1 hq
  simp only [Prod.mk.injEq, Signal.all, List.map_cons, List.map_nil, List.cons.injEq] at hsees
  obtain ⟨hqueued, hheld, hnone, hlogs, htraces, hmetrics, -⟩ := hsees
  refine ⟨t, sender, inner, ht, hq, by omega, fun now fuel fates => ?_⟩
  have hstuck : (writeRecord ⟨100, 50⟩ sender .logs [List.replicate 40 7] now fuel).wp files
      ⟨fun _ _ _ => False, fun e _ _ => e = .unfinished, fun _ => False⟩ inner t.disk :=
    wp_seq (wp_makeRoom_stuck fuel (by simp only [hqueued]; decide)
      (Option.isNone_iff_eq_none.1 hnone) fun signal => by
      cases signal <;> assumption) fun _ _ _ h => absurd h id
  have hmeets := exec_of_wp hstuck fates
  unfold Outcome.Meets at hmeets
  cases he : ((writeRecord ⟨100, 50⟩ sender .logs [List.replicate 40 7] now fuel).exec files fates
    inner t.disk).ending with
  | done a => rw [he] at hmeets; exact absurd hmeets id
  | failed e => rw [he] at hmeets; rw [show e = .unfinished from hmeets]
  | crashed => rw [he] at hmeets; exact absurd hmeets id

end Queue

end Obsy
