import Obsy.Queue.Numbering

/-!
# The order of the segments in memory

The queue takes segments from the front of a signal's list, as if the numbers there grew.

* `Inner.Ordered`: they do.  Every call keeps it, unless a signal's numbers start over
  (`ordered_primitives`).
* `wp_commit_unlinks`: a commit on an ordered queue unlinks exactly the closed segments it covers.
* `wp_append_fits`: an append that has room unlinks nothing.
-/

namespace Obsy

namespace Queue

open Machine Machine.Program

open Journal (SenderId)

/-- A signal's segments are held in the order of their numbers. -/
def SignalQueue.Ordered (q : SignalQueue) : Prop := q.segments.Pairwise (·.seq < ·.seq)

/-- Every signal's segments are held in the order of their numbers. -/
def Inner.Ordered (inner : Inner) : Prop := ∀ signal, (inner.signals signal).Ordered

/-- Among the segments created after the first `since` there is one numbered zero. -/
def Disk.Restarted (since : ℕ) (disk : Disk) : Prop := ∃ c ∈ disk.created.drop since, c.seq = 0

instance (since : ℕ) (disk : Disk) : Decidable (disk.Restarted since) :=
  inferInstanceAs (Decidable (∃ c ∈ disk.created.drop since, c.seq = 0))

/-- The segment was there and is not any more. -/
def Unlinked (disk disk' : Disk) (signal : Signal) (seq : ℕ) : Prop :=
  seq ∈ (disk.dirs signal).seqs ∧ seq ∉ (disk'.dirs signal).seqs

/-- The segments are in order and none of a signal is below its floor. -/
structure Inner.OrderedAbove (floor : Signal → ℕ) (inner : Inner) : Prop where
  ordered : inner.Ordered
  above : ∀ signal, ∀ held ∈ (inner.signals signal).segments, floor signal ≤ held.seq
  small : ∀ signal, (inner.signals signal).back.seq < u64Wrap

/-- The invariant of the order, until a signal's numbers start over. -/
def InOrder (since : ℕ) (floor : Signal → ℕ) (inner : Inner) (disk : Disk) : Prop :=
  since ≤ disk.created.length ∧ (disk.Restarted since ∨ inner.OrderedAbove floor)

variable {since : ℕ} {floor : Signal → ℕ} {inner inner' : Inner} {disk disk' : Disk}
  {signal : Signal} {sender : SenderId} {α : Type}

/-- Whatever happens, the record of what was created is only added to. -/
theorem effect_created_append {time : ℕ} {emitted : List UInt8} {op : FileOp}
    (h : effect time emitted disk op = some disk') :
    ∃ cs, disk'.created = disk.created ++ cs := by
  cases op with
  | createSegment sender signal seq => cases h; exact ⟨_, rfl⟩
  | renameTemporary signal seq =>
    simp only [effect] at h
    split at h
    · cases h; exact ⟨[], (List.append_nil _).symm⟩
    · cases h
  | remove why signal seq =>
    simp only [effect] at h
    split at h
    · cases h; exact ⟨[], (List.append_nil _).symm⟩
    · cases h
  | createDir | sweepIdentity | sweepTemporaries _ | loadIdentity | writeIdentity _
  | renameIdentity | sync | list _ | read _ _ | encode _ _ _ | writeTemporary _ _ _ =>
    exact ⟨[], by rw [(effect_quiet (by trivial) h).created, List.append_nil]⟩

theorem InOrder.created {cs : List Creation} (h : InOrder since floor inner disk)
    (hcs : disk'.created = disk.created ++ cs) : InOrder since floor inner disk' := by
  refine ⟨?_, h.2.imp_left fun ⟨c, hc, h0⟩ => ⟨c, ?_, h0⟩⟩
  · rw [hcs, List.length_append]
    exact h.1.trans (Nat.le_add_right _ _)
  · rw [hcs, List.drop_append_of_le_length h.1]
    exact List.mem_append_left _ hc

/-- The memory may forget closed segments and change all but the numbers. -/
theorem InOrder.memory (h : InOrder since floor inner disk)
    (hm : ∀ signal, ((inner'.signals signal).closed.map (·.seq)).Sublist
        ((inner.signals signal).closed.map (·.seq)) ∧
      (inner'.signals signal).back.seq = (inner.signals signal).back.seq) :
    InOrder since floor inner' disk := by
  have hseqs : ∀ q : SignalQueue, q.segments.map (·.seq) = q.closed.map (·.seq) ++ [q.back.seq] :=
    fun q => by rw [SignalQueue.segments, List.map_append]; rfl
  have hsub : ∀ signal, ((inner'.signals signal).segments.map (·.seq)).Sublist
      ((inner.signals signal).segments.map (·.seq)) := by
    intro signal
    rw [hseqs, hseqs, (hm signal).2]
    exact (hm signal).1.append (List.Sublist.refl _)
  refine ⟨h.1, h.2.imp_right fun ho => ⟨fun signal => ?_, fun signal held hh => ?_,
    fun signal => ?_⟩⟩
  · have hpairwise := List.pairwise_map.2 (ho.ordered signal)
    exact List.pairwise_map.1 (hpairwise.sublist (hsub signal))
  · obtain ⟨held', hh', hseq⟩ := List.mem_map.1 ((hsub signal).subset (List.mem_map_of_mem hh))
    exact hseq ▸ ho.above signal held' hh'
  · rw [(hm signal).2]
    exact ho.small signal

theorem InOrder.update (h : InOrder since floor inner disk) {f : SignalQueue → SignalQueue}
    (hclosed : ((f (inner.signals signal)).closed.map (·.seq)).Sublist
      ((inner.signals signal).closed.map (·.seq)))
    (hback : (f (inner.signals signal)).back.seq = (inner.signals signal).back.seq) :
    InOrder since floor (inner.update signal f) disk := by
  refine h.memory fun other => ?_
  by_cases ho : other = signal
  · subst ho
    simp only [Inner.update, Function.update_self]
    exact ⟨hclosed, hback⟩
  · simp only [Inner.update, Function.update_of_ne ho]
    exact ⟨List.Sublist.refl _, trivial⟩

theorem InOrder.counters (h : InOrder since floor inner disk)
    (hs : inner'.signals = inner.signals) : InOrder since floor inner' disk :=
  h.memory fun signal => by rw [hs]; exact ⟨List.Sublist.refl _, rfl⟩

/-- A property that more created segments keep. -/
def Growing (P : Inner → Disk → Prop) : Prop :=
  ∀ m disk disk' cs, disk'.created = disk.created ++ cs → P m disk → P m disk'

theorem growing_inOrder (inner : Inner) :
    Growing fun m s => m = inner ∧ InOrder since floor inner s :=
  fun _ _ _ _ hcs h => ⟨h.1, h.2.created hcs⟩

theorem preserves_ask {P : Inner → Disk → Prop} (hP : Growing P) (op : FileOp) :
    Preserves files P (fun _ => True) (ask op : Call Inner op.Res) := by
  intro m s h
  refine ⟨trivial, fun fate => ?_⟩
  have hafter : P m (files.apply fate s op).2 := by
    rcases files_apply_device fate s op with hs | hs
    · rw [hs]; exact h
    · obtain ⟨cs, hcs⟩ := effect_created_append hs
      exact hP m s _ cs hcs h
  cases (files.apply fate s op).1 <;> exact hafter

theorem preserves_act {P : Inner → Disk → Prop} (hP : Growing P) (op : FileOp) :
    Preserves files P (fun _ => True) (act op : Call Inner Unit) :=
  (preserves_ask hP op).bind fun _ => preserves_ret ()

/-- An operation in the middle of a call. -/
theorem wp_ask_inOrder {op : FileOp} (h : InOrder since floor inner disk) :
    (ask op : Call Inner op.Res).wp files
      ⟨fun _ m s => m = inner ∧ InOrder since floor inner s,
        fun _ m s => InOrder since floor m s, fun _ => True⟩ inner disk :=
  wp_mono (preserves_ask (growing_inOrder inner) op inner disk ⟨rfl, h⟩) (fun _ _ _ h => h)
    (fun _ _ _ h => h.1 ▸ h.2) fun _ h => h

theorem wp_act_inOrder {op : FileOp} (h : InOrder since floor inner disk) :
    (act op : Call Inner Unit).wp files
      ⟨fun _ m s => m = inner ∧ InOrder since floor inner s,
        fun _ m s => InOrder since floor m s, fun _ => True⟩ inner disk :=
  wp_act (wp_ask_inOrder h)

theorem ordered_writeAll (signal : Signal) (plain : List UInt8) :
    Preserves files (InOrder since floor) (fun _ => True) (writeAll signal plain) := by
  intro inner disk h
  simp only [writeAll, bind_eq, wp_bind, wp_load]
  cases (inner.signals signal).active with
  | none => exact h
  | some writer =>
    refine wp_seq (wp_ask_inOrder h) fun encoded m s hs => ?_
    obtain ⟨rfl, hs⟩ := hs
    simp only [wp_bind, wp_store]
    split_ifs <;> exact hs.update (List.Sublist.refl _) rfl

theorem ordered_countRecord (signal : Signal) (plainLen now : ℕ) :
    Preserves files (InOrder since floor) (fun _ => True) (countRecord signal plainLen now) := by
  intro inner disk h
  have haged : InOrder since floor (inner.update signal fun q => { q with
      activeSince := some (q.activeSince.getD now) }) disk := h.update (List.Sublist.refl _) rfl
  have hcounted : ∀ written, InOrder since floor (Inner.update (inner.update signal fun q =>
      { q with activeSince := some (q.activeSince.getD now) }) signal fun q => { q with
        back := { q.back with bytes := written } }) disk :=
    fun _ => haged.update (List.Sublist.refl _) rfl
  simp only [countRecord, bind_eq, wp_bind, wp_load, wp_store]
  exact wp_checkedSub (fun _ => (hcounted _).counters rfl) fun _ => haged

theorem wp_finish_inOrder (signal : Signal) (h : InOrder since floor inner disk) :
    (finish signal).wp files ⟨fun _ m s => m = inner.update signal (fun q => { q with active := none }) ∧
        InOrder since floor m s,
      fun _ m s => InOrder since floor m s, fun _ => True⟩ inner disk := by
  simp only [finish, bind_eq, wp_bind, wp_load]
  cases (inner.signals signal).active with
  | none => exact h
  | some writer =>
    have hclosed : InOrder since floor
        (inner.update signal fun q => { q with active := none }) disk :=
      h.update (List.Sublist.refl _) rfl
    simp only [wp_bind, wp_store]
    refine wp_mono (wp_ask_inOrder hclosed) (fun encoded m s hs => ?_) (fun _ _ _ h => h)
      fun _ h => h
    obtain ⟨rfl, hs⟩ := hs
    split_ifs
    · refine wp_seq (wp_act_inOrder hs) fun _ m s hs => ?_
      obtain ⟨rfl, hs⟩ := hs
      exact ⟨rfl, hs⟩
    · exact hs

/-- The next segment was created. -/
def Next (since : ℕ) (floor : Signal → ℕ) (inner : Inner) (next : ℕ) (m : Inner) (disk : Disk) :
    Prop :=
  m = inner ∧ InOrder since floor inner disk ∧ ∃ c ∈ disk.created.drop since, c.seq = next

theorem growing_next (inner : Inner) (next : ℕ) : Growing (Next since floor inner next) := by
  rintro m disk disk' cs hcs ⟨rfl, hin, c, hc, hseq⟩
  refine ⟨rfl, hin.created hcs, c, ?_, hseq⟩
  rw [hcs, List.drop_append_of_le_length hin.1]
  exact List.mem_append_left _ hc

theorem wp_createSegment_inOrder {next : ℕ} (h : InOrder since floor inner disk) :
    (createSegment sender signal next).wp files
      ⟨fun _ m s => Next since floor inner next m s,
        fun _ m s => InOrder since floor m s, fun _ => True⟩ inner disk := by
  have hsync : ∀ {m : Inner} {s : Disk}, Next since floor inner next m s →
      (act .sync : Call Inner Unit).wp files
        ⟨fun _ m s => Next since floor inner next m s, fun _ m s => InOrder since floor m s,
          fun _ => True⟩ m s :=
    fun hn => wp_mono (preserves_act (growing_next inner next) .sync _ _ hn) (fun _ _ _ h => h)
      (fun _ _ _ h => h.1 ▸ h.2.1) fun _ h => h
  simp only [createSegment, bind_eq]
  refine wp_seq (R := fun _ m s => Next since floor inner next m s)
    (wp_act (wp_ask (fun _ => rfl) trivial (fun _ => h) fun time emitted disk' heff => ?_))
    fun _ m s hn => wp_seq (hsync hn) fun _ m s hn => hsync hn
  cases heff
  have hcreated : InOrder since floor inner { disk.update signal
    fun dir => dir.put ⟨next, [], time⟩ with
      created := disk.created ++ [⟨sender, signal, next⟩]
      gap := Function.update disk.gap signal false } := h.created rfl
  refine ⟨fun _ _ _ => ⟨rfl, hcreated, ⟨sender, signal, next⟩, ?_, rfl⟩, fun _ => hcreated⟩
  rw [List.drop_append_of_le_length h.1]
  exact List.mem_append_right _ (List.mem_singleton.2 rfl)

/-- A counter that does not start over grows. -/
theorem succ_mod_eq {n : ℕ} (hn : n < u64Wrap) (h : (n + 1) % u64Wrap ≠ 0) :
    (n + 1) % u64Wrap = n + 1 := by
  rcases Nat.lt_or_ge (n + 1) u64Wrap with hlt | hge
  · exact Nat.mod_eq_of_lt hlt
  · rw [le_antisymm hn hge, Nat.mod_self] at h
    exact absurd rfl h

/-- A larger number goes to the back. -/
theorem Inner.OrderedAbove.push {m : Inner} (signal : Signal) (held next : Held)
    (h : inner.OrderedAbove floor) (hback : (inner.signals signal).back.seq = held.seq)
    (hnext : held.seq < next.seq) (hsmall : next.seq < u64Wrap) (hs : ∀ other, other ≠ signal →
      m.signals other = inner.signals other)
    (hclosed : (m.signals signal).closed = (inner.signals signal).closed ++ [held])
    (hm : (m.signals signal).back = next) : m.OrderedAbove floor := by
  have hsegments : (m.signals signal).segments =
      (inner.signals signal).closed ++ [held] ++ [next] := by
    rw [SignalQueue.segments, hclosed, hm]
  have hordered := h.ordered signal
  have habove := h.above signal
  unfold SignalQueue.Ordered SignalQueue.segments at hordered
  unfold SignalQueue.segments at habove
  obtain ⟨hbefore, -, hlt⟩ := List.pairwise_append.1 hordered
  have hlt' : ∀ a ∈ (inner.signals signal).closed, a.seq < held.seq := fun a ha =>
    hback ▸ hlt a ha _ (List.mem_singleton.2 rfl)
  have hfloor : floor signal ≤ held.seq :=
    hback ▸ habove _ (List.mem_append_right _ (List.mem_singleton.2 rfl))
  refine ⟨fun other => ?_, fun other x hx => ?_, fun other => ?_⟩
  · by_cases ho : other = signal
    · subst ho
      unfold SignalQueue.Ordered
      rw [hsegments, List.append_assoc, List.pairwise_append]
      refine ⟨hbefore, by simpa using hnext, fun a ha b hb => ?_⟩
      have ha := hlt' a ha
      rcases List.mem_cons.1 hb with rfl | hb
      · exact ha
      · cases List.mem_singleton.1 hb
        exact ha.trans hnext
    · rw [hs other ho]; exact h.ordered other
  · by_cases ho : other = signal
    · subst ho
      rw [hsegments, List.mem_append, List.mem_append, List.mem_singleton, List.mem_singleton] at hx
      rcases hx with (hx | rfl) | rfl
      · exact habove x (List.mem_append_left _ hx)
      · exact hfloor
      · exact hfloor.trans hnext.le
    · rw [hs other ho] at hx; exact h.above other x hx
  · by_cases ho : other = signal
    · subst ho; rw [hm]; exact hsmall
    · rw [hs other ho]; exact h.small other

theorem ordered_roll (sender : SenderId) (signal : Signal) :
    Preserves files (InOrder since floor) (fun _ => True) (roll sender signal) := by
  intro inner disk h
  simp only [roll, bind_eq, wp_bind, wp_load]
  split_ifs
  · exact h
  have hstamped : InOrder since floor { inner with stamped := inner.stamped + 1 } disk :=
    h.counters rfl
  simp only [wp_bind, wp_store]
  refine wp_mono (wp_finish_inOrder signal hstamped) (fun bytes m s hfin => ?_)
    (fun _ _ _ h => h) fun _ h => h
  obtain ⟨rfl, hfin⟩ := hfin
  refine wp_checkedSub (fun _ => ?_) fun _ => hfin
  simp only [wp_load]
  set m : Inner := Inner.update (Inner.update { inner with stamped := inner.stamped + 1 } signal
    fun q => { q with active := none }) signal fun q => { q with
      back := { q.back with bytes := bytes, stamp := inner.stamped + 1 } } with hm
  have hin : InOrder since floor m s := hfin.update (List.Sublist.refl _) rfl
  refine wp_mono (wp_createSegment_inOrder hin) (fun _ m' s hnext => ?_) (fun _ _ _ h => h)
    fun _ h => h
  obtain ⟨rfl, hin, c, hc, hseq⟩ := hnext
  have hback : (m.signals signal).back.seq = (inner.signals signal).back.seq := by
    simp [hm, Inner.update]
  refine ⟨hin.1, ?_⟩
  rcases hin.2 with hrestart | ho
  · exact .inl hrestart
  -- A number that wraps is zero, so the numbers start over; any other is above all before it.
  by_cases hzero : ((inner.signals signal).back.seq + 1) % u64Wrap = 0
  · exact .inl ⟨c, hc, hseq.trans hzero⟩
  have hsmall := ho.small signal
  rw [hback] at hsmall
  have hnext := succ_mod_eq hsmall hzero
  refine .inr (ho.push signal (m.signals signal).back
    ⟨((inner.signals signal).back.seq + 1) % u64Wrap, 0, 0⟩ rfl ?_ ?_ ?_ ?_ ?_)
  · rw [hback, hnext]
    exact Nat.lt_succ_self _
  · exact Nat.mod_lt _ (by decide)
  · intro other hother
    simp only [Inner.update, Function.update_of_ne hother]
  · simp only [Inner.update, Function.update_self]
  · simp only [Inner.update, Function.update_self]

theorem ordered_dropSealed :
    Preserves files (InOrder since floor) (fun _ => True) dropSealed := by
  intro inner disk h
  simp only [dropSealed, bind_eq, wp_bind, wp_load]
  cases oldestSealed inner with
  | none => exact h
  | some oldest =>
    obtain ⟨signal, held⟩ := oldest
    have hpop : InOrder since floor
        (inner.update signal fun q => { q with closed := q.closed.tail }) disk :=
      h.update ((List.tail_sublist _).map _) rfl
    simp only [wp_bind, wp_store, wp_load]
    refine wp_mono (wp_act_inOrder hpop) (fun _ m s hm => ?_) (fun _ _ _ h => h) fun _ h => h
    have hin : InOrder since floor m s := hm.1 ▸ hm.2
    exact wp_checkedSub (fun _ => hin.counters rfl) fun _ => hin

/-! ### Commits -/

/-- What a commit unlinks: some of a signal's closed segments, and no other. -/
def UnlinksOnly (signal : Signal) (taken : List Held) (disk disk' : Disk) : Prop :=
  (∀ other x, x ∈ (disk'.dirs other).seqs → x ∈ (disk.dirs other).seqs) ∧
    ∀ other x, Unlinked disk disk' other x → other = signal ∧ ∃ held ∈ taken, held.seq = x

/-- What a commit that returns unlinks: all of `taken`. -/
def UnlinksAll (signal : Signal) (taken : List Held) (disk disk' : Disk) : Prop :=
  UnlinksOnly signal taken disk disk' ∧ ∀ held ∈ taken, Unlinked disk disk' signal held.seq

theorem unlinksOnly_nil (signal : Signal) (taken : List Held) (disk : Disk) :
    UnlinksOnly signal taken disk disk :=
  ⟨fun _ _ hx => hx, fun _ _ hx => absurd hx.1 hx.2⟩

theorem Disk.Unlinks.mem_iff {seq : ℕ} (h : disk.Unlinks disk' signal seq) (other : Signal)
    (x : ℕ) : x ∈ (disk'.dirs other).seqs ↔
      x ∈ (disk.dirs other).seqs ∧ ¬ (other = signal ∧ x = seq) := by
  by_cases ho : other = signal
  · subst ho
    rw [h.seqs]
    simp
  · rw [(h.others other ho).seqs]
    simp [ho]

/-- One more segment is unlinked first. -/
theorem UnlinksOnly.cons {front : Held} {taken : List Held} {disk'' : Disk}
    (hfirst : disk.Unlinks disk' signal front.seq) (h : UnlinksOnly signal taken disk' disk'') :
    UnlinksOnly signal (front :: taken) disk disk'' := by
  refine ⟨fun other x hx => ((hfirst.mem_iff other x).1 (h.1 other x hx)).1,
    fun other x ⟨hx, hgone⟩ => ?_⟩
  by_cases hfront : other = signal ∧ x = front.seq
  · exact ⟨hfront.1, front, List.mem_cons_self, hfront.2.symm⟩
  · obtain ⟨rfl, held, hheld, rfl⟩ :=
      h.2 other x ⟨(hfirst.mem_iff other x).2 ⟨hx, hfront⟩, hgone⟩
    exact ⟨rfl, held, List.mem_cons_of_mem _ hheld, rfl⟩

theorem UnlinksAll.cons {front : Held} {taken : List Held} {disk'' : Disk}
    (hfirst : disk.Unlinks disk' signal front.seq)
    (hmem : front.seq ∈ (disk.dirs signal).seqs) (h : UnlinksAll signal taken disk' disk'') :
    UnlinksAll signal (front :: taken) disk disk'' := by
  refine ⟨h.1.cons hfirst, fun held hh => ?_⟩
  rcases List.mem_cons.1 hh with rfl | hh
  · exact ⟨hmem, fun hx => ((hfirst.mem_iff _ _).1 (h.1.1 _ _ hx)).2 ⟨rfl, rfl⟩⟩
  · obtain ⟨hx, hgone⟩ := h.2 held hh
    exact ⟨((hfirst.mem_iff _ _).1 hx).1, hgone⟩

/-- The closed segments that a commit takes. -/
def takenBy (acked active : ℕ) (closed : List Held) : List Held :=
  closed.takeWhile fun held => ¬ (acked < held.seq ∨ held.seq = active)

theorem takenBy_cons (acked active : ℕ) (front : Held) (rest : List Held) :
    takenBy acked active (front :: rest) =
      if acked < front.seq ∨ front.seq = active then [] else front :: takenBy acked active rest := by
  rw [takenBy, List.takeWhile_cons]
  split_ifs with h hstop hstop
  · exact absurd hstop (of_decide_eq_true h)
  · rfl
  · rfl
  · exact absurd (decide_eq_true hstop) h

theorem wp_commitLoop_unlinks (signal : Signal) (acked active : ℕ) (closed : List Held)
    (inner : Inner) (disk : Disk) : (commitLoop signal acked active closed).wp files
      ⟨fun _ _ s => UnlinksAll signal (takenBy acked active closed) disk s,
        fun _ _ s => UnlinksOnly signal (takenBy acked active closed) disk s,
        UnlinksOnly signal (takenBy acked active closed) disk⟩ inner disk := by
  induction closed generalizing inner disk with
  | nil => exact ⟨unlinksOnly_nil _ _ _, fun _ hh => by cases hh⟩
  | cons front rest ih =>
    simp only [commitLoop]
    split_ifs with hstop
    · rw [takenBy_cons, if_pos hstop]
      exact ⟨unlinksOnly_nil _ _ _, fun _ hh => by cases hh⟩
    rw [takenBy_cons, if_neg hstop]
    simp only [bind_eq, wp_bind, wp_load, wp_store]
    refine wp_act (wp_ask (fun _ => rfl) (unlinksOnly_nil _ _ _) (fun _ => unlinksOnly_nil _ _ _)
      fun time emitted disk' heff => ?_)
    obtain ⟨hun, hmem, -⟩ := effect_remove heff
    refine ⟨fun _ _ _ => ?_, fun _ => (unlinksOnly_nil _ _ _).cons hun⟩
    exact wp_mono (ih _ disk') (fun _ _ _ h => h.cons hun hmem) (fun _ _ _ h => h.cons hun)
      fun _ h => h.cons hun

/-- **What a commit unlinks**, in whatever order the segments are held. -/
theorem wp_commit_unlinks (signal : Signal) (acked : ℕ) (inner : Inner) (disk : Disk) :
    let taken := takenBy acked (inner.signals signal).back.seq (inner.signals signal).closed
    (commit signal acked).wp files ⟨fun _ _ s => UnlinksAll signal taken disk s,
      fun _ _ s => UnlinksOnly signal taken disk s, UnlinksOnly signal taken disk⟩ inner disk := by
  intro taken
  simp only [commit, bind_eq, wp_bind, wp_load, wp_store]
  exact wp_mono (wp_commitLoop_unlinks signal acked _ _ _ _)
    (fun _ _ _ h => wp_checkedSub (fun _ => h) fun _ => h.1) (fun _ _ _ h => h) fun _ h => h

theorem mem_takenBy_of_pairwise {acked active : ℕ} {closed : List Held} {held : Held}
    (hclosed : closed.Pairwise (·.seq < ·.seq)) (hactive : ∀ held ∈ closed, held.seq < active) :
    held ∈ takenBy acked active closed ↔ held ∈ closed ∧ held.seq ≤ acked := by
  induction closed with
  | nil => simp [takenBy]
  | cons front rest ih =>
    obtain ⟨hfront, hrest⟩ := List.pairwise_cons.1 hclosed
    have ih := ih hrest fun held hh => hactive held (List.mem_cons_of_mem _ hh)
    have hne := (hactive front List.mem_cons_self).ne
    rw [takenBy_cons]
    by_cases hacked : acked < front.seq
    · -- The loop stops here, and everything behind is higher.
      rw [if_pos (.inl hacked)]
      refine iff_of_false List.not_mem_nil fun ⟨hh, hle⟩ => ?_
      rcases List.mem_cons.1 hh with rfl | hh
      · omega
      · have := hfront held hh; omega
    · rw [if_neg (by tauto), List.mem_cons, List.mem_cons, ih]
      constructor
      · rintro (rfl | hh)
        · exact ⟨.inl rfl, Nat.le_of_not_lt hacked⟩
        · exact ⟨.inr hh.1, hh.2⟩
      · rintro ⟨rfl | hh, hle⟩
        · exact .inl rfl
        · exact .inr ⟨hh, hle⟩

/-- On an ordered queue a commit takes exactly the closed segments it covers. -/
theorem mem_takenBy (h : inner.Ordered) {acked : ℕ} {held : Held} :
    held ∈ takenBy acked (inner.signals signal).back.seq (inner.signals signal).closed ↔
      held ∈ (inner.signals signal).closed ∧ held.seq ≤ acked := by
  have hordered := h signal
  unfold SignalQueue.Ordered SignalQueue.segments at hordered
  obtain ⟨hclosed, -, hlt⟩ := List.pairwise_append.1 hordered
  exact mem_takenBy_of_pairwise hclosed fun held hh => hlt held hh _ (List.mem_singleton.2 rfl)

theorem ordered_commitLoop (signal : Signal) (acked active : ℕ) (closed : List Held)
    (h : InOrder since floor inner disk) (hclosed : (inner.signals signal).closed = closed) :
    (commitLoop signal acked active closed).wp files
      ⟨fun _ m s => InOrder since floor m s, fun _ m s => InOrder since floor m s,
        fun _ => True⟩ inner disk := by
  induction closed generalizing inner disk with
  | nil => exact h
  | cons front rest ih =>
    simp only [commitLoop]
    split_ifs
    · exact h
    have hpop : InOrder since floor (inner.update signal fun q => { q with closed := rest }) disk :=
      h.update (by rw [hclosed]; exact (List.sublist_cons_self front rest).map _) rfl
    simp only [bind_eq, wp_bind, wp_load, wp_store]
    refine wp_mono (wp_act_inOrder hpop) (fun _ m s hm => ?_) (fun _ _ _ h => h) fun _ h => h
    obtain ⟨rfl, hpop⟩ := hm
    exact ih hpop (by simp only [Inner.update, Function.update_self])

theorem ordered_commit (signal : Signal) (acked : ℕ) :
    Preserves files (InOrder since floor) (fun _ => True) (commit signal acked) := by
  intro inner disk h
  simp only [commit, bind_eq, wp_bind, wp_load, wp_store]
  exact wp_mono (ordered_commitLoop signal acked _ _ h rfl)
    (fun _ _ _ h => wp_checkedSub (fun _ => h.counters rfl) fun _ => h) (fun _ _ _ h => h)
    fun _ h => h

/-- **Every call keeps the order.** -/
theorem ordered_primitives (sender : SenderId) :
    Primitives sender (InOrder since floor) fun _ => True where
  writeAll := ordered_writeAll
  roll := ordered_roll sender
  dropSealed := ordered_dropSealed
  countRecord := ordered_countRecord
  commit := ordered_commit

/-! ### Calls that unlink nothing -/

/-- No segment file is missing that was there. -/
def StillThere (disk₀ disk : Disk) : Prop :=
  ∀ signal, ∀ x ∈ (disk₀.dirs signal).seqs, x ∈ (disk.dirs signal).seqs

abbrev UnlinksNothing (disk₀ : Disk) (p : Call Inner α) : Prop :=
  Preserves files (fun _ s => StillThere disk₀ s) (StillThere disk₀) p

variable {disk₀ : Disk}

theorem unlinksNothing_ask {op : FileOp} (hop : op.IsQuiet) :
    UnlinksNothing disk₀ (ask op : Call Inner op.Res) := fun _ _ h =>
  wp_quiet (P := fun _ s => StillThere disk₀ s) hop h (fun _ h => h) fun _ hq signal x hx =>
    (hq.seqs signal x).2 (h signal x hx)

theorem unlinksNothing_act {op : FileOp} (hop : op.IsQuiet) :
    UnlinksNothing disk₀ (act op : Call Inner Unit) :=
  (unlinksNothing_ask hop).bind fun _ => preserves_ret ()

theorem unlinksNothing_createSegment (sender : SenderId) (signal : Signal) (seq : ℕ) :
    UnlinksNothing disk₀ (createSegment sender signal seq : Call Inner Unit) := by
  have hcreate : UnlinksNothing disk₀ (act (.createSegment sender signal seq) :
      Call Inner Unit) := by
    intro m disk h
    refine wp_act (wp_ask (fun _ => rfl) h (fun _ => h) fun time emitted disk' heff => ?_)
    have hcreates := effect_createSegment heff
    have hstill : StillThere disk₀ disk' := by
      intro other x hx
      by_cases ho : other = signal
      · subst ho; exact (hcreates.seqs x).2 (.inr (h other x hx))
      · exact ((hcreates.others other ho).seqs x).2 (h other x hx)
    exact ⟨fun _ _ _ => hstill, fun _ => hstill⟩
  exact hcreate.bind fun _ => (unlinksNothing_act (by trivial)).bind fun _ =>
    unlinksNothing_act (by trivial)

theorem unlinksNothing_writeAll (signal : Signal) (plain : List UInt8) :
    UnlinksNothing disk₀ (writeAll signal plain) := by
  refine preserves_load fun inner => ?_
  cases (inner.signals signal).active with
  | none => exact preserves_throw _
  | some writer =>
    exact (unlinksNothing_ask (by trivial)).bind fun _ => (preserves_store _).bind fun _ =>
      preserves_ite (preserves_ret ()) (preserves_throw _)

theorem unlinksNothing_finish (signal : Signal) : UnlinksNothing disk₀ (finish signal) := by
  refine preserves_load fun inner => ?_
  cases (inner.signals signal).active with
  | none => exact preserves_throw _
  | some writer =>
    exact (preserves_store _).bind fun _ => (unlinksNothing_ask (by trivial)).bind fun _ =>
      preserves_ite ((unlinksNothing_act (by trivial)).bind fun _ => preserves_ret _)
        (preserves_throw _)

theorem unlinksNothing_roll (sender : SenderId) (signal : Signal) :
    UnlinksNothing disk₀ (roll sender signal) :=
  preserves_load fun _ => preserves_ite (preserves_ret ()) <|
    (preserves_store _).bind fun _ => (unlinksNothing_finish signal).bind fun _ =>
      (preserves_checkedSub _ _).bind fun _ =>
        preserves_load fun _ => (preserves_store _).bind fun _ =>
          (unlinksNothing_createSegment sender signal _).bind fun _ =>
            preserves_load fun _ => preserves_store _

theorem unlinksNothing_countRecord (signal : Signal) (plainLen now : ℕ) :
    UnlinksNothing disk₀ (countRecord signal plainLen now) :=
  preserves_load fun _ => (preserves_store _).bind fun _ => preserves_load fun _ =>
    (preserves_checkedSub _ _).bind fun _ => preserves_store _

theorem unlinksNothing_sealIfDue (sender : SenderId) (due : Signal → Bool) :
    UnlinksNothing disk₀ (sealIfDue sender due) :=
  (preserves_each (fun signal => preserves_ite (unlinksNothing_roll sender signal)
    (preserves_ret ())) _).bind fun _ => preserves_ret ()

theorem unlinksNothing_sealAll (sender : SenderId) : UnlinksNothing disk₀ (sealAll sender) :=
  (preserves_each (unlinksNothing_roll sender) _).bind fun _ => preserves_ret ()

/-- **An append that has room** unlinks nothing. -/
theorem wp_append_fits (limits : QueueLimits) (sender : SenderId) (signal : Signal)
    (pieces : List (List UInt8)) (now fuel : ℕ)
    (hfits : inner.stats.queuedBytes + (recordHeaderBytes + (pieces.map List.length).sum) ≤
      limits.maxBytes) (h : StillThere disk₀ disk) :
    (writeRecord limits sender signal pieces now fuel).wp files
      ⟨fun _ _ s => StillThere disk₀ s, fun _ _ s => StillThere disk₀ s, StillThere disk₀⟩
      inner disk := by
  have hwrite : ∀ plainLen bytes, UnlinksNothing disk₀ (do
      writeAll signal (Bytes.leBytes recordHeaderBytes bytes)
      let _ ← each (writeAll signal) pieces
      countRecord signal plainLen now : Call Inner Unit) :=
    fun plainLen bytes => (unlinksNothing_writeAll signal _).bind fun _ =>
      (preserves_each (unlinksNothing_writeAll signal) pieces).bind fun _ =>
        unlinksNothing_countRecord signal _ _
  have hroom : ¬ limits.maxBytes <
      inner.stats.queuedBytes + (recordHeaderBytes + (pieces.map List.length).sum) := by omega
  simp only [writeRecord]
  split_ifs
  · exact h
  -- No round of the loop is needed.
  have hmake : (makeRoom limits sender (recordHeaderBytes + (pieces.map List.length).sum)
      fuel).wp files ⟨fun _ _ s => StillThere disk₀ s, fun _ _ s => StillThere disk₀ s,
        StillThere disk₀⟩ inner disk := by
    cases fuel <;> simp only [makeRoom, bind_eq, wp_bind, wp_load, if_neg hroom] <;> exact h
  refine wp_seq hmake fun _ m s hs => ?_
  refine preserves_load (fun inner => ?_) m s hs
  exact preserves_ite ((unlinksNothing_roll sender signal).bind fun _ => hwrite _ _) (hwrite _ _)

end Queue

end Obsy
