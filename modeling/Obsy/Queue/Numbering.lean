import Obsy.Queue.Calls

/-!
# Segment numbers

Segment numbers only grow: of two segment files created under one signal the later one has the
larger number, in every history of openings, calls and crashes in which no opening ends between
unlinking a signal's unreadable last segment and creating its next one
(`created_increasing`).  An opening that does end there reuses the number (`reused_number`).

The argument is about three things of a signal's directory: the numbers ever created, the
numbers on disk, and whether an opening is in that gap.  Outside the gap the highest number ever
created is still on disk (`Disk.Bounded`); while the queue runs it is above every closed segment
(`Disk.Topped`).
-/

namespace Obsy

namespace Queue

open Machine Machine.Program

open Journal (SenderId)

/-! ### What is kept of a directory -/

namespace Disk

/-- Every number ever created is at most one that is on disk. -/
def Bounded (disk : Disk) (signal : Signal) : Prop :=
  ∀ c ∈ disk.createdSeqs signal, ∃ d ∈ (disk.dirs signal).seqs, c ≤ d

/-- The number `n` is on disk and is the highest ever created. -/
def Frontier (disk : Disk) (signal : Signal) (n : ℕ) : Prop :=
  n ∈ (disk.dirs signal).seqs ∧ ∀ c ∈ disk.createdSeqs signal, c ≤ n

/-- The highest number ever created is on disk, and above all of `closed`. -/
def Topped (disk : Disk) (signal : Signal) (closed : List Held) : Prop :=
  ∃ top, disk.Frontier signal top ∧ ∀ held ∈ closed, held.seq < top

/-- The numbers created grow, and every file on disk was created. -/
structure Numbered (disk : Disk) : Prop where
  growing : ∀ signal, (disk.createdSeqs signal).Pairwise (· < ·)
  filed : ∀ signal, ∀ n ∈ (disk.dirs signal).seqs, n ∈ disk.createdSeqs signal

/-- The number `u64::MAX` has been created. -/
def Exhausted (disk : Disk) : Prop := ∃ c ∈ disk.created, u64Wrap ≤ c.seq + 1

/-- Nothing of a signal that the numbers depend on is different. -/
structure Same (disk disk' : Disk) (signal : Signal) : Prop where
  created : disk'.createdSeqs signal = disk.createdSeqs signal
  gap : disk'.gap signal = disk.gap signal
  seqs : ∀ n, n ∈ (disk'.dirs signal).seqs ↔ n ∈ (disk.dirs signal).seqs

/-- Nothing that the numbers depend on is different. -/
structure Quiet (disk disk' : Disk) : Prop where
  created : disk'.created = disk.created
  gap : disk'.gap = disk.gap
  seqs : ∀ signal n, n ∈ (disk'.dirs signal).seqs ↔ n ∈ (disk.dirs signal).seqs

/-- The number `seq` is created under `signal`. -/
structure Creates (disk disk' : Disk) (signal : Signal) (seq : ℕ) : Prop where
  created : disk'.createdSeqs signal = disk.createdSeqs signal ++ [seq]
  gap : disk'.gap signal = false
  seqs : ∀ n, n ∈ (disk'.dirs signal).seqs ↔ n = seq ∨ n ∈ (disk.dirs signal).seqs
  others : ∀ other, other ≠ signal → disk.Same disk' other

/-- The number `seq` of `signal` is unlinked. -/
structure Unlinks (disk disk' : Disk) (signal : Signal) (seq : ℕ) : Prop where
  created : disk'.createdSeqs signal = disk.createdSeqs signal
  seqs : ∀ n, n ∈ (disk'.dirs signal).seqs ↔ n ∈ (disk.dirs signal).seqs ∧ n ≠ seq
  others : ∀ other, other ≠ signal → disk.Same disk' other

variable {disk disk' : Disk} {signal : Signal}

theorem Quiet.same (h : Quiet disk disk') (signal : Signal) : disk.Same disk' signal :=
  ⟨by rw [createdSeqs, createdSeqs, h.created], by rw [h.gap], h.seqs signal⟩

theorem Same.bounded (h : disk.Same disk' signal) (hb : disk.Bounded signal) :
    disk'.Bounded signal := by
  intro c hc
  rw [h.created] at hc
  obtain ⟨d, hd, hcd⟩ := hb c hc
  exact ⟨d, (h.seqs _).2 hd, hcd⟩

theorem Same.frontier (h : disk.Same disk' signal) {n : ℕ} (hf : disk.Frontier signal n) :
    disk'.Frontier signal n :=
  ⟨(h.seqs _).2 hf.1, by rw [h.created]; exact hf.2⟩

theorem Same.topped (h : disk.Same disk' signal) {closed : List Held}
    (ht : disk.Topped signal closed) : disk'.Topped signal closed :=
  ht.imp fun _ hn => ⟨h.frontier hn.1, hn.2⟩

theorem numbered_of_same (h : ∀ signal, disk.Same disk' signal) (hn : disk.Numbered) :
    disk'.Numbered where
  growing signal := by rw [(h signal).created]; exact hn.growing signal
  filed signal n hm := by
    rw [(h signal).created]; exact hn.filed signal n (((h signal).seqs n).1 hm)

theorem Numbered.frontier_unique (hn : disk.Numbered) {m n : ℕ} (hm : disk.Frontier signal m)
    (hf : disk.Frontier signal n) : m = n :=
  le_antisymm (hf.2 m (hn.filed signal m hm.1)) (hm.2 n (hn.filed signal n hf.1))

/-- A number above all created ones becomes the highest, and they go on growing. -/
theorem Creates.numbered {seq : ℕ} (h : disk.Creates disk' signal seq)
    (habove : ∀ c ∈ disk.createdSeqs signal, c < seq) (hn : disk.Numbered) :
    disk'.Numbered where
  growing other := by
    by_cases ho : other = signal
    · subst ho
      rw [h.created, List.pairwise_append]
      refine ⟨hn.growing other, List.pairwise_singleton _ _, fun c hc d hd => ?_⟩
      cases List.mem_singleton.1 hd
      exact habove c hc
    · rw [(h.others other ho).created]; exact hn.growing other
  filed other n hm := by
    by_cases ho : other = signal
    · subst ho
      rw [h.created, List.mem_append, List.mem_singleton]
      rcases (h.seqs n).1 hm with rfl | hm
      · exact .inr rfl
      · exact .inl (hn.filed other n hm)
    · rw [(h.others other ho).created]
      exact hn.filed other n (((h.others other ho).seqs n).1 hm)

theorem Creates.frontier {seq : ℕ} (h : disk.Creates disk' signal seq)
    (habove : ∀ c ∈ disk.createdSeqs signal, c < seq) : disk'.Frontier signal seq := by
  refine ⟨(h.seqs seq).2 (.inl rfl), fun c hc => ?_⟩
  rw [h.created, List.mem_append, List.mem_singleton] at hc
  rcases hc with hc | rfl
  · exact (habove c hc).le
  · exact le_rfl

theorem Unlinks.numbered {seq : ℕ} (h : disk.Unlinks disk' signal seq) (hn : disk.Numbered) :
    disk'.Numbered where
  growing other := by
    by_cases ho : other = signal
    · subst ho; rw [h.created]; exact hn.growing other
    · rw [(h.others other ho).created]; exact hn.growing other
  filed other n hm := by
    by_cases ho : other = signal
    · subst ho; rw [h.created]; exact hn.filed other n ((h.seqs n).1 hm).1
    · rw [(h.others other ho).created]
      exact hn.filed other n (((h.others other ho).seqs n).1 hm)

theorem Unlinks.frontier {seq n : ℕ} (h : disk.Unlinks disk' signal seq) (hne : n ≠ seq)
    (hf : disk.Frontier signal n) : disk'.Frontier signal n :=
  ⟨(h.seqs n).2 ⟨hf.1, hne⟩, by rw [h.created]; exact hf.2⟩

theorem Topped.bounded {closed : List Held} (h : disk.Topped signal closed) :
    disk.Bounded signal := by
  obtain ⟨top, hf, -⟩ := h
  exact fun c hc => ⟨top, hf.1, hf.2 c hc⟩

theorem Topped.mono {closed closed' : List Held} (h : disk.Topped signal closed)
    (hsub : ∀ held ∈ closed', held ∈ closed) : disk.Topped signal closed' :=
  h.imp fun _ hn => ⟨hn.1, fun held hh => hn.2 held (hsub held hh)⟩

/-- A number that is filed and not the last wraps no counter. -/
theorem Numbered.succ_lt (hn : disk.Numbered) (he : ¬ disk.Exhausted) {n : ℕ}
    (hm : n ∈ (disk.dirs signal).seqs) : n + 1 < u64Wrap := by
  by_contra hle
  obtain ⟨c, hc, rfl⟩ := List.mem_map.1 (hn.filed signal n hm)
  exact he ⟨c, (List.mem_filter.1 hc).1, Nat.le_of_not_lt hle⟩

end Disk

/-- An operation that creates and unlinks no segment file. -/
def FileOp.IsQuiet : FileOp → Prop
  | createSegment _ _ _ => False
  | renameTemporary _ _ => False
  | remove _ _ _ => False
  | _ => True

theorem createdSeqs_append (disk : Disk) (c : Creation) (dirs : Signal → Dir)
    (gap : Signal → Bool) (signal : Signal) :
    { disk with dirs := dirs, created := disk.created ++ [c], gap := gap }.createdSeqs signal =
      disk.createdSeqs signal ++ if c.signal = signal then [c.seq] else [] := by
  by_cases h : c.signal = signal <;> simp [Disk.createdSeqs, List.filter_append, h]

theorem effect_createSegment {time : ℕ} {emitted : List UInt8} {disk disk' : Disk}
    {sender : SenderId} {signal : Signal} {seq : ℕ}
    (h : effect time emitted disk (.createSegment sender signal seq) = some disk') :
    disk.Creates disk' signal seq := by
  cases h
  refine ⟨?_, by simp only [Function.update_self], fun n => ?_, fun other ho => ⟨?_, ?_, ?_⟩⟩
  · rw [Disk.update, createdSeqs_append, if_pos rfl]
    rfl
  · simp only [Disk.update, Function.update_self, Dir.mem_seqs_put]
  · rw [Disk.update, createdSeqs_append, if_neg (fun h => ho h.symm), List.append_nil]
    rfl
  · simp only [Function.update_of_ne ho]
  · simp only [Disk.update, Function.update_of_ne ho, implies_true]

theorem effect_remove {time : ℕ} {emitted : List UInt8} {disk disk' : Disk} {why : Unlink}
    {signal : Signal} {seq : ℕ}
    (h : effect time emitted disk (.remove why signal seq) = some disk') :
    disk.Unlinks disk' signal seq ∧ seq ∈ (disk.dirs signal).seqs ∧
      disk'.gap signal = (decide (why = .unreadable) || disk.gap signal) := by
  simp only [effect] at h
  split at h
  · rename_i file hfile
    cases h
    refine ⟨⟨rfl, fun n => ?_, fun other ho => ⟨rfl, ?_, ?_⟩⟩, Dir.mem_seqs_of_find hfile, ?_⟩
    · simp only [Disk.update, Function.update_self, Dir.mem_seqs_erase]
    · by_cases hw : why = .unreadable <;> simp [hw, Function.update_of_ne ho]
    · simp only [Disk.update, Function.update_of_ne ho, implies_true]
    · by_cases hw : why = .unreadable <;> simp [hw]
  · cases h

theorem effect_renameTemporary {time : ℕ} {emitted : List UInt8} {disk disk' : Disk}
    {signal : Signal} {seq : ℕ} (hseq : seq ∈ (disk.dirs signal).seqs)
    (h : effect time emitted disk (.renameTemporary signal seq) = some disk') :
    disk.Quiet disk' := by
  simp only [effect] at h
  split at h
  · rename_i file hfile
    have hfile' : file.seq = seq := by simpa using List.find?_some hfile
    cases h
    refine ⟨rfl, rfl, fun other n => ?_⟩
    by_cases ho : other = signal
    · subst ho
      simp only [Disk.update, Function.update_self]
      have hput : n ∈ ((disk.dirs other).put file).seqs ↔
          n = file.seq ∨ n ∈ (disk.dirs other).seqs := Dir.mem_seqs_put
      rw [hfile'] at hput
      exact hput.trans (or_iff_right_of_imp fun hn => hn ▸ hseq)
    · simp only [Disk.update, Function.update_of_ne ho]
  · cases h

theorem effect_quiet {time : ℕ} {emitted : List UInt8} {disk disk' : Disk} {op : FileOp}
    (hop : op.IsQuiet) (h : effect time emitted disk op = some disk') : disk.Quiet disk' := by
  have hsame : disk.Quiet disk := ⟨rfl, rfl, fun _ _ => Iff.rfl⟩
  have hupdate : ∀ (signal : Signal) (f : Dir → Dir),
      (∀ n, n ∈ (f (disk.dirs signal)).seqs ↔ n ∈ (disk.dirs signal).seqs) →
      disk.Quiet (disk.update signal f) := by
    refine fun signal f hf => ⟨rfl, rfl, fun other n => ?_⟩
    by_cases ho : other = signal
    · subst ho; simp only [Disk.update, Function.update_self, hf]
    · simp only [Disk.update, Function.update_of_ne ho]
  cases op with
  | createSegment _ _ _ => cases hop
  | renameTemporary _ _ => cases hop
  | remove _ _ _ => cases hop
  | encode signal seq plain =>
    simp only [effect] at h
    split at h
    · rename_i file hfile
      cases h
      refine hupdate signal _ fun n => ?_
      rw [Dir.mem_seqs_put]
      exact or_iff_right_of_imp fun hn => hn ▸ Dir.mem_seqs_of_find hfile
    · cases h; exact hsame
  | sweepTemporaries signal => cases h; exact hupdate signal _ fun _ => Iff.rfl
  | writeTemporary signal seq content => cases h; exact hupdate signal _ fun _ => Iff.rfl
  | createDir | sweepIdentity | loadIdentity | writeIdentity _ | renameIdentity | sync | list _
  | read _ _ => cases h; exact ⟨rfl, rfl, fun _ _ => Iff.rfl⟩

/-- Every operation keeps what was created. -/
theorem effect_created {time : ℕ} {emitted : List UInt8} {disk disk' : Disk} {op : FileOp}
    (h : effect time emitted disk op = some disk') : ∀ c ∈ disk.created, c ∈ disk'.created := by
  intro c hc
  cases op with
  | createSegment sender signal seq => cases h; exact List.mem_append_left _ hc
  | renameTemporary signal seq =>
    simp only [effect] at h
    split at h
    · cases h; exact hc
    · cases h
  | remove why signal seq =>
    simp only [effect] at h
    split at h
    · cases h; exact hc
    · cases h
  | createDir | sweepIdentity | sweepTemporaries _ | loadIdentity | writeIdentity _
  | renameIdentity | sync | list _ | read _ _ | encode _ _ _ | writeTemporary _ _ _ =>
    have hquiet := effect_quiet (by trivial) h
    rw [hquiet.created]; exact hc

theorem files_apply_device (fate : Fate) (disk : Disk) (op : FileOp) :
    (files.apply fate disk op).2 = disk ∨
      effect fate.time fate.emitted disk op = some (files.apply fate disk op).2 := by
  simp only [files]
  cases h : effect fate.time fate.emitted disk op with
  | none => exact .inl rfl
  | some disk' =>
    by_cases hf : fate.fails
    · by_cases ha : fate.applied <;> simp [hf, ha]
    · simp [hf]

variable {Mem α : Type}

/-- A program leaves what every operation leaves. -/
theorem wp_of_stable {p : Call Mem α} {P : Disk → Prop}
    (hop : ∀ time emitted disk disk' op, effect time emitted disk op = some disk' → P disk →
      P disk') (m : Mem) {disk : Disk} (h : P disk) :
    p.wp files ⟨fun _ _ s => P s, fun _ _ s => P s, P⟩ m disk := by
  induction p generalizing m disk with
  | ret a => exact h
  | throw e => exact h
  | get k ih => exact ih m m h
  | set m' k ih => exact ih m' h
  | call op k ih =>
    refine ⟨h, fun fate => ih _ m ?_⟩
    rcases files_apply_device fate disk op with hs | hs
    · rw [hs]; exact h
    · exact hop _ _ _ _ _ hs h

theorem wp_exhausted (p : Call Mem α) (m : Mem) {disk : Disk} (h : disk.Exhausted) :
    p.wp files ⟨fun _ _ s => s.Exhausted, fun _ _ s => s.Exhausted, Disk.Exhausted⟩ m disk :=
  wp_of_stable (fun _ _ _ _ _ heff he =>
    he.imp fun c hc => ⟨effect_created heff c hc.1, hc.2⟩) m h

/-- A quiet operation keeps what quiet changes keep. -/
theorem wp_quiet {op : FileOp} (hop : op.IsQuiet) {P : Mem → Disk → Prop} {K : Disk → Prop}
    {m : Mem} {disk : Disk} (h : P m disk) (hK : ∀ disk, P m disk → K disk)
    (hquiet : ∀ disk', disk.Quiet disk' → P m disk') :
    (ask op : Call Mem op.Res).wp files ⟨fun _ m s => P m s, fun _ m s => P m s, K⟩ m disk := by
  refine ⟨hK disk h, fun fate => ?_⟩
  have hP : P m (files.apply fate disk op).2 := by
    rcases files_apply_device fate disk op with hs | hs
    · rw [hs]; exact h
    · exact hquiet _ (effect_quiet hop hs)
  cases (files.apply fate disk op).1 <;> exact hP

theorem wp_act_quiet {op : FileOp} (hop : op.IsQuiet) {P : Mem → Disk → Prop}
    {K : Disk → Prop} {m : Mem} {disk : Disk} (h : P m disk) (hK : ∀ disk, P m disk → K disk)
    (hquiet : ∀ disk', disk.Quiet disk' → P m disk') :
    (act op : Call Mem Unit).wp files ⟨fun _ m s => P m s, fun _ m s => P m s, K⟩ m disk :=
  wp_act (wp_quiet hop h hK hquiet)

/-! ### A running queue -/

/-- What holds of a signal while the queue runs: the highest number is on disk and above every
closed segment, and while the encoder is open it is the open segment's. -/
structure UpSignal (disk : Disk) (q : SignalQueue) (signal : Signal) : Prop where
  gap : disk.gap signal = false
  topped : disk.Topped signal q.closed
  active : q.active.isSome → disk.Frontier signal q.back.seq

/-- The invariant of a running queue. -/
def Good (inner : Inner) (disk : Disk) : Prop :=
  disk.Numbered ∧ ∀ signal, UpSignal disk (inner.signals signal) signal

/-- The invariant of a running queue, until the numbers run out. -/
def Up (inner : Inner) (disk : Disk) : Prop := disk.Exhausted ∨ Good inner disk

/-- The invariant of the directory while no process has it open, until the numbers run out. -/
def Down (disk : Disk) : Prop :=
  disk.Exhausted ∨
    disk.Numbered ∧ ∀ signal, disk.gap signal = false ∧ disk.Bounded signal

/-- A call keeps the invariant, however it ends. -/
abbrev Keeps (p : Call Inner α) : Prop := Preserves files Up Down p

section Running

variable {inner inner' : Inner} {disk disk' : Disk} {signal : Signal} {sender : SenderId}

theorem Up.down (h : Up inner disk) : Down disk :=
  h.imp_right fun hg => ⟨hg.1, fun signal => ⟨(hg.2 signal).gap, (hg.2 signal).topped.bounded⟩⟩

theorem Good.down (h : Good inner disk) : Down disk := Up.down (.inr h)

theorem UpSignal.same {q : SignalQueue} (hs : disk.Same disk' signal)
    (h : UpSignal disk q signal) : UpSignal disk' q signal :=
  ⟨hs.gap.trans h.gap, hs.topped h.topped, fun ha => hs.frontier (h.active ha)⟩

theorem Good.quiet (hq : disk.Quiet disk') (h : Good inner disk) : Good inner disk' :=
  ⟨Disk.numbered_of_same hq.same h.1, fun signal => (h.2 signal).same (hq.same signal)⟩

theorem Up.quiet (hq : disk.Quiet disk') (h : Up inner disk) : Up inner disk' := by
  rcases h with he | hg
  · rw [Disk.Exhausted, ← hq.created] at he; exact .inl he
  · exact .inr (hg.quiet hq)

/-- The memory may forget closed segments and close its encoder. -/
theorem Good.memory (h : Good inner disk)
    (hm : ∀ signal, (∀ held ∈ (inner'.signals signal).closed,
        held ∈ (inner.signals signal).closed) ∧
      ((inner'.signals signal).active.isSome → (inner.signals signal).active.isSome ∧
        (inner'.signals signal).back.seq = (inner.signals signal).back.seq)) :
    Good inner' disk := by
  refine ⟨h.1, fun signal => ?_⟩
  obtain ⟨hgap, htopped, hactive⟩ := h.2 signal
  obtain ⟨hclosed, hopen⟩ := hm signal
  refine ⟨hgap, htopped.mono hclosed, fun ha => ?_⟩
  obtain ⟨hsome, hback⟩ := hopen ha
  rw [hback]
  exact hactive hsome

theorem Good.update (h : Good inner disk) {f : SignalQueue → SignalQueue}
    (hclosed : ∀ held ∈ (f (inner.signals signal)).closed,
      held ∈ (inner.signals signal).closed)
    (hactive : (f (inner.signals signal)).active.isSome →
      (inner.signals signal).active.isSome ∧
        (f (inner.signals signal)).back.seq = (inner.signals signal).back.seq) :
    Good (inner.update signal f) disk := by
  refine h.memory fun other => ?_
  by_cases ho : other = signal
  · subst ho; simp only [Inner.update, Function.update_self]; exact ⟨hclosed, hactive⟩
  · simp only [Inner.update, Function.update_of_ne ho]
    exact ⟨fun _ hh => hh, fun ha => ⟨ha, trivial⟩⟩

/-- The counters do not matter. -/
theorem Up.counters (h : Up inner disk) (hs : inner'.signals = inner.signals) :
    Up inner' disk :=
  h.imp_right fun hg => hg.memory fun signal => by
    rw [hs]; exact ⟨fun _ hh => hh, fun ha => ⟨ha, rfl⟩⟩

/-- A call need only be looked at while the numbers last. -/
theorem keeps_of_good {p : Call Inner α} (hg : ∀ inner disk, Good inner disk → p.wp files
    ⟨fun _ inner disk => Up inner disk, fun _ inner disk => Up inner disk, Down⟩ inner disk) :
    Keeps p := by
  intro inner disk h
  rcases h with he | h
  · exact wp_mono (wp_exhausted p inner he) (fun _ _ _ he => .inl he) (fun _ _ _ he => .inl he)
      fun _ he => .inl he
  · exact hg inner disk h

theorem keeps_writeAll (signal : Signal) (plain : List UInt8) : Keeps (writeAll signal plain) := by
  intro inner disk h
  simp only [writeAll, bind_eq, wp_bind, wp_load]
  cases ha : (inner.signals signal).active with
  | none => exact h
  | some writer =>
    refine wp_seq (R := fun _ m s => m = inner ∧ Up inner s) ?_ fun encoded m s hu => ?_
    · exact wp_mono (wp_quiet (P := fun m s => m = inner ∧ Up inner s) (by trivial) ⟨rfl, h⟩
        (fun _ hu => hu.2.down) fun _ hq => ⟨rfl, h.quiet hq⟩) (fun _ _ _ hu => hu)
        (fun _ _ _ hu => hu.1 ▸ hu.2) fun _ hd => hd
    · obtain ⟨rfl, hu⟩ := hu
      have hup : Up (m.update signal fun q => { q with
          active := some { writer with
            written := writer.written + encoded.emitted
            plain := writer.plain ++ plain.take encoded.accepted } }) s :=
        hu.imp_right fun hg => hg.update (fun _ hh => hh) fun _ => ⟨by rw [ha]; rfl, rfl⟩
      simp only [wp_bind, wp_store]
      split_ifs
      · exact hup
      · exact hup

/-- The queue after a signal's encoder was closed. -/
def Finished (signal : Signal) (inner inner' : Inner) (disk : Disk) : Prop :=
  inner' = inner.update signal (fun q => { q with active := none }) ∧ Good inner' disk ∧
    disk.Frontier signal (inner.signals signal).back.seq

theorem wp_finish (signal : Signal) (h : Good inner disk) : (finish signal).wp files
    ⟨fun _ inner' disk => Finished signal inner inner' disk, fun _ m s => Up m s, Down⟩
    inner disk := by
  simp only [finish, bind_eq, wp_bind, wp_load]
  cases ha : (inner.signals signal).active with
  | none => exact .inr h
  | some writer =>
    have hquiet : ∀ {m : Inner} {s s' : Disk}, Finished signal inner m s → s.Quiet s' →
        Finished signal inner m s' :=
      fun hf hq => ⟨hf.1, hf.2.1.quiet hq, (hq.same signal).frontier hf.2.2⟩
    have hfinished : Finished signal inner
        (inner.update signal fun q => { q with active := none }) disk :=
      ⟨rfl, h.update (fun _ hh => hh) (fun hs => by cases hs),
        (h.2 signal).active (by rw [ha]; rfl)⟩
    simp only [wp_bind, wp_store]
    refine wp_mono (wp_quiet (P := Finished signal inner) (by trivial) hfinished
      (fun _ hf => hf.2.1.down) fun _ hq => hquiet hfinished hq) (fun encoded m s hf => ?_)
      (fun _ _ _ hf => .inr hf.2.1) fun _ hd => hd
    split_ifs
    · exact wp_seq (wp_mono (wp_act_quiet (P := Finished signal inner) (by trivial) hf
        (fun _ hf => hf.2.1.down) fun _ hq => hquiet hf hq) (fun _ _ _ hf => hf)
        (fun _ _ _ hf => .inr hf.2.1) fun _ hd => hd) fun _ _ _ hf => hf
    · exact .inr hf.2.1

/-- The queue after the segment above its closed encoder's was created. -/
def Created (signal : Signal) (next : ℕ) (inner inner' : Inner) (disk : Disk) : Prop :=
  inner' = inner ∧ Good inner disk ∧ disk.Frontier signal next

theorem wp_createSegment (h : Good inner disk) (hactive : (inner.signals signal).active = none)
    {n : ℕ} (hf : disk.Frontier signal n) (he : ¬ disk.Exhausted) :
    (createSegment sender signal ((n + 1) % u64Wrap)).wp files
      ⟨fun _ inner' disk => n + 1 < u64Wrap ∧ Created signal (n + 1) inner inner' disk,
        fun _ m s => Up m s, Down⟩ inner disk := by
  have hlt := h.1.succ_lt he hf.1
  have hquiet : ∀ {m : Inner} {s s' : Disk}, Created signal (n + 1) inner m s → s.Quiet s' →
      Created signal (n + 1) inner m s' :=
    fun hc hq => ⟨hc.1, hc.2.1.quiet hq, (hq.same signal).frontier hc.2.2⟩
  have hup : ∀ {m : Inner} {s : Disk}, Created signal (n + 1) inner m s → Up m s :=
    fun hc => .inr (hc.1 ▸ hc.2.1)
  have hsync : ∀ {m : Inner} {s : Disk}, Created signal (n + 1) inner m s →
      (act .sync : Call Inner Unit).wp files
        ⟨fun _ m s => Created signal (n + 1) inner m s, fun _ m s => Up m s, Down⟩ m s :=
    fun hc => wp_mono (wp_act_quiet (P := Created signal (n + 1) inner) (by trivial) hc
      (fun _ hc => (hup hc).down) fun _ hq => hquiet hc hq) (fun _ _ _ hc => hc)
      (fun _ _ _ hc => hup hc) fun _ hd => hd
  rw [Nat.mod_eq_of_lt hlt]
  simp only [createSegment, bind_eq]
  refine wp_seq (R := fun _ m s => Created signal (n + 1) inner m s)
    (wp_act (wp_ask (fun _ => rfl) h.down (fun _ => .inr h) fun time emitted disk' heff => ?_))
    fun _ m s hc => wp_seq (hsync hc) fun _ m s hc =>
      wp_mono (hsync hc) (fun _ _ _ hc => ⟨hlt, hc⟩) (fun _ _ _ hu => hu) fun _ hd => hd
  have hcreates := effect_createSegment heff
  have habove : ∀ c ∈ disk.createdSeqs signal, c < n + 1 := fun c hc =>
    Nat.lt_succ_of_le (hf.2 c hc)
  have hfrontier := hcreates.frontier habove
  have hcreated : Created signal (n + 1) inner inner disk' := by
    refine ⟨rfl, ⟨hcreates.numbered habove h.1, fun other => ?_⟩, hfrontier⟩
    by_cases ho : other = signal
    · subst ho
      obtain ⟨top, htop, hclosed⟩ := (h.2 other).topped
      have htop' := h.1.frontier_unique htop hf
      refine ⟨hcreates.gap, ⟨n + 1, hfrontier, fun held hh => ?_⟩, fun ha => ?_⟩
      · exact (hclosed held hh).trans (by omega)
      · rw [hactive] at ha; cases ha
    · exact (h.2 other).same (hcreates.others other ho)
  exact ⟨fun _ _ _ => hcreated, fun _ => hup hcreated⟩

theorem keeps_roll (sender : SenderId) (signal : Signal) : Keeps (roll sender signal) := by
  refine keeps_of_good fun inner disk hg => ?_
  simp only [roll, bind_eq, wp_bind, wp_load]
  split_ifs
  · exact .inr hg
  have hstamped : Good { inner with stamped := inner.stamped + 1 } disk :=
    hg.memory fun _ => ⟨fun _ hh => hh, fun ha => ⟨ha, rfl⟩⟩
  simp only [wp_bind, wp_store]
  refine wp_mono (wp_finish signal hstamped) (fun bytes m s hfin => ?_)
    (fun _ _ _ hu => hu) fun _ hd => hd
  obtain ⟨rfl, hgood, hfront⟩ := hfin
  refine wp_checkedSub (fun _ => ?_) fun _ => .inr hgood
  simp only [wp_load]
  set m : Inner := Inner.update (Inner.update { inner with stamped := inner.stamped + 1 } signal
    fun q => { q with active := none }) signal fun q => { q with
      back := { q.back with bytes := bytes, stamp := inner.stamped + 1 } } with hm
  have hgood' : Good m s := hgood.update (fun _ hh => hh) fun ha => by
    simp [Inner.update] at ha
  have hq : m.signals signal = { inner.signals signal with
      active := none
      back := { (inner.signals signal).back with
        bytes := bytes, stamp := inner.stamped + 1 } } := by
    simp [hm, Inner.update]
  by_cases he : s.Exhausted
  · exact wp_mono (wp_exhausted _ m he) (fun _ _ _ he => .inl he) (fun _ _ _ he => .inl he)
      fun _ he => .inl he
  refine wp_mono (wp_createSegment hgood' (by rw [hq]) hfront he) (fun _ m' s hc => ?_)
    (fun _ _ _ hu => hu) fun _ hd => hd
  obtain ⟨hlt, rfl, hgood, hfront'⟩ := hc
  refine .inr ⟨hgood.1, fun other => ?_⟩
  by_cases ho : other = signal
  · subst ho
    obtain ⟨top, htop, hclosed⟩ := (hgood.2 other).topped
    have htop' := hgood.1.frontier_unique htop hfront'
    simp only [Inner.update, Function.update_self, Nat.mod_eq_of_lt hlt]
    refine ⟨(hgood.2 other).gap, ⟨_, hfront', fun held hh => ?_⟩, fun _ => hfront'⟩
    rcases List.mem_append.1 hh with hh | hh
    · rw [← htop']; exact hclosed held hh
    · cases List.mem_singleton.1 hh
      rw [hq]
      exact Nat.lt_succ_self _
  · simp only [Inner.update, Function.update_of_ne ho]
    exact hgood.2 other

/-- Unlinking a segment that is below the highest number. -/
theorem wp_remove {why : Unlink} (hwhy : why ≠ .unreadable) {held : Held}
    (hg : Good inner disk)
    (htop : disk.Topped signal (held :: (inner.signals signal).closed)) :
    (act (.remove why signal held.seq) : Call Inner Unit).wp files
      ⟨fun _ m s => m = inner ∧ Good m s, fun _ m s => Up m s, Down⟩ inner disk := by
  refine wp_act (wp_ask (fun _ => rfl) hg.down (fun _ => .inr hg)
    fun time emitted disk' heff => ?_)
  obtain ⟨hun, -, hgap⟩ := effect_remove heff
  have hgood : Good inner disk' := by
    refine ⟨hun.numbered hg.1, fun other => ?_⟩
    by_cases ho : other = signal
    · subst ho
      obtain ⟨top, hf, hbelow⟩ := htop
      have hne : top ≠ held.seq := (hbelow held List.mem_cons_self).ne'
      refine ⟨?_, ⟨top, hun.frontier hne hf, fun h hh => hbelow h (List.mem_cons_of_mem _ hh)⟩,
        fun ha => ?_⟩
      · rw [hgap, decide_eq_false hwhy, (hg.2 other).gap]; rfl
      · have hback := (hg.2 other).active ha
        rw [hg.1.frontier_unique hback hf]
        exact hun.frontier hne hf
    · exact (hg.2 other).same (hun.others other ho)
  exact ⟨fun _ _ _ => ⟨rfl, hgood⟩, fun _ => .inr hgood⟩

/-- Taking the front segment off and unlinking it. -/
theorem wp_popFront {why : Unlink} (hwhy : why ≠ .unreadable) (hg : Good inner disk)
    {held : Held} {rest : List Held} (hclosed : (inner.signals signal).closed = held :: rest) :
    (act (.remove why signal held.seq) : Call Inner Unit).wp files
      ⟨fun _ m s => m = inner.update signal (fun q => { q with closed := rest }) ∧ Good m s,
        fun _ m s => Up m s, Down⟩
      (inner.update signal fun q => { q with closed := rest }) disk := by
  have hgood : Good (inner.update signal fun q => { q with closed := rest }) disk :=
    hg.update (fun h hh => by rw [hclosed]; exact List.mem_cons_of_mem _ hh)
      fun ha => ⟨ha, rfl⟩
  refine wp_remove hwhy hgood ?_
  simp only [Inner.update, Function.update_self]
  exact hclosed ▸ (hg.2 signal).topped

theorem keeps_dropSealed : Keeps dropSealed := by
  refine keeps_of_good fun inner disk hg => ?_
  simp only [dropSealed, bind_eq, wp_bind, wp_load]
  cases ho : oldestSealed inner with
  | none => exact .inr hg
  | some oldest =>
    obtain ⟨signal, held⟩ := oldest
    have hpop : (inner.update signal fun q => { q with closed := q.closed.tail }) =
        inner.update signal fun q =>
          { q with closed := (inner.signals signal).closed.tail } := rfl
    simp only [wp_bind, wp_store, wp_load, hpop]
    exact wp_mono (wp_popFront (by decide) hg (closed_of_oldestSealed ho))
      (fun _ _ _ hm => wp_checkedSub (fun _ => Up.counters (.inr hm.2) rfl) fun _ => .inr hm.2)
      (fun _ _ _ hu => hu) fun _ hd => hd

theorem keeps_countRecord (signal : Signal) (plainLen now : ℕ) :
    Keeps (countRecord signal plainLen now) := by
  refine keeps_of_good fun inner disk hg => ?_
  have haged : Good (inner.update signal fun q => { q with
      activeSince := some (q.activeSince.getD now) }) disk :=
    hg.update (fun _ hh => hh) fun ha => ⟨ha, rfl⟩
  simp only [countRecord, bind_eq, wp_bind, wp_load, wp_store]
  refine wp_checkedSub (fun _ => ?_) fun _ => .inr haged
  have hcounted : ∀ written, Good (Inner.update (inner.update signal fun q => { q with
      activeSince := some (q.activeSince.getD now) }) signal fun q => { q with
        back := { q.back with bytes := written } }) disk :=
    fun _ => haged.update (fun _ hh => hh) fun ha => ⟨ha, rfl⟩
  exact Up.counters (.inr (hcounted _)) rfl

theorem wp_commitLoop (signal : Signal) (acked active : ℕ) (closed : List Held)
    (hg : Good inner disk) (hclosed : (inner.signals signal).closed = closed) :
    (commitLoop signal acked active closed).wp files
      ⟨fun _ m s => Up m s, fun _ m s => Up m s, Down⟩ inner disk := by
  induction closed generalizing inner disk with
  | nil => exact .inr hg
  | cons front rest ih =>
    simp only [commitLoop]
    split_ifs
    · exact .inr hg
    simp only [bind_eq, wp_bind, wp_load, wp_store]
    refine wp_mono (wp_popFront (by decide) hg hclosed) (fun _ m s hm => ?_)
      (fun _ _ _ hu => hu) fun _ hd => hd
    obtain ⟨rfl, hgood⟩ := hm
    refine ih hgood ?_
    simp only [Inner.update, Function.update_self]

theorem keeps_commit (signal : Signal) (acked : ℕ) : Keeps (commit signal acked) := by
  refine keeps_of_good fun inner disk hg => ?_
  simp only [commit, bind_eq, wp_bind, wp_load, wp_store]
  exact wp_mono (wp_commitLoop signal acked _ _ hg rfl)
    (fun _ _ _ hu => wp_checkedSub (fun _ => hu.counters rfl) fun _ => hu)
    (fun _ _ _ hu => hu) fun _ hd => hd

theorem keeps_primitives (sender : SenderId) : Primitives sender Up Down where
  writeAll := keeps_writeAll
  roll := keeps_roll sender
  dropSealed := keeps_dropSealed
  countRecord := keeps_countRecord
  commit := keeps_commit

end Running

end Queue

end Obsy
