import Obsy.Queue.Arrival

/-!
# Delivering segments

A process that has a queue open takes exports in, closes and drops segments, and has a sender
that offers the oldest closed segment and commits what the far end answers.

* `deliveryMachine`: such a process from the opening on.
* `Running.Sound`: the segments are held in order, a commit unlinks what it covers and nothing
  else, and whatever is unlinked has a reason.
* `soundFrom_iff`: every run from an opening is sound exactly if the files it found were written
  in the order of their numbers.
-/

namespace Obsy

namespace Queue

open Machine Machine.Program

open Journal (SenderId sampleSender)

/-- A process that has the queue open. -/
structure Process where
  /-- The identity it sends under. -/
  sender : SenderId
  inner : Inner
  /-- The segment its sender has offered and not heard about. -/
  inflight : Option (Signal × ℕ)

/-- The files and the process that has them open, until it dies. -/
structure Running where
  disk : Disk
  process : Option Process

/-- `Outcome`: what the far end says of a segment. -/
inductive Answer
  /-- It is stored, and so is everything up to `stored`. -/
  | accepted (stored : ℕ)
  /-- It will never be taken. -/
  | refused
  /-- Not now. -/
  | retry

/-- What the sender commits on an answer. -/
def Answer.committed (seq : ℕ) : Answer → Option ℕ
  | accepted stored => some (max stored seq)
  | refused => some seq
  | retry => none

/-- What happens to the process. -/
inductive Moment
  | call (command : Command) (fates : List Fate)
  /-- The sender reads the oldest closed segment and offers it. -/
  | pick (fates : List Fate)
  /-- The far end answers. -/
  | answer (answer : Answer) (fates : List Fate)
  /-- The sender gives up waiting. -/
  | stop

/-- The process after a call. -/
def Running.after (sender : SenderId) (inflight : Option (Signal × ℕ))
    (o : Outcome Inner Disk QueueError Unit Fate) : Running :=
  match o.ending with
  | .crashed => ⟨o.device, none⟩
  | _ => ⟨o.device, some ⟨sender, o.memory, inflight⟩⟩

/-- The process after its sender has read a segment. -/
def Running.afterRead (p : Process) (signal : Signal) (seq : ℕ)
    (o : Outcome Inner Disk QueueError (List UInt8) Fate) : Running :=
  match o.ending with
  | .done _ => ⟨o.device, some { p with inflight := some (signal, seq) }⟩
  | .failed _ => ⟨o.device, some p⟩
  | .crashed => ⟨o.device, none⟩

def deliveryMachine (limits : QueueLimits) : Machine Running Moment where
  step s e :=
    match s.process with
    | none => none
    | some p =>
      match e with
      | .call command fates => some (.after p.sender p.inflight
          ((command.program limits p.sender).exec files fates p.inner s.disk))
      | .pick fates =>
        match p.inflight, oldestSealed p.inner with
        | none, some (signal, held) => some (.afterRead p signal held.seq
            ((readSegment signal held.seq).exec files fates p.inner s.disk))
        | _, _ => none
      | .answer answer fates =>
        match p.inflight with
        | none => none
        | some (signal, seq) =>
          match answer.committed seq with
          | none => some s
          | some acked => some (.after p.sender none
              ((commit signal acked).exec files fates p.inner s.disk))
      | .stop => some ⟨s.disk, some { p with inflight := none }⟩

/-- Where a process starts: an opening that returned. -/
def opened (zstd : Zstd) (fresh : SenderId) (fates : List Fate) (disk : Disk) : Running :=
  let o := (openQueue zstd fresh).exec files fates () disk
  match o.ending with
  | .done (sender, inner) => ⟨o.device, some ⟨sender, inner, none⟩⟩
  | _ => ⟨o.device, none⟩

/-- Why a step may unlink a segment: an append that has no room, a drop, a commit that covers
it, or an answer to it or beyond it. -/
def Explained (limits : QueueLimits) (p : Process) (signal : Signal) (seq : ℕ) : Moment → Prop
  | .call (.append _ pieces _ _) _ => limits.maxBytes <
      p.inner.stats.queuedBytes + (recordHeaderBytes + (pieces.map List.length).sum)
  | .call .dropOldest _ => True
  | .call (.commit committed acked) _ => signal = committed ∧ seq ≤ acked
  | .answer (.accepted stored) _ =>
    ∃ offered, p.inflight = some (signal, offered) ∧ (seq = offered ∨ seq ≤ stored)
  | .answer .refused _ => p.inflight = some (signal, seq)
  | _ => False

/-- What is promised of a running process. -/
structure Running.Sound (limits : QueueLimits) (s : Running) : Prop where
  ordered : ∀ p, s.process = some p → p.inner.Ordered
  commits : ∀ p, s.process = some p → ∀ signal acked fates,
    ((commit signal acked).exec files fates p.inner s.disk).ending = .done () → ∀ other seq,
      Unlinked s.disk ((commit signal acked).exec files fates p.inner s.disk).device other seq ↔
        other = signal ∧ ∃ held ∈ (p.inner.signals signal).closed, held.seq = seq ∧ seq ≤ acked
  explained : ∀ p, s.process = some p → ∀ e s', (deliveryMachine limits).step s e = some s' →
    ∀ signal seq, Unlinked s.disk s'.disk signal seq → Explained limits p signal seq e

/-- Every run from every opening of these files is sound, until a signal's numbers start over. -/
def SoundFrom (zstd : Zstd) (limits : QueueLimits) (disk : Disk) : Prop :=
  ∀ fresh fates moments t,
    (deliveryMachine limits).run (opened zstd fresh fates disk) moments = some t →
    ¬ t.disk.Restarted (opened zstd fresh fates disk).disk.created.length → t.Sound limits

/-! ### What a step keeps -/

/-- The invariant of a running process: its segments are in order, and its sender has offered
none that is behind the front. -/
def Running.Tended (since : ℕ) (s : Running) : Prop :=
  ∀ p, s.process = some p → ∃ floor, InOrder since floor p.inner s.disk ∧
    ∀ signal seq, p.inflight = some (signal, seq) → seq ≤ floor signal

variable {zstd : Zstd} {limits : QueueLimits} {disk : Disk} {s s' : Running} {p : Process}
  {since : ℕ} {floor : Signal → ℕ} {inner : Inner} {signal : Signal}

theorem tended_after {inflight : Option (Signal × ℕ)} {sender : SenderId}
    {o : Outcome Inner Disk QueueError Unit Fate}
    (h : o.Meets ⟨fun _ m s => InOrder since floor m s, fun _ m s => InOrder since floor m s,
      fun _ => True⟩)
    (hinflight : ∀ signal seq, inflight = some (signal, seq) → seq ≤ floor signal) :
    (Running.after sender inflight o).Tended since := by
  intro p hp
  unfold Outcome.Meets at h
  unfold Running.after at hp ⊢
  cases ho : o.ending <;> rw [ho] at h hp <;> cases hp
  · exact ⟨floor, h, hinflight⟩
  · exact ⟨floor, h, hinflight⟩

/-- The front segment is the lowest of its signal. -/
theorem above_front {held : Held} (h : InOrder since floor inner disk)
    (hclosed : (inner.signals signal).closed = held :: (inner.signals signal).closed.tail) :
    InOrder since (Function.update (fun _ => 0) signal held.seq) inner disk := by
  refine ⟨h.1, h.2.imp_right fun ho => ⟨ho.ordered, fun other x hx => ?_, ho.small⟩⟩
  by_cases hother : other = signal
  · subst hother
    have hordered := ho.ordered other
    unfold SignalQueue.Ordered at hordered
    rw [Function.update_self]
    rw [SignalQueue.segments, hclosed, List.cons_append] at hx hordered
    rcases List.mem_cons.1 hx with rfl | hx
    · exact le_rfl
    · exact ((List.pairwise_cons.1 hordered).1 x hx).le
  · rw [Function.update_of_ne hother]
    exact Nat.zero_le _

theorem tended_afterRead {seq : ℕ}
    {o : Outcome Inner Disk QueueError (List UInt8) Fate} {floor' : Signal → ℕ}
    (h : o.Meets ⟨fun _ _ s => InOrder since floor p.inner s ∧ InOrder since floor' p.inner s,
      fun _ _ s => InOrder since floor p.inner s ∧ InOrder since floor' p.inner s, fun _ => True⟩)
    (hinflight : ∀ signal seq, p.inflight = some (signal, seq) → seq ≤ floor signal)
    (hfloor : seq ≤ floor' signal) : (Running.afterRead p signal seq o).Tended since := by
  intro q hq
  unfold Outcome.Meets at h
  unfold Running.afterRead at hq ⊢
  cases ho : o.ending <;> rw [ho] at h hq <;> cases hq
  · refine ⟨floor', h.2, fun other n hn => ?_⟩
    cases hn
    exact hfloor
  · exact ⟨floor, h.1, hinflight⟩

/-- Reading leaves the order as it is. -/
theorem wp_readSegment {floor' : Signal → ℕ} {seq : ℕ} (h : InOrder since floor inner disk)
    (h' : InOrder since floor' inner disk) : (readSegment signal seq).wp files
      ⟨fun _ _ s => InOrder since floor inner s ∧ InOrder since floor' inner s,
        fun _ _ s => InOrder since floor inner s ∧ InOrder since floor' inner s,
        fun _ => True⟩ inner disk :=
  preserves_ask (P := fun _ s => InOrder since floor inner s ∧ InOrder since floor' inner s)
    (fun _ _ _ _ hcs h => ⟨h.1.created hcs, h.2.created hcs⟩) _ inner disk ⟨h, h'⟩

/-- **The step lemma.** -/
theorem tended_step {e : Moment} (h : s.Tended since)
    (hstep : (deliveryMachine limits).step s e = some s') : s'.Tended since := by
  obtain ⟨disk, process⟩ := s
  cases process with
  | none => cases hstep
  | some p =>
    obtain ⟨floor, hin, hinflight⟩ := h p rfl
    cases e with
    | call command fates =>
      cases hstep
      exact tended_after (exec_of_wp ((ordered_primitives p.sender).command limits command p.inner
        disk hin) fates) hinflight
    | pick fates =>
      simp only [deliveryMachine] at hstep
      cases hi : p.inflight with
      | some offered => rw [hi] at hstep; cases hstep
      | none =>
        rw [hi] at hstep
        cases ho : oldestSealed p.inner with
        | none => rw [ho] at hstep; cases hstep
        | some oldest =>
          obtain ⟨signal, held⟩ := oldest
          rw [ho] at hstep
          cases hstep
          exact tended_afterRead (exec_of_wp (wp_readSegment hin
            (above_front hin (closed_of_oldestSealed ho))) fates) hinflight
            (by rw [Function.update_self])
    | answer answer fates =>
      simp only [deliveryMachine] at hstep
      cases hi : p.inflight with
      | none => rw [hi] at hstep; cases hstep
      | some offered =>
        obtain ⟨signal, seq⟩ := offered
        rw [hi] at hstep
        cases hc : answer.committed seq with
        | none => simp only [hc] at hstep; cases hstep; exact h
        | some acked =>
          simp only [hc] at hstep
          cases hstep
          exact tended_after (exec_of_wp (ordered_commit signal acked p.inner disk hin) fates)
            fun _ _ hn => by cases hn
    | stop =>
      cases hstep
      intro q hq
      cases hq
      exact ⟨floor, hin, fun _ _ hn => by cases hn⟩

/-! ### Why segments are unlinked -/

theorem device_after (sender : SenderId) (inflight : Option (Signal × ℕ))
    (o : Outcome Inner Disk QueueError Unit Fate) :
    (Running.after sender inflight o).disk = o.device := by
  unfold Running.after
  cases o.ending <;> rfl

theorem device_afterRead (p : Process) (signal : Signal) (seq : ℕ)
    (o : Outcome Inner Disk QueueError (List UInt8) Fate) :
    (Running.afterRead p signal seq o).disk = o.device := by
  unfold Running.afterRead
  cases o.ending <;> rfl

/-- What holds of the device alone in every ending holds of it. -/
theorem meets_device {α : Type} {S : Disk → Prop} {o : Outcome Inner Disk QueueError α Fate}
    (h : o.Meets ⟨fun _ _ s => S s, fun _ _ s => S s, S⟩) : S o.device := by
  unfold Outcome.Meets at h
  cases ho : o.ending <;> rw [ho] at h <;> exact h

theorem StillThere.refl (disk : Disk) : StillThere disk disk := fun _ _ h => h

theorem StillThere.not_unlinked {disk' : Disk} {seq : ℕ} (h : StillThere disk disk') :
    ¬ Unlinked disk disk' signal seq := fun hu => hu.2 (h signal seq hu.1)

/-- However a commit ends, it has unlinked only segments that it covers. -/
theorem unlinked_commit {acked seq : ℕ} {other : Signal} {fates : List Fate}
    (hordered : inner.Ordered)
    (h : Unlinked disk ((commit signal acked).exec files fates inner disk).device other seq) :
    other = signal ∧ ∃ held ∈ (inner.signals signal).closed, held.seq = seq ∧ seq ≤ acked := by
  have honly := meets_device (exec_of_wp (wp_mono (wp_commit_unlinks signal acked inner disk)
    (fun _ _ _ h => h.1) (fun _ _ _ h => h) fun _ h => h) fates)
  obtain ⟨hother, held, hheld, hseq⟩ := honly.2 other seq h
  obtain ⟨hclosed, hle⟩ := (mem_takenBy hordered).1 hheld
  exact ⟨hother, held, hclosed, hseq, hseq ▸ hle⟩

/-- **A commit that returns** unlinks exactly the closed segments it covers. -/
theorem unlinked_commit_iff {acked seq : ℕ} {other : Signal} {fates : List Fate}
    (hordered : inner.Ordered)
    (hdone : ((commit signal acked).exec files fates inner disk).ending = .done ()) :
    Unlinked disk ((commit signal acked).exec files fates inner disk).device other seq ↔
      other = signal ∧ ∃ held ∈ (inner.signals signal).closed, held.seq = seq ∧ seq ≤ acked := by
  refine ⟨unlinked_commit hordered, fun ⟨hother, held, hclosed, hseq, hle⟩ => ?_⟩
  have hall := exec_of_wp (wp_commit_unlinks signal acked inner disk) fates
  unfold Outcome.Meets at hall
  rw [hdone] at hall
  subst hother hseq
  exact hall.2 held ((mem_takenBy hordered).2 ⟨hclosed, hle⟩)

/-- **Whatever a step unlinks has a reason.** -/
theorem explained_of_tended {e : Moment} {seq : ℕ}
    (hordered : p.inner.Ordered)
    (hinflight : ∀ signal offered, p.inflight = some (signal, offered) →
      ∀ held ∈ (p.inner.signals signal).closed, offered ≤ held.seq)
    (hstep : (deliveryMachine limits).step ⟨disk, some p⟩ e = some s')
    (h : Unlinked disk s'.disk signal seq) : Explained limits p signal seq e := by
  cases e with
  | call command fates =>
    cases hstep
    rw [device_after] at h
    cases command with
    | append other pieces now fuel =>
      refine Nat.lt_of_not_le fun hfits => ?_
      exact (meets_device (exec_of_wp (wp_append_fits limits p.sender other pieces now fuel hfits
        (StillThere.refl disk)) fates)).not_unlinked h
    | sealIfDue due =>
      exact (meets_device (exec_of_wp (unlinksNothing_sealIfDue p.sender due p.inner disk
        (StillThere.refl disk)) fates)).not_unlinked h
    | sealAll =>
      exact (meets_device (exec_of_wp (unlinksNothing_sealAll p.sender p.inner disk
        (StillThere.refl disk)) fates)).not_unlinked h
    | dropOldest => trivial
    | commit committed acked =>
      obtain ⟨rfl, held, -, -, hle⟩ := unlinked_commit hordered h
      exact ⟨rfl, hle⟩
  | pick fates =>
    simp only [deliveryMachine] at hstep
    cases hi : p.inflight with
    | some offered => rw [hi] at hstep; cases hstep
    | none =>
      rw [hi] at hstep
      cases ho : oldestSealed p.inner with
      | none => rw [ho] at hstep; cases hstep
      | some oldest =>
        obtain ⟨other, held⟩ := oldest
        rw [ho] at hstep
        cases hstep
        rw [device_afterRead] at h
        have hread : UnlinksNothing disk (readSegment other held.seq) :=
          unlinksNothing_ask (by trivial)
        exact absurd h (meets_device (exec_of_wp (hread p.inner disk (StillThere.refl disk))
          fates)).not_unlinked
  | answer answer fates =>
    simp only [deliveryMachine] at hstep
    cases hi : p.inflight with
    | none => rw [hi] at hstep; cases hstep
    | some pair =>
      obtain ⟨other, offered⟩ := pair
      rw [hi] at hstep
      cases answer with
      | retry =>
        cases hstep
        exact absurd h (StillThere.refl disk).not_unlinked
      | refused =>
        cases hstep
        rw [device_after] at h
        obtain ⟨rfl, held, hclosed, rfl, hle⟩ := unlinked_commit hordered h
        -- Nothing is held below the segment that was offered.
        have heq := le_antisymm (hinflight signal offered hi held hclosed) hle
        exact heq ▸ hi
      | accepted stored =>
        cases hstep
        rw [device_after] at h
        obtain ⟨rfl, held, hclosed, rfl, hle⟩ := unlinked_commit hordered h
        refine ⟨offered, hi, ?_⟩
        rcases le_max_iff.1 hle with hle | hle
        · exact .inr hle
        · exact .inl (le_antisymm hle (hinflight signal offered hi held hclosed))
  | stop =>
    cases hstep
    exact absurd h (StillThere.refl disk).not_unlinked

theorem Running.Tended.sound (h : s.Tended since) (hnot : ¬ s.disk.Restarted since) :
    s.Sound limits := by
  have hkept : ∀ p, s.process = some p → ∃ floor, p.inner.OrderedAbove floor ∧
      ∀ signal seq, p.inflight = some (signal, seq) → seq ≤ floor signal := by
    intro p hp
    obtain ⟨floor, hin, hinflight⟩ := h p hp
    exact ⟨floor, hin.2.resolve_left hnot, hinflight⟩
  refine ⟨fun p hp => ?_, fun p hp signal acked fates hdone other seq => ?_,
    fun p hp e s' hstep signal seq hun => ?_⟩
  · obtain ⟨floor, ho, -⟩ := hkept p hp
    exact ho.ordered
  · obtain ⟨floor, ho, -⟩ := hkept p hp
    exact unlinked_commit_iff ho.ordered hdone
  · obtain ⟨floor, ho, hinflight⟩ := hkept p hp
    obtain ⟨disk, process⟩ := s
    cases hp
    refine explained_of_tended ho.ordered (fun signal offered hi held hclosed => ?_) hstep hun
    exact (hinflight signal offered hi).trans
      (ho.above signal held (List.mem_append_left _ hclosed))

/-! ### Runs from an opening -/

theorem nextNumber_lt (listed : List Listed) : nextNumber listed < u64Wrap := by
  unfold nextNumber
  cases listed.getLast? with
  | none => decide
  | some last => exact Nat.mod_lt _ (by decide)

theorem small_openedInner {recovered : List Recovered} (h : RecoveredOf zstd disk recovered)
    (signal : Signal) : ((openedInner recovered).signals signal).back.seq < u64Wrap := by
  obtain ⟨r, hr, rfl, hnext⟩ := exists_nextOf h.1 signal
  show nextOf recovered r.signal < u64Wrap
  rw [hnext, (h.2 r hr).next]
  exact nextNumber_lt _

/-- An opening that returns has recovered the directories. -/
theorem opened_process {fresh : SenderId} {fates : List Fate}
    (hp : (opened zstd fresh fates disk).process = some p) :
    p.inflight = none ∧ ∃ recovered, RecoveredOf zstd disk recovered ∧
      p.inner = openedInner recovered := by
  have h := exec_of_wp_restrict (wp_openQueue_recovered (A := fun _ => True) zstd fresh disk)
    fates fun _ _ => trivial
  unfold Outcome.Meets at h
  simp only [opened] at hp
  cases ho : ((openQueue zstd fresh).exec files fates () disk).ending with
  | done result =>
    rw [ho] at h hp
    cases hp
    exact ⟨rfl, h⟩
  | failed e => rw [ho] at hp; cases hp
  | crashed => rw [ho] at hp; cases hp

/-- There is an opening that returns. -/
theorem exists_opened (zstd : Zstd) (fresh : SenderId) (disk : Disk) :
    ∃ fates p, (opened zstd fresh fates disk).process = some p := by
  have hfine : ¬ SomeFails (Eq (Fate.fine 0 [])) := by
    rintro ⟨fate, rfl, hfails⟩
    cases hfails
  obtain ⟨fates, result, hdone, -⟩ := exists_done ⟨Fate.fine 0 [], rfl⟩
    (wp_mono (wp_openQueue_recovered (A := Eq (Fate.fine 0 [])) zstd fresh disk) (fun _ _ _ h => h)
      (fun _ _ _ h => hfine h) fun _ h => h)
  refine ⟨fates, ⟨result.1, result.2, none⟩, ?_⟩
  simp only [opened, hdone]

/-- **When deliveries are sound**: in every run from an opening the segments are held in order,
commits unlink what they cover and nothing is unlinked without a reason, exactly if the files
the opening keeps were written in the order of their numbers and the next number is above
them. -/
theorem soundFrom_iff (zstd : Zstd) (limits : QueueLimits) (disk : Disk) :
    SoundFrom zstd limits disk ↔ ∀ signal, WrittenInOrder zstd (disk.dirs signal) := by
  constructor
  · intro h
    obtain ⟨fates, p, hp⟩ := exists_opened zstd sampleSender disk
    obtain ⟨-, recovered, hrecovered, hinner⟩ := opened_process hp
    have hsound := h sampleSender fates [] _ rfl (by
      rintro ⟨c, hc, -⟩
      rw [List.drop_length] at hc
      cases hc)
    exact (ordered_openedInner_iff hrecovered).1 (hinner ▸ hsound.ordered p hp)
  · intro h fresh fates moments t hrun hnot
    refine Running.Tended.sound (run_invariant (P := Running.Tended _)
      (fun _ _ _ htended hstep => tended_step htended hstep) ?_ hrun) hnot
    intro p hp
    obtain ⟨hinflight, recovered, hrecovered, hinner⟩ := opened_process hp
    refine ⟨fun _ => 0, ⟨le_rfl, .inr ⟨?_, fun _ _ _ => Nat.zero_le _, fun signal => ?_⟩⟩,
      fun _ _ hn => by rw [hinflight] at hn; cases hn⟩
    · rw [hinner]
      exact (ordered_openedInner_iff hrecovered).2 h
    · rw [hinner]
      exact small_openedInner hrecovered signal

/-- Two segments of the logs, of which the first was written last. -/
def misdated : Disk :=
  { Disk.empty with
    identity := some sampleSender
    dirs := Function.update (fun _ => Dir.empty) .logs
      ((Dir.empty.put ⟨1, [1, 0, 0, 0, 9], 6⟩).put ⟨2, [1, 0, 0, 0, 8], 4⟩) }

/-- **A segment is lost**: the sender offers the second segment first, and when the far end
refuses that one the first is unlinked with it. -/
theorem misdated_unsound : ¬ SoundFrom sampleZstd ⟨100, 50⟩ misdated := by
  intro h
  have hruns : ((deliveryMachine ⟨100, 50⟩).run
      (opened sampleZstd sampleSender (List.replicate 40 (Fate.fine 9 [])) misdated)
      [.pick [Fate.fine 9 []]]).map (fun t => (t.process.map (·.inflight),
        decide (t.disk.Restarted (opened sampleZstd sampleSender
          (List.replicate 40 (Fate.fine 9 [])) misdated).disk.created.length),
        (t.disk.dirs .logs).seqs, ((deliveryMachine ⟨100, 50⟩).step t
          (.answer .refused (List.replicate 2 (Fate.fine 9 [])))).map fun t' =>
            (t'.disk.dirs .logs).seqs)) =
      some (some (some (.logs, 2)), false, [1, 2, 3], some [3]) := by decide +kernel
  obtain ⟨t, hrun, ht⟩ := Option.map_eq_some_iff.1 hruns
  obtain ⟨hinflight, hnot, hbefore, hafter⟩ : _ ∧ _ ∧ _ ∧ _ := by simpa using ht
  obtain ⟨p, hp, hoffered⟩ := hinflight
  obtain ⟨t', hstep, hleft⟩ := hafter
  have hexplained : p.inflight = some (.logs, 1) :=
    (h sampleSender _ _ t hrun hnot).explained p hp _ t' hstep .logs 1
      ⟨by rw [hbefore]; decide, by rw [hleft]; decide⟩
  rw [hoffered] at hexplained
  exact absurd hexplained (by decide)

end Queue

end Obsy
