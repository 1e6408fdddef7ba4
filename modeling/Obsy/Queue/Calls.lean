import Obsy.Queue.Queue

/-!
# What calls are made of

Every call on a running queue is put together from five pieces.  What each of them keeps every
call keeps (`Primitives.command`).
-/

namespace Obsy

namespace Queue

open Machine Machine.Program

open Journal (SenderId)

section Pieces

variable {σ F : Type} {D : Device fileInterface σ F} {P : Inner → σ → Prop} {K : σ → Prop}
  {sender : SenderId}

/-- The pieces of every call that writes no record keep an invariant. -/
structure Upkeep (D : Device fileInterface σ F) (sender : SenderId) (P : Inner → σ → Prop)
    (K : σ → Prop) : Prop where
  roll : ∀ signal, Preserves D P K (roll sender signal)
  dropSealed : Preserves D P K dropSealed
  commit : ∀ signal acked, Preserves D P K (commit signal acked)

namespace Upkeep

theorem dropOldest (h : Upkeep D sender P K) : Preserves D P K (dropOldest sender) :=
  preserves_load fun _ => preserves_ite
    ((preserves_each h.roll _).bind fun _ => h.dropSealed) h.dropSealed

theorem makeRoom (h : Upkeep D sender P K) (limits : QueueLimits) (plainLen fuel : ℕ) :
    Preserves D P K (makeRoom limits sender plainLen fuel) := by
  induction fuel with
  | zero => exact preserves_load fun _ => preserves_ite (preserves_throw _) (preserves_ret _)
  | succ fuel ih =>
    exact preserves_load fun _ => preserves_ite (h.dropOldest.bind fun _ => ih) (preserves_ret _)

theorem sealIfDue (h : Upkeep D sender P K) (due : Signal → Bool) :
    Preserves D P K (sealIfDue sender due) :=
  (preserves_each (fun signal => preserves_ite (h.roll signal) (preserves_ret ())) _).bind
    fun _ => preserves_ret ()

theorem sealAll (h : Upkeep D sender P K) : Preserves D P K (sealAll sender) :=
  (preserves_each h.roll _).bind fun _ => preserves_ret ()

end Upkeep

end Pieces

variable {P : Inner → Disk → Prop} {K : Disk → Prop} {sender : SenderId}

/-- The pieces of every call keep an invariant. -/
structure Primitives (sender : SenderId) (P : Inner → Disk → Prop) (K : Disk → Prop) : Prop
    extends Upkeep files sender P K where
  writeAll : ∀ signal plain, Preserves files P K (writeAll signal plain)
  countRecord : ∀ signal plainLen now, Preserves files P K (countRecord signal plainLen now)

namespace Primitives

theorem writeRecord (h : Primitives sender P K) (limits : QueueLimits) (signal : Signal)
    (pieces : List (List UInt8)) (now fuel : ℕ) :
    Preserves files P K (writeRecord limits sender signal pieces now fuel) := by
  have hwrite : ∀ plainLen bytes, Preserves files P K (do
      Queue.writeAll signal (Bytes.leBytes recordHeaderBytes bytes)
      let _ ← each (Queue.writeAll signal) pieces
      Queue.countRecord signal plainLen now : Call Inner Unit) :=
    fun plainLen bytes => (h.writeAll signal _).bind fun _ =>
      (preserves_each (h.writeAll signal) pieces).bind fun _ => h.countRecord _ _ _
  refine preserves_ite (preserves_throw _) ((h.toUpkeep.makeRoom limits _ fuel).bind fun _ =>
    preserves_load fun inner => ?_)
  exact preserves_ite ((h.roll signal).bind fun _ => hwrite _ _) (hwrite _ _)

/-- **Every call keeps** what the pieces keep. -/
theorem command (h : Primitives sender P K) (limits : QueueLimits) (command : Command) :
    Preserves files P K (command.program limits sender) := by
  cases command with
  | append signal pieces now fuel => exact h.writeRecord limits signal pieces now fuel
  | sealIfDue due => exact h.toUpkeep.sealIfDue due
  | sealAll => exact h.toUpkeep.sealAll
  | dropOldest => exact h.toUpkeep.dropOldest
  | commit signal acked => exact h.commit signal acked

end Primitives

/-! ### Operations under an observer -/

section Observer

variable {ω Mem : Type} {see : ω → (op : FileOp) → Except QueueError op.Res → ω} {m : Mem}
  {disk : Disk} {w : ω}

theorem failure_error {fate : Fate} {op : FileOp} {e : QueueError}
    (h : failure fate op = .error e) : e = .io := by
  cases op <;> first | exact (Except.error.inj h).symm | cases h

theorem answer_error {fate : Fate} {op : FileOp} {e : QueueError}
    (h : answer fate disk op = .error e) : e = .io := by
  cases op with
  | read signal seq =>
    simp only [answer] at h
    split at h
    · cases h
    · exact (Except.error.inj h).symm
  | _ => cases h

theorem files_error {fate : Fate} {op : FileOp} {e : QueueError}
    (h : (files.apply fate disk op).1 = .error e) : e = .io := by
  simp only [files] at h
  split at h
  · exact failure_error h
  · by_cases hfails : fate.fails = true
    · rw [if_pos hfails] at h
      exact failure_error h
    · rw [if_neg hfails] at h
      exact answer_error h

/-- **The rule for one operation** under an observer, for what does not depend on the files. -/
theorem wp_ask_seen {op : FileOp} {Q : op.Res → Mem → Disk × ω → Prop}
    {E : QueueError → Mem → Disk × ω → Prop} {K : Disk × ω → Prop} (hcrash : K (disk, w))
    (hdone : ∀ res disk, Q res m (disk, see w op (.ok res)))
    (hfailed : ∀ disk, E .io m (disk, see w op (.error .io))) :
    (ask op : Call Mem op.Res).wp (files.watch see) ⟨Q, E, K⟩ m (disk, w) := by
  refine ⟨hcrash, fun fate => ?_⟩
  simp only [Device.watch]
  cases hr : (files.apply fate disk op).1 with
  | ok res => exact hdone res _
  | error e =>
    cases files_error hr
    exact hfailed _

/-- An encoder reports its errors itself, and has taken everything when it reports none. -/
theorem files_encode (fate : Fate) (disk : Disk) (signal : Signal) (seq : ℕ)
    (plain : List UInt8) : ∃ encoded : Encoded,
      (files.apply fate disk (.encode signal seq plain)).1 = .ok encoded ∧
        (encoded.ok = true → encoded.accepted = plain.length) := by
  simp only [files]
  split
  · exact ⟨_, rfl, fun h => by cases h⟩
  · by_cases hfails : fate.fails = true
    · rw [if_pos hfails]
      exact ⟨_, rfl, fun h => by cases h⟩
    · rw [if_neg hfails]
      exact ⟨_, rfl, fun _ => rfl⟩

/-- The rule for handing bytes to an encoder. -/
theorem wp_encode_seen {signal : Signal} {seq : ℕ} {plain : List UInt8}
    {Q : Encoded → Mem → Disk × ω → Prop} {E : QueueError → Mem → Disk × ω → Prop}
    {K : Disk × ω → Prop} (hcrash : K (disk, w))
    (hdone : ∀ encoded disk, (encoded.ok = true → encoded.accepted = plain.length) →
      Q encoded m (disk, see w (.encode signal seq plain) (.ok encoded))) :
    (ask (.encode signal seq plain) : Call Mem Encoded).wp (files.watch see) ⟨Q, E, K⟩ m
      (disk, w) := by
  refine ⟨hcrash, fun fate => ?_⟩
  obtain ⟨encoded, hr, hall⟩ := files_encode fate disk signal seq plain
  simp only [Device.watch]
  rw [hr]
  exact hdone encoded _ hall

theorem wp_act_seen {op : FileOp} {Q : Mem → Disk × ω → Prop}
    {E : QueueError → Mem → Disk × ω → Prop} {K : Disk × ω → Prop} (hcrash : K (disk, w))
    (hdone : ∀ res disk, Q m (disk, see w op (.ok res)))
    (hfailed : ∀ disk, E .io m (disk, see w op (.error .io))) :
    (act op : Call Mem Unit).wp (files.watch see) ⟨fun _ m s => Q m s, E, K⟩ m (disk, w) :=
  wp_seq (R := fun _ m s => Q m s) (wp_ask_seen hcrash hdone hfailed) fun _ _ _ hQ => hQ

end Observer

/-! ### The oldest closed segment -/

variable {inner : Inner} {signal : Signal}

theorem mem_sealedFronts {held : Held} (h : (signal, held) ∈ sealedFronts inner) :
    (inner.signals signal).closed = held :: (inner.signals signal).closed.tail := by
  obtain ⟨other, -, ho⟩ := List.mem_filterMap.1 h
  obtain ⟨front, hfront, heq⟩ := Option.map_eq_some_iff.1 ho
  obtain ⟨rfl, rfl⟩ := Prod.mk.inj heq
  exact List.eq_cons_of_mem_head? hfront

/-- The oldest closed segment is its signal's front one. -/
theorem closed_of_oldestSealed {held : Held} (h : oldestSealed inner = some (signal, held)) :
    (inner.signals signal).closed = held :: (inner.signals signal).closed.tail := by
  refine mem_sealedFronts ?_
  simp only [oldestSealed] at h
  cases hf : sealedFronts inner with
  | nil => rw [hf] at h; cases h
  | cons first rest =>
    rw [hf] at h
    have hmem : ∀ (xs : List (Signal × Held)) (best : Signal × Held),
        xs.foldl (fun best x => if x.2.stamp < best.2.stamp then x else best) best ∈
          best :: xs := by
      intro xs
      induction xs with
      | nil => exact fun best => List.mem_cons_self
      | cons x xs ih =>
        intro best
        simp only [List.foldl_cons]
        split_ifs
        · exact List.mem_cons_of_mem _ (ih x)
        · rcases List.mem_cons.1 (ih best) with hb | hb
          · rw [hb]; exact List.mem_cons_self
          · exact List.mem_cons_of_mem _ (List.mem_cons_of_mem _ hb)
    rw [← Option.some.inj h]
    exact hmem rest first

end Queue

end Obsy
