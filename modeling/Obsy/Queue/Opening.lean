import Obsy.Queue.Numbering

/-!
# Opening a queue

`Queue::open` takes the numbers of the next segments from the listings, before it unlinks
anything, and creates the next segments only when all three directories are recovered.

* `wp_recover`: recovering one directory leaves the others alone, and the next number is above
  all that were created.
* `wp_openQueue`: an opening that returns gives a queue with the running invariant; one that does
  not may leave signals in the gap between an unlinked last segment and its next one.
* `created_increasing`: segment numbers grow in every run in which no opening starts from such a
  gap.
-/

namespace Obsy

namespace Queue

open Machine Machine.Program

open Journal (SenderId sampleSender)

/-! ### Recovering a directory -/

/-- The invariant of the directory while an opening works on it: the highest number is on disk
for every signal outside the gap. -/
def Opening (disk : Disk) : Prop :=
  disk.Exhausted ∨
    disk.Numbered ∧ ∀ signal, disk.gap signal = true ∨ disk.Bounded signal

/-- Recovery has changed one signal's directory alone, and created nothing. -/
structure Touched (disk₀ : Disk) (signal : Signal) (disk : Disk) : Prop where
  numbered : disk.Numbered
  created : disk.createdSeqs signal = disk₀.createdSeqs signal
  bounded : disk.gap signal = true ∨ disk.Bounded signal
  others : ∀ other, other ≠ signal → disk₀.Same disk other

variable {disk₀ disk disk' : Disk} {signal : Signal} {Mem : Type} {m : Mem}

theorem Disk.Same.trans {disk₁ disk₂ disk₃ : Disk} (h : disk₁.Same disk₂ signal)
    (h' : disk₂.Same disk₃ signal) : disk₁.Same disk₃ signal :=
  ⟨h'.created.trans h.created, h'.gap.trans h.gap, fun n => (h'.seqs n).trans (h.seqs n)⟩

theorem Disk.Same.refl (disk : Disk) (signal : Signal) : disk.Same disk signal :=
  ⟨rfl, rfl, fun _ => Iff.rfl⟩

theorem Touched.quiet (h : Touched disk₀ signal disk) (hq : disk.Quiet disk') :
    Touched disk₀ signal disk' where
  numbered := Disk.numbered_of_same hq.same h.numbered
  created := (hq.same signal).created.trans h.created
  bounded := h.bounded.imp (fun hg => (hq.same signal).gap.trans hg) (hq.same signal).bounded
  others other ho := (h.others other ho).trans (hq.same other)

theorem Touched.unlinks {seq : ℕ} (h : Touched disk₀ signal disk)
    (hu : disk.Unlinks disk' signal seq) (hgap : disk'.gap signal = true) :
    Touched disk₀ signal disk' where
  numbered := hu.numbered h.numbered
  created := hu.created.trans h.created
  bounded := .inl hgap
  others other ho := (h.others other ho).trans (hu.others other ho)

/-- Quiet operations of a recovery. -/
theorem wp_touched {op : FileOp} (hop : op.IsQuiet) (h : Touched disk₀ signal disk) :
    (act op : Call Mem Unit).wp files
      ⟨fun _ _ s => Touched disk₀ signal s, fun _ _ s => Touched disk₀ signal s,
        Touched disk₀ signal⟩ m disk :=
  wp_act_quiet (P := fun _ s => Touched disk₀ signal s) hop h (fun _ h => h)
    fun _ hq => h.quiet hq

theorem wp_removeUnreadable {seq : ℕ} (h : Touched disk₀ signal disk) :
    (removeUnreadable signal seq : Call Mem (Option ℕ)).wp files
      ⟨fun _ _ s => Touched disk₀ signal s, fun _ _ s => Touched disk₀ signal s,
        Touched disk₀ signal⟩ m disk := by
  refine wp_seq (R := fun _ _ s => Touched disk₀ signal s)
    (wp_act (wp_ask (fun _ => rfl) h (fun _ => h) fun time emitted disk' heff => ?_))
    fun _ m s hs => wp_seq (wp_touched (by trivial) hs) fun _ _ _ hs => hs
  obtain ⟨hun, -, hgap⟩ := effect_remove heff
  have hun' := h.unlinks hun hgap
  exact ⟨fun _ _ _ => hun', fun _ => hun'⟩

/-- A segment that recovery is about to close. -/
def Closing (disk₀ : Disk) (signal : Signal) (seq : ℕ) (disk : Disk) : Prop :=
  Touched disk₀ signal disk ∧ seq ∈ (disk.dirs signal).seqs

theorem Closing.quiet {seq : ℕ} (h : Closing disk₀ signal seq disk) (hq : disk.Quiet disk') :
    Closing disk₀ signal seq disk' :=
  ⟨h.1.quiet hq, (hq.seqs signal seq).2 h.2⟩

theorem wp_closing {op : FileOp} {seq : ℕ} (hop : op.IsQuiet)
    (h : Closing disk₀ signal seq disk) : (ask op : Call Mem op.Res).wp files
      ⟨fun _ _ s => Closing disk₀ signal seq s, fun _ _ s => Touched disk₀ signal s,
        Touched disk₀ signal⟩ m disk :=
  wp_mono (wp_quiet (P := fun _ s => Closing disk₀ signal seq s) hop h (fun _ h => h)
    fun _ hq => h.quiet hq) (fun _ _ _ hc => hc) (fun _ _ _ hc => hc.1) fun _ hc => hc.1

theorem wp_rewrite {seq : ℕ} {content : List UInt8} (h : Closing disk₀ signal seq disk) :
    (rewrite signal seq content : Call Mem (Option ℕ)).wp files
      ⟨fun _ _ s => Touched disk₀ signal s, fun _ _ s => Touched disk₀ signal s,
        Touched disk₀ signal⟩ m disk := by
  simp only [rewrite, bind_eq]
  refine wp_seq (wp_act (wp_closing (by trivial) h)) fun _ m s hs => ?_
  refine wp_seq (wp_act (wp_closing (by trivial) hs)) fun _ m s hs => ?_
  refine wp_seq (R := fun _ _ s => Touched disk₀ signal s)
    (wp_act (wp_ask (fun _ => rfl) hs.1 (fun _ => hs.1) fun time emitted disk' heff => ?_))
    fun _ m s hs => wp_seq (wp_touched (by trivial) hs) fun _ _ _ hs => hs
  have hrenamed := hs.1.quiet (effect_renameTemporary hs.2 heff)
  exact ⟨fun _ _ _ => hrenamed, fun _ => hrenamed⟩

theorem wp_reseal (zstd : Zstd) {seq : ℕ} (h : Closing disk₀ signal seq disk) :
    (reseal zstd signal seq : Call Mem (Option ℕ)).wp files
      ⟨fun _ _ s => Touched disk₀ signal s, fun _ _ s => Touched disk₀ signal s,
        Touched disk₀ signal⟩ m disk := by
  simp only [reseal, bind_eq]
  refine wp_seq (wp_closing (by trivial) h) fun metadata m s hs => ?_
  split_ifs
  · exact wp_removeUnreadable hs.1
  refine wp_seq (wp_closing (by trivial) hs) fun content m s hs => ?_
  rcases resealed zstd content with - | - | ⟨byte, plain⟩
  · exact hs.1
  · exact wp_removeUnreadable hs.1
  · exact wp_rewrite hs

/-! ### Listings -/

theorem mem_seqs_iff_listing {dir : Dir} {n : ℕ} :
    n ∈ dir.seqs ↔ ∃ file ∈ listing dir, file.seq = n := by
  simp only [Dir.seqs, listing, List.mem_map]
  constructor
  · rintro ⟨file, hfile, rfl⟩
    exact ⟨_, ⟨file, hfile, rfl⟩, rfl⟩
  · rintro ⟨_, ⟨file, hfile, rfl⟩, rfl⟩
    exact ⟨file, hfile, rfl⟩

theorem pairwise_listing (dir : Dir) : (listing dir).Pairwise (·.seq < ·.seq) :=
  List.pairwise_map.2 dir.sorted

/-- In a listing the last file has the highest number. -/
theorem lt_last {listed : List Listed} (h : listed.Pairwise (·.seq < ·.seq)) {last : Listed}
    (hlast : listed.getLast? = some last) : ∀ file ∈ listed.dropLast, file.seq < last.seq := by
  intro file hfile
  have hsplit := List.dropLast_append_getLast? last hlast
  rw [← hsplit] at h
  exact (List.pairwise_append.1 h).2.2 file hfile last (List.mem_singleton.2 rfl)

theorem le_last {listed : List Listed} (h : listed.Pairwise (·.seq < ·.seq)) {last : Listed}
    (hlast : listed.getLast? = some last) : ∀ file ∈ listed, file.seq ≤ last.seq := by
  intro file hfile
  rw [← List.dropLast_append_getLast? last hlast, List.mem_append, List.mem_singleton] at hfile
  rcases hfile with hfile | rfl
  · exact (lt_last h hlast file hfile).le
  · exact le_rfl

/-- The next number is above all that were created. -/
theorem created_lt_nextNumber (hn : disk.Numbered) (he : ¬ disk.Exhausted)
    (hb : disk.Bounded signal) :
    ∀ c ∈ disk.createdSeqs signal, c < nextNumber (listing (disk.dirs signal)) := by
  intro c hc
  obtain ⟨d, hd, hcd⟩ := hb c hc
  obtain ⟨file, hfile, rfl⟩ := mem_seqs_iff_listing.1 hd
  cases hlast : (listing (disk.dirs signal)).getLast? with
  | none => rw [List.getLast?_eq_none_iff.1 hlast] at hfile; cases hfile
  | some last =>
    have hle := le_last (pairwise_listing _) hlast file hfile
    have hmem := mem_seqs_iff_listing.2 ⟨last, List.mem_of_getLast? hlast, rfl⟩
    rw [nextNumber, hlast]
    simp only [Nat.mod_eq_of_lt (hn.succ_lt he hmem)]
    omega

/-- What was recovered of a directory is below the number of its next segment. -/
structure Recovered.Above (r : Recovered) (disk : Disk) : Prop where
  created : ∀ c ∈ disk.createdSeqs r.signal, c < r.next
  files : ∀ file ∈ r.files, file.seq < r.next

theorem Recovered.Above.same {r : Recovered} (h : r.Above disk)
    (hs : disk.Same disk' r.signal) : r.Above disk' :=
  ⟨by rw [hs.created]; exact h.created, h.files⟩

/-- A directory that recovery is about to list. -/
def Listing (disk₀ : Disk) (signal : Signal) (disk : Disk) : Prop :=
  Touched disk₀ signal disk ∧ disk.Bounded signal ∧ ¬ disk.Exhausted

theorem Listing.quiet (h : Listing disk₀ signal disk) (hq : disk.Quiet disk') :
    Listing disk₀ signal disk' := by
  refine ⟨h.1.quiet hq, (hq.same signal).bounded h.2.1, fun he => h.2.2 ?_⟩
  rwa [Disk.Exhausted, hq.created] at he

theorem wp_listing (h : Listing disk₀ signal disk) :
    (ask (.list signal) : Call Mem (List Listed)).wp files
      ⟨fun listed _ s => Listing disk₀ signal s ∧ listed = listing (s.dirs signal),
        fun _ _ s => Touched disk₀ signal s, Touched disk₀ signal⟩ m disk := by
  refine wp_ask (fun _ => rfl) h.1 (fun _ => h.1) fun time emitted disk' heff => ?_
  cases heff
  refine ⟨fun _ listed hl => ⟨h, ?_⟩, fun _ => h.1⟩
  cases hl
  rfl

/-- **Recovering one directory** touches no other, and what it finds is below the next number. -/
theorem wp_recover (zstd : Zstd) (h : Listing disk₀ signal disk) :
    (recover zstd signal).wp files
      ⟨fun r _ s => r.signal = signal ∧ Touched disk₀ signal s ∧ r.Above s,
        fun _ _ s => Touched disk₀ signal s, Touched disk₀ signal⟩ () disk := by
  have hquiet : ∀ {op : FileOp} {m : Unit} {disk : Disk}, op.IsQuiet →
      Listing disk₀ signal disk → (act op : Call Unit Unit).wp files
        ⟨fun _ _ s => Listing disk₀ signal s, fun _ _ s => Touched disk₀ signal s,
          Touched disk₀ signal⟩ m disk :=
    fun hop h => wp_mono (wp_act_quiet (P := fun _ s => Listing disk₀ signal s) hop h
      (fun _ h => h) fun _ hq => h.quiet hq) (fun _ _ _ h => h) (fun _ _ _ h => h.1)
      fun _ h => h.1
  simp only [recover, bind_eq]
  refine wp_seq (hquiet (by trivial) h) fun _ _ s h => ?_
  refine wp_seq (hquiet (by trivial) h) fun _ _ s h => ?_
  refine wp_seq (wp_listing h) fun listed _ s ⟨h, hlisted⟩ => ?_
  subst hlisted
  have hcreated := created_lt_nextNumber h.1.numbered h.2.2 h.2.1
  cases hlast : (listing (s.dirs signal)).getLast? with
  | none => exact ⟨rfl, h.1, hcreated, fun _ hfile => by cases hfile⟩
  | some last =>
    have hmem := mem_seqs_iff_listing.2 ⟨last, List.mem_of_getLast? hlast, rfl⟩
    have hnext : nextNumber (listing (s.dirs signal)) = last.seq + 1 := by
      rw [nextNumber, hlast]
      exact Nat.mod_eq_of_lt (h.1.numbered.succ_lt h.2.2 hmem)
    have hfiles : ∀ file ∈ (listing (s.dirs signal)).dropLast,
        file.seq < nextNumber (listing (s.dirs signal)) := by
      intro file hfile
      have hlt := lt_last (pairwise_listing _) hlast file hfile
      omega
    refine wp_seq (wp_reseal zstd ⟨h.1, hmem⟩) fun resealed _ t ht => ?_
    have hcreated' : ∀ c ∈ t.createdSeqs signal,
        c < nextNumber (listing (s.dirs signal)) := by
      rw [ht.created, ← h.1.created]
      exact hcreated
    cases resealed with
    | none => exact ⟨rfl, ht, hcreated', hfiles⟩
    | some bytes =>
      refine ⟨rfl, ht, hcreated', fun file hfile => ?_⟩
      rcases List.mem_append.1 hfile with hfile | hfile
      · exact hfiles file hfile
      · rw [List.mem_singleton.1 hfile, hnext]
        exact Nat.lt_succ_self _

/-! ### The three directories -/

/-- Between two recoveries: nothing of the signals to come has been touched. -/
structure Recovering (done : List Recovered) (todo : List Signal) (disk : Disk) : Prop where
  numbered : disk.Numbered
  bounded : ∀ signal, disk.gap signal = true ∨ disk.Bounded signal
  untouched : ∀ signal ∈ todo, disk.Bounded signal
  above : ∀ r ∈ done, r.Above disk
  signals : done.map (·.signal) ++ todo = Signal.all

theorem nodup_signals : Signal.all.Nodup := by decide

theorem Touched.bounded_of (h : Touched disk signal disk')
    (hb : ∀ signal, disk.gap signal = true ∨ disk.Bounded signal) (other : Signal) :
    disk'.gap other = true ∨ disk'.Bounded other := by
  by_cases ho : other = signal
  · exact ho ▸ h.bounded
  · exact (hb other).imp (fun hg => (h.others other ho).gap.trans hg) (h.others other ho).bounded

/-- One more directory is recovered. -/
theorem Recovering.step {done : List Recovered} {todo : List Signal} {r : Recovered}
    (h : Recovering done (signal :: todo) disk) (hsignal : r.signal = signal)
    (ht : Touched disk signal disk') (hr : r.Above disk') :
    Recovering (done ++ [r]) todo disk' := by
  have hnodup := nodup_signals
  rw [← h.signals, List.nodup_append] at hnodup
  obtain ⟨-, htodo, hdisjoint⟩ := hnodup
  refine ⟨ht.numbered, ht.bounded_of h.bounded, fun other ho => ?_, fun r' hr' => ?_, ?_⟩
  · have hne : other ≠ signal := fun he => (List.nodup_cons.1 htodo).1 (he ▸ ho)
    exact (ht.others other hne).bounded (h.untouched other (List.mem_cons_of_mem _ ho))
  · rcases List.mem_append.1 hr' with hr' | hr'
    · have hne : r'.signal ≠ signal :=
        hdisjoint _ (List.mem_map_of_mem hr') _ List.mem_cons_self
      exact (h.above r' hr').same (ht.others _ hne)
    · rw [List.mem_singleton.1 hr']
      exact hr
  · rw [List.map_append, List.append_assoc, ← h.signals]
    simp only [List.map_cons, List.map_nil, hsignal, List.singleton_append]

theorem wp_recoverAll (zstd : Zstd) (h : Recovering [] Signal.all disk) :
    (each (recover zstd) Signal.all).wp files
      ⟨fun recovered _ s => s.Exhausted ∨ Recovering recovered [] s,
        fun _ _ s => Opening s, Opening⟩ () disk := by
  refine wp_each (fun done todo _ s => s.Exhausted ∨ Recovering done todo s)
    (fun signal todo done _ s hs => ?_) Signal.all [] (.inr h) fun _ _ _ hs => hs
  by_cases he : s.Exhausted
  · exact wp_mono (wp_exhausted _ () he) (fun _ _ _ he => .inl he) (fun _ _ _ he => .inl he)
      fun _ he => .inl he
  have hs := hs.resolve_left he
  have hlisting : Listing s signal s :=
    ⟨⟨hs.numbered, rfl, hs.bounded signal, fun other _ => Disk.Same.refl s other⟩,
      hs.untouched signal List.mem_cons_self, he⟩
  have hopening : ∀ {s'}, Touched s signal s' → Opening s' := fun ht =>
    .inr ⟨ht.numbered, ht.bounded_of hs.bounded⟩
  exact wp_mono (wp_recover zstd hlisting) (fun r _ s' hr => .inr (hs.step hr.1 hr.2.1 hr.2.2))
    (fun _ _ _ ht => hopening ht) fun _ ht => hopening ht

/-- A signal whose next segment exists. -/
structure Recovered.Started (r : Recovered) (disk : Disk) : Prop where
  gap : disk.gap r.signal = false
  frontier : disk.Frontier r.signal r.next
  files : ∀ file ∈ r.files, file.seq < r.next

/-- Between the creations of the next segments. -/
structure Starting (done todo : List Recovered) (disk : Disk) : Prop where
  numbered : disk.Numbered
  bounded : ∀ signal, disk.gap signal = true ∨ disk.Bounded signal
  started : ∀ r ∈ done, r.Started disk
  above : ∀ r ∈ todo, r.Above disk

theorem Starting.quiet {done todo : List Recovered} (h : Starting done todo disk)
    (hq : disk.Quiet disk') : Starting done todo disk' where
  numbered := Disk.numbered_of_same hq.same h.numbered
  bounded signal :=
    (h.bounded signal).imp (fun hg => (hq.same signal).gap.trans hg) (hq.same signal).bounded
  started r hr :=
    have hr := h.started r hr
    ⟨(hq.same r.signal).gap.trans hr.gap, (hq.same r.signal).frontier hr.frontier, hr.files⟩
  above r hr := (h.above r hr).same (hq.same r.signal)

theorem Starting.opening {done todo : List Recovered} (h : Starting done todo disk) :
    Opening disk := .inr ⟨h.numbered, h.bounded⟩

/-- One more next segment is created. -/
theorem Starting.creates {done todo : List Recovered} {r : Recovered}
    (h : Starting done (r :: todo) disk)
    (hnodup : ((done ++ r :: todo).map (·.signal)).Nodup)
    (hc : disk.Creates disk' r.signal r.next) : Starting (done ++ [r]) todo disk' := by
  have hr := h.above r List.mem_cons_self
  rw [List.map_append, List.map_cons, List.nodup_append] at hnodup
  obtain ⟨-, htodo, hdisjoint⟩ := hnodup
  have hfrontier := hc.frontier hr.created
  refine ⟨hc.numbered hr.created h.numbered, fun other => ?_, fun r' hr' => ?_,
    fun r' hr' => ?_⟩
  · by_cases ho : other = r.signal
    · exact .inr (ho ▸ fun c hc => ⟨_, hfrontier.1, hfrontier.2 c hc⟩)
    · exact (h.bounded other).imp (fun hg => (hc.others other ho).gap.trans hg)
        (hc.others other ho).bounded
  · rcases List.mem_append.1 hr' with hr' | hr'
    · have hs := hc.others r'.signal
        (hdisjoint _ (List.mem_map_of_mem hr') _ List.mem_cons_self)
      have hr' := h.started r' hr'
      exact ⟨hs.gap.trans hr'.gap, hs.frontier hr'.frontier, hr'.files⟩
    · cases List.mem_singleton.1 hr'
      exact ⟨hc.gap, hfrontier, hr.files⟩
  · have hne : r'.signal ≠ r.signal := fun he =>
      (List.nodup_cons.1 htodo).1 (he ▸ List.mem_map_of_mem hr')
    exact (h.above r' (List.mem_cons_of_mem _ hr')).same (hc.others _ hne)

theorem wp_startAll (sender : SenderId) {recovered : List Recovered}
    (hnodup : (recovered.map (·.signal)).Nodup) (h : Starting [] recovered disk) :
    (each (fun r : Recovered => createSegment sender r.signal r.next) recovered).wp files
      ⟨fun _ _ s => Starting recovered [] s, fun _ _ s => Opening s, Opening⟩ () disk := by
  refine wp_each (fun _ todo _ s => ∃ done, done ++ todo = recovered ∧ Starting done todo s)
    (fun r todo _ _ s ⟨done, hdone, hs⟩ => ?_) recovered [] ⟨[], rfl, h⟩
    fun _ _ s ⟨done, hdone, hs⟩ => by rw [List.append_nil] at hdone; exact hdone ▸ hs
  have hcreate : ∀ {time emitted s'},
      effect time emitted s (.createSegment sender r.signal r.next) = some s' →
      Starting (done ++ [r]) todo s' := fun heff =>
    hs.creates (by rw [hdone]; exact hnodup) (effect_createSegment heff)
  have hsync : ∀ {m : Unit} {s}, Starting (done ++ [r]) todo s →
      (act .sync : Call Unit Unit).wp files
        ⟨fun _ _ s => Starting (done ++ [r]) todo s, fun _ _ s => Opening s, Opening⟩ m s :=
    fun hs => wp_mono (wp_act_quiet (P := fun _ s => Starting (done ++ [r]) todo s) (by trivial)
      hs (fun _ h => h) fun _ hq => hs.quiet hq) (fun _ _ _ h => h)
      (fun _ _ _ h => h.opening) fun _ h => h.opening
  simp only [createSegment, bind_eq]
  refine wp_seq (R := fun _ _ s => Starting (done ++ [r]) todo s)
    (wp_act (wp_ask (fun _ => rfl) hs.opening (fun _ => hs.opening)
      fun _ _ s' heff => ⟨fun _ _ _ => hcreate heff, fun _ => (hcreate heff).opening⟩))
    fun _ m s hs => wp_seq (hsync hs) fun _ m s hs => ?_
  exact wp_mono (hsync hs) (fun _ _ _ hs => ⟨done ++ [r], by rw [← hdone]; simp, hs⟩)
    (fun _ _ _ h => h) fun _ h => h

/-! ### The opened queue -/

theorem mem_stampFiles {files : List (Signal × Listed)} {held : Held}
    (h : (signal, held) ∈ stampFiles files) :
    ∃ file, (signal, file) ∈ files ∧ file.seq = held.seq := by
  obtain ⟨⟨⟨other, file⟩, i⟩, hmem, heq⟩ := List.mem_map.1 h
  obtain ⟨rfl, rfl⟩ := Prod.mk.inj heq
  exact ⟨file, List.fst_mem_of_mem_zipIdx hmem, rfl⟩

theorem mem_arrivalOrder {recovered : List Recovered} {file : Listed} :
    (signal, file) ∈ arrivalOrder recovered ↔
      ∃ r ∈ recovered, r.signal = signal ∧ file ∈ r.files := by
  rw [arrivalOrder, (List.perm_insertionSort _ _).mem_iff, List.mem_flatMap]
  constructor
  · rintro ⟨r, hr, hfile⟩
    obtain ⟨f, hf, heq⟩ := List.mem_map.1 hfile
    obtain ⟨rfl, rfl⟩ := Prod.mk.inj heq
    exact ⟨r, hr, rfl, hf⟩
  · rintro ⟨r, hr, rfl, hfile⟩
    exact ⟨r, hr, List.mem_map.2 ⟨file, hfile, rfl⟩⟩

/-- What an opening holds for a signal are files it found in the signal's directory. -/
theorem mem_heldOf {recovered : List Recovered} {held : Held}
    (h : held ∈ heldOf signal (stampFiles (arrivalOrder recovered))) :
    ∃ r ∈ recovered, r.signal = signal ∧ ∃ file ∈ r.files, file.seq = held.seq := by
  obtain ⟨⟨other, held'⟩, hmem, rfl⟩ := List.mem_map.1 h
  obtain ⟨hstamped, hother⟩ := List.mem_filter.1 hmem
  obtain rfl : other = signal := of_decide_eq_true hother
  obtain ⟨file, hfile, hseq⟩ := mem_stampFiles hstamped
  obtain ⟨r, hr, hsignal, hfile⟩ := mem_arrivalOrder.1 hfile
  exact ⟨r, hr, hsignal, file, hfile, hseq⟩

theorem exists_nextOf {recovered : List Recovered} (h : recovered.map (·.signal) = Signal.all)
    (signal : Signal) : ∃ r ∈ recovered, r.signal = signal ∧ nextOf recovered signal = r.next := by
  have hmem : signal ∈ recovered.map (·.signal) := h ▸ signal.mem_all
  obtain ⟨r, hr, hsignal⟩ := List.mem_map.1 hmem
  cases hfind : recovered.find? fun r => r.signal = signal with
  | none => exact absurd hsignal (by simpa using List.find?_eq_none.1 hfind r hr)
  | some r' =>
    refine ⟨r', List.mem_of_find?_eq_some hfind, by simpa using List.find?_some hfind, ?_⟩
    rw [nextOf, hfind]
    rfl

theorem Starting.good {recovered : List Recovered} (h : Starting recovered [] disk)
    (hsignals : recovered.map (·.signal) = Signal.all) : Good (openedInner recovered) disk := by
  refine ⟨h.numbered, fun signal => ?_⟩
  obtain ⟨r, hr, rfl, hnext⟩ := exists_nextOf hsignals signal
  have hstarted := h.started r hr
  refine ⟨hstarted.gap, ⟨r.next, hstarted.frontier, fun held hh => ?_⟩, fun _ => ?_⟩
  · obtain ⟨r', hr', hsignal, file, hfile, hseq⟩ := mem_heldOf hh
    have hnodup : (recovered.map (·.signal)).Nodup := hsignals ▸ nodup_signals
    cases List.inj_on_of_nodup_map hnodup hr' hr hsignal
    exact hseq ▸ hstarted.files file hfile
  · show disk.Frontier r.signal (nextOf recovered r.signal)
    exact hnext ▸ hstarted.frontier

theorem Recovering.quiet (h : Recovering [] Signal.all disk) (hq : disk.Quiet disk') :
    Recovering [] Signal.all disk' where
  numbered := Disk.numbered_of_same hq.same h.numbered
  bounded signal :=
    (h.bounded signal).imp (fun hg => (hq.same signal).gap.trans hg) (hq.same signal).bounded
  untouched signal hs := (hq.same signal).bounded (h.untouched signal hs)
  above _ hr := by cases hr
  signals := rfl

/-- Operations before the first directory is recovered. -/
theorem wp_before {op : FileOp} (hop : op.IsQuiet) (h : Recovering [] Signal.all disk) :
    (ask op : Call Mem op.Res).wp files
      ⟨fun _ _ s => Recovering [] Signal.all s, fun _ _ s => Opening s, Opening⟩ m disk :=
  wp_mono (wp_quiet (P := fun _ s => Recovering [] Signal.all s) hop h
    (fun _ h => .inr ⟨h.numbered, h.bounded⟩) fun _ hq => h.quiet hq) (fun _ _ _ h => h)
    (fun _ _ _ h => .inr ⟨h.numbered, h.bounded⟩) fun _ h => h

theorem wp_loadSender (fresh : SenderId) (h : Recovering [] Signal.all disk) :
    (loadSender fresh).wp files
      ⟨fun _ _ s => Recovering [] Signal.all s, fun _ _ s => Opening s, Opening⟩ () disk := by
  simp only [loadSender, bind_eq]
  refine wp_seq (wp_before (by trivial) h) fun stored _ s h => ?_
  cases stored with
  | some sender => exact h
  | none =>
    refine wp_seq (wp_act (wp_before (by trivial) h)) fun _ _ s h => ?_
    refine wp_seq (wp_act (wp_before (by trivial) h)) fun _ _ s h => ?_
    refine wp_seq (wp_act (wp_before (by trivial) h)) fun _ _ s h => ?_
    exact wp_seq (wp_act (wp_before (by trivial) h)) fun _ _ s h => h

/-- **An opening that returns** gives a queue with the running invariant. -/
theorem wp_openQueue (zstd : Zstd) (fresh : SenderId) (h : Recovering [] Signal.all disk) :
    (openQueue zstd fresh).wp files
      ⟨fun opened _ s => Up opened.2 s, fun _ _ s => Opening s, Opening⟩ () disk := by
  simp only [openQueue, bind_eq]
  refine wp_seq (wp_act (wp_before (by trivial) h)) fun _ _ s h => ?_
  refine wp_seq (wp_act (wp_before (by trivial) h)) fun _ _ s h => ?_
  refine wp_seq (wp_loadSender fresh h) fun sender _ s h => ?_
  refine wp_seq (wp_recoverAll zstd h) fun recovered _ s h => ?_
  rcases h with he | h
  · exact wp_mono (wp_exhausted _ () he) (fun _ _ _ he => .inl he) (fun _ _ _ he => .inl he)
      fun _ he => .inl he
  have hsignals : recovered.map (·.signal) = Signal.all := by
    simpa only [List.append_nil] using h.signals
  have hstarting : Starting [] recovered s :=
    ⟨h.numbered, h.bounded, fun _ hr => (by cases hr), h.above⟩
  refine wp_seq (wp_startAll sender (hsignals ▸ nodup_signals) hstarting) fun _ _ s h => ?_
  exact .inr (h.good hsignals)

/-! ### Runs -/

/-- A directory no process has open, whose files are the segments ever created. -/
structure State.Start (s : State) : Prop where
  closed : s.queue = none
  gap : ∀ signal, s.disk.gap signal = false
  created : ∀ signal, s.disk.createdSeqs signal = (s.disk.dirs signal).seqs

/-- An opening starts with no signal between its unlinked last segment and its next one. -/
def Event.Ready (s : State) : Event → Prop
  | openQueue _ _ => ∀ signal ∈ Signal.all, s.disk.gap signal = false
  | _ => True

instance (s : State) : ∀ e : Event, Decidable (e.Ready s)
  | .openQueue _ _ =>
    inferInstanceAs (Decidable (∀ signal ∈ Signal.all, s.disk.gap signal = false))
  | .call _ _ => isTrue trivial
  | .crash => isTrue trivial

/-- The invariant of a queue, running or not. -/
def State.Intact (s : State) : Prop :=
  match s.queue with
  | some (_, inner) => Up inner s.disk
  | none => Opening s.disk

theorem Down.opening (h : Down disk) : Opening disk :=
  h.imp_right fun hd => ⟨hd.1, fun signal => .inr (hd.2 signal).2⟩

theorem Opening.recovering (h : Opening disk) (he : ¬ disk.Exhausted)
    (hgap : ∀ signal ∈ Signal.all, disk.gap signal = false) :
    Recovering [] Signal.all disk := by
  obtain ⟨hn, hb⟩ := h.resolve_left he
  refine ⟨hn, hb, fun signal hs => (hb signal).resolve_left ?_, fun _ hr => (by cases hr), rfl⟩
  rw [hgap signal hs]
  exact Bool.false_ne_true

theorem intact_afterCall {sender : SenderId} {o : Outcome Inner Disk QueueError Unit Fate}
    (h : o.Meets ⟨fun _ m s => Up m s, fun _ m s => Up m s, Down⟩) :
    (afterCall sender o).Intact := by
  unfold Outcome.Meets at h
  unfold afterCall
  cases ho : o.ending <;> rw [ho] at h
  · exact h
  · exact h
  · exact h.opening

theorem intact_afterOpen {o : Outcome Unit Disk QueueError (SenderId × Inner) Fate}
    (h : o.Meets ⟨fun opened _ s => Up opened.2 s, fun _ _ s => Opening s, Opening⟩) :
    (afterOpen o).Intact := by
  unfold Outcome.Meets at h
  unfold afterOpen
  cases ho : o.ending <;> rw [ho] at h <;> exact h

/-- **The step lemma**: every event keeps the invariant. -/
theorem intact_step (zstd : Zstd) (limits : QueueLimits) {s s' : State} {e : Event}
    (h : s.Intact) (hstep : (queueMachine zstd limits).step s e = some s') (hready : e.Ready s) :
    s'.Intact := by
  obtain ⟨disk, queue⟩ := s
  cases queue with
  | none =>
    cases e with
    | openQueue fresh fates =>
      cases hstep
      by_cases he : disk.Exhausted
      · exact intact_afterOpen (exec_of_wp (wp_mono (wp_exhausted _ () he)
          (fun _ _ _ he => .inl he) (fun _ _ _ he => .inl he) fun _ he => .inl he) fates)
      · exact intact_afterOpen
          (exec_of_wp (wp_openQueue zstd fresh (Opening.recovering h he hready)) fates)
    | call command fates => cases hstep
    | crash => cases hstep; exact h
  | some running =>
    obtain ⟨sender, inner⟩ := running
    cases e with
    | openQueue fresh fates => cases hstep
    | call command fates =>
      cases hstep
      exact intact_afterCall
        (exec_of_wp ((keeps_primitives sender).command limits command inner disk h) fates)
    | crash =>
      cases hstep
      exact (Up.down (show Up inner disk from h)).opening

theorem State.Start.intact {s : State} (h : s.Start) : s.Intact := by
  have hopening : Opening s.disk := by
    refine .inr ⟨⟨fun signal => ?_, fun signal n hn => ?_⟩, fun signal => .inr fun c hc => ?_⟩
    · rw [h.created]
      exact List.pairwise_map.2 (s.disk.dirs signal).sorted
    · rw [h.created]
      exact hn
    · rw [h.created] at hc
      exact ⟨c, hc, le_rfl⟩
  unfold State.Intact
  rw [h.closed]
  exact hopening

theorem pairwise_of_numbered (h : disk.Numbered) :
    disk.created.Pairwise fun a b => a.signal = b.signal → a.seq < b.seq := by
  rw [List.pairwise_iff_forall_sublist]
  intro a b hsub hsignal
  have hgrow := h.growing a.signal
  unfold Disk.createdSeqs at hgrow
  refine List.pairwise_iff_forall_sublist.1 hgrow ?_
  have hfilter := (hsub.filter fun c : Creation => c.signal = a.signal).map (·.seq)
  simpa [hsignal] using hfilter

/-- **Segment numbers only grow**, whatever happens to the queue, as long as no opening starts
in the gap that an earlier one left and the numbers last. -/
theorem created_increasing (zstd : Zstd) (limits : QueueLimits) {s t : State}
    {events : List Event} (hstart : s.Start)
    (hready : (queueMachine zstd limits).Within (fun s e _ => e.Ready s) s events)
    (hrun : (queueMachine zstd limits).run s events = some t) (hlast : ¬ t.disk.Exhausted) :
    t.disk.created.Pairwise fun a b =>
      a.sender = b.sender → a.signal = b.signal → a.seq < b.seq := by
  have hintact : t.Intact := run_invariant_within (P := State.Intact)
    (fun _ _ _ h hstep hok => intact_step zstd limits h hstep hok) hstart.intact hready hrun
  have hnumbered : t.disk.Numbered := by
    unfold State.Intact at hintact
    cases hq : t.queue <;> rw [hq] at hintact
    · exact (hintact.resolve_left hlast).1
    · exact (hintact.resolve_left hlast).1
  exact (pairwise_of_numbered hnumbered).imp fun h _ hsignal => h hsignal

/-- A directory with nothing in it. -/
def Disk.empty : Disk := ⟨none, none, fun _ => Dir.empty, [], fun _ => false⟩

/-- No queue yet. -/
def State.empty : State := ⟨Disk.empty, none⟩

theorem State.start_empty : State.empty.Start := ⟨rfl, fun _ => rfl, fun _ => rfl⟩

/-- Segments that hold their plain text. -/
def sampleZstd : Zstd := ⟨fun content => (content, true), id⟩

/-- An opening in which everything goes well. -/
def sampleOpen : Event := .openQueue sampleSender (List.replicate 50 (Fate.fine 0 [0]))

/-- A record is appended and its segment closed, and a restart follows. -/
def sampleEvents : List Event :=
  [sampleOpen, .call (.append .logs [[1, 2]] 5 0) (List.replicate 9 (Fate.fine 5 [0])),
    .call .sealAll (List.replicate 20 (Fate.fine 6 [])), .crash, sampleOpen]

theorem created_increasing_sample : ∃ t,
    (queueMachine sampleZstd ⟨100, 50⟩).run State.empty sampleEvents = some t ∧
      t.disk.created.map (fun c => (c.signal, c.seq)) =
        [(.logs, 1), (.traces, 1), (.metrics, 1), (.logs, 2), (.logs, 3), (.traces, 2),
          (.metrics, 2)] ∧
      t.disk.created.Pairwise fun a b =>
        a.sender = b.sender → a.signal = b.signal → a.seq < b.seq := by
  have hcreated : ((queueMachine sampleZstd ⟨100, 50⟩).run State.empty sampleEvents).map
      (fun t => t.disk.created) = some [⟨sampleSender, .logs, 1⟩, ⟨sampleSender, .traces, 1⟩, ⟨sampleSender, .metrics, 1⟩,
        ⟨sampleSender, .logs, 2⟩, ⟨sampleSender, .logs, 3⟩, ⟨sampleSender, .traces, 2⟩, ⟨sampleSender, .metrics, 2⟩] := by decide +kernel
  obtain ⟨t, ht, hc⟩ := Option.map_eq_some_iff.1 hcreated
  refine ⟨t, ht, by rw [hc]; rfl, created_increasing sampleZstd ⟨100, 50⟩ State.start_empty
    (by decide +kernel) ht ?_⟩
  rw [Disk.Exhausted, hc]
  decide +kernel

/-- An opening that dies when it has unlinked the empty segment of the logs. -/
def brokenOpen : Event := .openQueue sampleSender (List.replicate 8 (Fate.fine 0 []))

/-- **A number is used twice**: an opening dies after it has unlinked an empty last segment, and
the next one starts the numbering over. -/
theorem reused_number : ∃ t,
    (queueMachine sampleZstd ⟨100, 50⟩).run State.empty
      [sampleOpen, .crash, brokenOpen, sampleOpen] = some t ∧ ¬ t.disk.Exhausted ∧
      ¬ t.disk.created.Pairwise fun a b =>
        a.sender = b.sender → a.signal = b.signal → a.seq < b.seq := by
  have hcreated : ((queueMachine sampleZstd ⟨100, 50⟩).run State.empty
      [sampleOpen, .crash, brokenOpen, sampleOpen]).map (fun t => t.disk.created) =
      some [⟨sampleSender, .logs, 1⟩, ⟨sampleSender, .traces, 1⟩, ⟨sampleSender, .metrics, 1⟩, ⟨sampleSender, .logs, 1⟩, ⟨sampleSender, .traces, 2⟩,
        ⟨sampleSender, .metrics, 2⟩] := by decide +kernel
  obtain ⟨t, ht, hc⟩ := Option.map_eq_some_iff.1 hcreated
  refine ⟨t, ht, ?_, ?_⟩
  · rw [Disk.Exhausted, hc]; decide +kernel
  · rw [hc]; decide

end Queue

end Obsy
