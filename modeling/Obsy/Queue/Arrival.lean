import Obsy.Queue.Order
import Obsy.Queue.Opening

/-!
# The order an opening finds

`Queue::open` reads the order in which the signals closed their segments off the timestamps of
the files.  What it holds is in the order of the numbers exactly if the timestamps are
(`ordered_openedInner_iff`).

* `kept`: the files of a directory that an opening keeps.
* `wp_openQueue_recovered`: what an opening returns, read off the directories; it returns if no
  operation fails.
-/

namespace Obsy

namespace Queue

open Machine Machine.Program

open Journal (SenderId)

/-- Recovery leaves something of a segment. -/
def survives (zstd : Zstd) (content : List UInt8) : Bool :=
  content.length ≠ 0 && resealed zstd content ≠ some []

/-- The files of a directory that an opening keeps. -/
def kept (zstd : Zstd) (dir : Dir) : List SegmentFile :=
  match dir.files.getLast? with
  | none => []
  | some last => if survives zstd last.content then dir.files else dir.files.dropLast

/-- The files that are kept were written in the order of their numbers, and the next segment has
a number above theirs. -/
def WrittenInOrder (zstd : Zstd) (dir : Dir) : Prop :=
  (kept zstd dir).Pairwise (·.modified ≤ ·.modified) ∧
    ∀ file ∈ kept zstd dir, file.seq < nextNumber (listing dir)

variable {zstd : Zstd} {disk disk' : Disk} {signal : Signal} {Mem : Type} {m : Mem}
  {A : Fate → Prop}

/-! ### Operations that go well -/

/-- Some of the fates that are met fail. -/
def SomeFails (A : Fate → Prop) : Prop := ∃ fate, A fate ∧ fate.fails = true

/-- An operation that has its effect and its answer fails only under a fate that does. -/
theorem wp_ask_restrict {op : FileOp} (hop : ∀ fate, failure fate op = .error .io)
    {Q : op.Res → Mem → Disk → Prop}
    (h : ∀ time emitted, ∃ disk', effect time emitted disk op = some disk' ∧
      ∀ fate, ∃ res, answer fate disk op = .ok res ∧ Q res m disk') :
    (ask op : Call Mem op.Res).wp (files.restrict A)
      ⟨Q, fun _ _ _ => SomeFails A, fun _ => True⟩ m disk := by
  refine ⟨trivial, fun ⟨fate, hfate⟩ => ?_⟩
  obtain ⟨disk', heff, hanswer⟩ := h fate.time fate.emitted
  simp only [Device.restrict, files, heff, hop]
  by_cases hfails : fate.fails
  · simp only [hfails, if_true]
    exact ⟨fate, hfate, hfails⟩
  · obtain ⟨res, hres, hQ⟩ := hanswer fate
    simp only [hfails, hres]
    exact hQ

theorem wp_act_restrict {op : FileOp} (hop : ∀ fate, failure fate op = .error .io)
    {Q : Mem → Disk → Prop}
    (h : ∀ time emitted, ∃ disk', effect time emitted disk op = some disk' ∧
      ∀ fate, ∃ res, answer fate disk op = .ok res ∧ Q m disk') :
    (act op : Call Mem Unit).wp (files.restrict A)
      ⟨fun _ m s => Q m s, fun _ _ _ => SomeFails A, fun _ => True⟩ m disk :=
  wp_seq (wp_ask_restrict (Q := fun _ m s => Q m s) hop h) fun _ _ _ h => h

def Elsewhere (signal : Signal) (disk disk' : Disk) : Prop :=
  ∀ other, other ≠ signal → (disk'.dirs other).files = (disk.dirs other).files

theorem Elsewhere.update {disk₀ : Disk} (h : Elsewhere signal disk₀ disk) (f : Dir → Dir) :
    Elsewhere signal disk₀ (disk.update signal f) := by
  intro other ho
  simp only [Disk.update, Function.update_of_ne ho]
  exact h other ho

theorem Dir.find_eq_some {dir : Dir} {file : SegmentFile} (h : file ∈ dir.files) :
    dir.find file.seq = some file := by
  have hsorted := dir.sorted
  unfold Dir.find
  generalize dir.files = files at h hsorted
  induction files with
  | nil => cases h
  | cons first rest ih =>
    obtain ⟨hfirst, hrest⟩ := List.pairwise_cons.1 hsorted
    rcases List.mem_cons.1 h with rfl | h
    · simp
    · have hne : first.seq ≠ file.seq := (hfirst file h).ne
      simp [hne, ih h hrest]

theorem wp_removeUnreadable_restrict {disk₀ : Disk} {file : SegmentFile}
    (hfile : (disk.dirs signal).find file.seq = some file) (h : Elsewhere signal disk₀ disk) :
    (removeUnreadable signal file.seq : Call Mem (Option ℕ)).wp (files.restrict A)
      ⟨fun res _ s => res = none ∧ Elsewhere signal disk₀ s, fun _ _ _ => SomeFails A,
        fun _ => True⟩ m disk := by
  have hremove : ∀ time emitted, ∃ disk',
      effect time emitted disk (.remove .unreadable signal file.seq) = some disk' ∧
        Elsewhere signal disk₀ disk' := by
    intro time emitted
    simp only [effect, hfile, Option.some.injEq, exists_eq_left']
    exact h.update fun dir => dir.erase file.seq
  simp only [removeUnreadable, bind_eq]
  refine wp_seq (R := fun _ _ s => Elsewhere signal disk₀ s)
    (wp_act_restrict (fun _ => rfl) fun time emitted => ?_) fun _ m s hs =>
      wp_seq (R := fun _ _ s => Elsewhere signal disk₀ s)
        (wp_act_restrict (fun _ => rfl) fun time emitted => ⟨s, rfl, fun _ => ⟨(), rfl, hs⟩⟩)
        fun _ _ _ hs => ⟨rfl, hs⟩
  obtain ⟨disk', heff, helse⟩ := hremove time emitted
  exact ⟨disk', heff, fun _ => ⟨(), rfl, helse⟩⟩

theorem wp_rewrite_restrict {disk₀ : Disk} {seq : ℕ} {content : List UInt8}
    (h : Elsewhere signal disk₀ disk) :
    (rewrite signal seq content : Call Mem (Option ℕ)).wp (files.restrict A)
      ⟨fun res _ s => res.isSome ∧ Elsewhere signal disk₀ s, fun _ _ _ => SomeFails A,
        fun _ => True⟩ m disk := by
  -- The rewrite is there when it is renamed.
  let Written (s : Disk) : Prop := Elsewhere signal disk₀ s ∧
    ∃ time rest, (s.dirs signal).temporaries = ⟨seq, content, time⟩ :: rest
  simp only [rewrite, bind_eq]
  refine wp_seq (R := fun _ _ s => Written s)
    (wp_act_restrict (fun _ => rfl) fun time emitted =>
      ⟨_, rfl, fun _ => ⟨(), rfl, h.update _, time, (disk.dirs signal).temporaries, ?_⟩⟩)
    fun _ m s hs => ?_
  · simp only [Disk.update, Function.update_self]
  refine wp_seq (R := fun _ _ s => Written s)
    (wp_act_restrict (fun _ => rfl) fun _ _ => ⟨s, rfl, fun _ => ⟨(), rfl, hs⟩⟩)
    fun _ m s hs => ?_
  obtain ⟨hs, time, rest, htemporaries⟩ := hs
  have hrename : ∀ time emitted, ∃ disk',
      effect time emitted s (.renameTemporary signal seq) = some disk' ∧
        Elsewhere signal disk₀ disk' := by
    intro time emitted
    simp only [effect, htemporaries, List.find?_cons, decide_true, Option.some.injEq,
      exists_eq_left']
    exact hs.update _
  refine wp_seq (R := fun _ _ s => Elsewhere signal disk₀ s)
    (wp_act_restrict (fun _ => rfl) fun time emitted => ?_) fun _ m s hs => ?_
  · obtain ⟨disk', heff, helse⟩ := hrename time emitted
    exact ⟨disk', heff, fun _ => ⟨(), rfl, helse⟩⟩
  exact wp_seq (R := fun _ _ s => Elsewhere signal disk₀ s)
    (wp_act_restrict (fun _ => rfl) fun _ _ => ⟨s, rfl, fun _ => ⟨(), rfl, hs⟩⟩)
    fun _ _ _ hs => ⟨rfl, hs⟩

theorem wp_reseal_restrict (zstd : Zstd) {disk₀ : Disk} {file : SegmentFile}
    (hfile : (disk.dirs signal).find file.seq = some file) (h : Elsewhere signal disk₀ disk) :
    (reseal zstd signal file.seq : Call Mem (Option ℕ)).wp (files.restrict A)
      ⟨fun res _ s => (res.isSome ↔ survives zstd file.content) ∧ Elsewhere signal disk₀ s,
        fun _ _ _ => SomeFails A, fun _ => True⟩ m disk := by
  have hread : ∀ m, (ask (.read signal file.seq) : Call Mem (List UInt8)).wp (files.restrict A)
      ⟨fun content _ s => content = file.content ∧ s = disk, fun _ _ _ => SomeFails A,
        fun _ => True⟩ m disk := fun m =>
    wp_ask_restrict (fun _ => rfl) fun _ _ => ⟨disk, rfl, fun _ =>
      ⟨file.content, by simp only [answer, hfile], rfl, rfl⟩⟩
  have hgone : ∀ m : Mem, survives zstd file.content = false →
      (removeUnreadable signal file.seq : Call Mem (Option ℕ)).wp (files.restrict A)
      ⟨fun res _ s => (res.isSome ↔ survives zstd file.content) ∧ Elsewhere signal disk₀ s,
        fun _ _ _ => SomeFails A, fun _ => True⟩ m disk := by
    intro m hs
    refine wp_mono (wp_removeUnreadable_restrict hfile h) (fun res _ s hres => ?_)
      (fun _ _ _ h => h) fun _ h => h
    obtain ⟨rfl, helse⟩ := hres
    exact ⟨by simp [hs], helse⟩
  simp only [reseal, bind_eq]
  refine wp_seq (hread m) fun metadata m s hs => ?_
  obtain ⟨rfl, rfl⟩ := hs
  split_ifs with hempty
  · exact hgone m (by simp [survives, hempty])
  refine wp_seq (hread m) fun content m s hs => ?_
  obtain ⟨rfl, rfl⟩ := hs
  cases hresealed : resealed zstd file.content with
  | none => exact ⟨by simp [survives, hempty, hresealed], h⟩
  | some plain =>
    cases plain with
    | nil => exact hgone m (by simp [survives, hresealed])
    | cons byte plain =>
      refine wp_mono (wp_rewrite_restrict h) (fun res _ s hres => ⟨?_, hres.2⟩)
        (fun _ _ _ h => h) fun _ h => h
      simp [survives, hempty, hresealed, hres.1]

/-! ### What an opening returns -/

/-- What a directory's recovery returns, but for the sizes. -/
structure Recovered.Of (zstd : Zstd) (signal : Signal) (dir : Dir) (r : Recovered) : Prop where
  signal : r.signal = signal
  next : r.next = nextNumber (listing dir)
  files : r.files.map (fun file => (file.seq, file.modified)) =
    (kept zstd dir).map fun file => (file.seq, file.modified)

theorem listing_map_key (files : List SegmentFile) :
    (files.map fun file => (⟨file.seq, file.content.length, file.modified⟩ : Listed)).map
      (fun file => (file.seq, file.modified)) = files.map fun file => (file.seq, file.modified) := by
  rw [List.map_map]
  rfl

/-- Operations that leave the segment files as they are. -/
theorem wp_act_same {op : FileOp} (hop : ∀ fate, failure fate op = .error .io)
    (heff : ∀ time emitted, ∃ disk', effect time emitted disk op = some disk' ∧
      ∀ other, (disk'.dirs other).files = (disk.dirs other).files)
    (hanswer : ∀ fate, ∃ res, answer fate disk op = .ok res) :
    (act op : Call Mem Unit).wp (files.restrict A)
      ⟨fun _ _ s => ∀ other, (s.dirs other).files = (disk.dirs other).files,
        fun _ _ _ => SomeFails A, fun _ => True⟩ m disk := by
  refine wp_act_restrict hop fun time emitted => ?_
  obtain ⟨disk', heff, hsame⟩ := heff time emitted
  exact ⟨disk', heff, fun fate => (hanswer fate).imp fun res hres => ⟨hres, hsame⟩⟩

theorem wp_recover_restrict (zstd : Zstd) {dir : Dir}
    (hdir : (disk.dirs signal).files = dir.files) : (recover zstd signal).wp (files.restrict A)
      ⟨fun r _ s => r.Of zstd signal dir ∧ Elsewhere signal disk s, fun _ _ _ => SomeFails A,
        fun _ => True⟩ () disk := by
  simp only [recover, bind_eq]
  refine wp_seq (wp_act_same (fun _ => rfl) (fun _ _ => ⟨disk, rfl, fun _ => rfl⟩)
    fun _ => ⟨(), rfl⟩) fun _ _ s hs => ?_
  have hsweep : ∀ time emitted, ∃ s', effect time emitted s (.sweepTemporaries signal) = some s' ∧
      ∀ other, (s'.dirs other).files = (s.dirs other).files := by
    refine fun _ _ => ⟨_, rfl, fun other => ?_⟩
    by_cases ho : other = signal
    · subst ho; simp only [Disk.update, Function.update_self]
    · simp only [Disk.update, Function.update_of_ne ho]
  refine wp_seq (wp_act_same (fun _ => rfl) hsweep fun _ => ⟨(), rfl⟩) fun _ _ t ht => ?_
  have ht : ∀ other, (t.dirs other).files = (disk.dirs other).files := fun other =>
    (ht other).trans (hs other)
  have helse : Elsewhere signal disk t := fun other _ => ht other
  have hfiles : (t.dirs signal).files = dir.files := (ht signal).trans hdir
  have hlisting : listing (t.dirs signal) = listing dir := by rw [listing, listing, hfiles]
  refine wp_seq (R := fun listed _ s => listed = listing dir ∧ s = t)
    (wp_ask_restrict (fun _ => rfl) fun _ _ => ⟨t, rfl, fun _ =>
      ⟨listing (t.dirs signal), rfl, hlisting, rfl⟩⟩) fun listed _ s hs => ?_
  obtain ⟨rfl, rfl⟩ := hs
  have hlast : (listing dir).getLast? = dir.files.getLast?.map fun file =>
      ⟨file.seq, file.content.length, file.modified⟩ := List.getLast?_map
  have hdrop : (listing dir).dropLast = dir.files.dropLast.map fun file =>
      ⟨file.seq, file.content.length, file.modified⟩ := List.map_dropLast.symm
  cases hfile : dir.files.getLast? with
  | none =>
    rw [hfile] at hlast
    simp only [hlast, Option.map_none]
    exact ⟨⟨rfl, rfl, by rw [kept, hfile]; rfl⟩, helse⟩
  | some last =>
    rw [hfile] at hlast
    have hfind : (s.dirs signal).find last.seq = some last :=
      Dir.find_eq_some (hfiles ▸ List.mem_of_getLast? hfile)
    simp only [hlast, Option.map_some]
    refine wp_seq (wp_reseal_restrict zstd hfind helse) fun res _ s hres => ?_
    obtain ⟨hsurvives, helse⟩ := hres
    cases res with
    | none =>
      have hgone : survives zstd last.content = false := by simpa using hsurvives
      refine ⟨⟨rfl, rfl, ?_⟩, helse⟩
      rw [hdrop, listing_map_key, kept, hfile]
      simp only [hgone, Bool.false_eq_true, if_false]
    | some bytes =>
      have hkept : survives zstd last.content = true := by simpa using hsurvives
      refine ⟨⟨rfl, rfl, ?_⟩, helse⟩
      simp only [List.map_append, hdrop, listing_map_key, kept, hfile, hkept, if_true]
      conv_rhs => rw [← List.dropLast_append_getLast? last hfile]
      rw [List.map_append]
      rfl

/-- Each signal's directory has been recovered. -/
def RecoveredOf (zstd : Zstd) (disk : Disk) (recovered : List Recovered) : Prop :=
  recovered.map (·.signal) = Signal.all ∧
    ∀ r ∈ recovered, r.Of zstd r.signal (disk.dirs r.signal)

theorem wp_recoverAll_restrict (zstd : Zstd) (disk₀ : Disk)
    (hdisk : ∀ other, (disk.dirs other).files = (disk₀.dirs other).files) :
    (each (recover zstd) Signal.all).wp (files.restrict A)
      ⟨fun recovered _ _ => RecoveredOf zstd disk₀ recovered, fun _ _ _ => SomeFails A,
        fun _ => True⟩ () disk := by
  refine wp_each (fun (done : List Recovered) todo _ s => done.map (·.signal) ++ todo = Signal.all ∧
      (∀ r ∈ done, r.Of zstd r.signal (disk₀.dirs r.signal)) ∧
      ∀ other ∈ todo, (s.dirs other).files = (disk₀.dirs other).files)
    (fun signal todo done _ s ⟨hall, hdone, htodo⟩ => ?_) Signal.all []
    ⟨rfl, (fun _ hr => by cases hr), fun other _ => hdisk other⟩
    fun recovered _ _ h => ⟨by rw [← h.1, List.append_nil]; rfl, h.2.1⟩
  refine wp_mono (wp_recover_restrict zstd (htodo signal List.mem_cons_self))
    (fun r _ s' ⟨hr, helse⟩ => ⟨?_, fun r' hr' => ?_, fun other ho => ?_⟩)
    (fun _ _ _ h => h) fun _ h => h
  · rw [← hall, List.map_append, List.append_assoc]
    simp only [List.map_cons, List.map_nil, hr.signal, List.singleton_append]
  · rcases List.mem_append.1 hr' with hr' | hr'
    · exact hdone r' hr'
    · obtain rfl := List.mem_singleton.1 hr'
      obtain rfl := hr.signal
      exact hr
  · have hnodup := nodup_signals
    rw [← hall, List.nodup_append] at hnodup
    have hne : other ≠ signal := fun he => (List.nodup_cons.1 hnodup.2.1).1 (he ▸ ho)
    exact (helse other hne).trans (htodo other (List.mem_cons_of_mem _ ho))

theorem wp_createSegment_restrict (sender : SenderId) (signal : Signal) (seq : ℕ) :
    (createSegment sender signal seq : Call Mem Unit).wp (files.restrict A)
      ⟨fun _ _ _ => True, fun _ _ _ => SomeFails A, fun _ => True⟩ m disk := by
  have hact : ∀ {op : FileOp} {m : Mem} {disk : Disk}, (∀ fate, failure fate op = .error .io) →
      (∀ time emitted, ∃ disk', effect time emitted disk op = some disk') →
      (∀ fate, ∃ res, answer fate disk op = .ok res) →
      (act op : Call Mem Unit).wp (files.restrict A)
        ⟨fun _ _ _ => True, fun _ _ _ => SomeFails A, fun _ => True⟩ m disk :=
    fun hop heff hanswer => wp_act_restrict hop fun time emitted =>
      (heff time emitted).imp fun _ h => ⟨h, fun fate => (hanswer fate).imp fun _ h => ⟨h, trivial⟩⟩
  simp only [createSegment, bind_eq]
  refine wp_seq (hact (fun _ => rfl) (fun _ _ => ⟨_, rfl⟩) fun _ => ⟨(), rfl⟩) fun _ m s _ => ?_
  refine wp_seq (hact (fun _ => rfl) (fun _ _ => ⟨_, rfl⟩) fun _ => ⟨(), rfl⟩) fun _ m s _ => ?_
  exact hact (fun _ => rfl) (fun _ _ => ⟨_, rfl⟩) fun _ => ⟨(), rfl⟩

theorem wp_loadSender_restrict (fresh : SenderId) : (loadSender fresh).wp (files.restrict A)
    ⟨fun _ _ s => ∀ other, (s.dirs other).files = (disk.dirs other).files,
      fun _ _ _ => SomeFails A, fun _ => True⟩ () disk := by
  simp only [loadSender, bind_eq]
  refine wp_seq (R := fun _ _ s => s = disk)
    (wp_ask_restrict (fun _ => rfl) fun _ _ => ⟨disk, rfl, fun _ => ⟨disk.identity, rfl, rfl⟩⟩)
    fun stored _ s hs => ?_
  subst hs
  cases stored with
  | some sender => exact fun _ => rfl
  | none =>
    refine wp_seq (wp_act_same (fun _ => rfl) (fun _ _ => ⟨_, rfl, fun _ => rfl⟩)
      fun _ => ⟨(), rfl⟩) fun _ _ t ht => ?_
    refine wp_seq (wp_act_same (fun _ => rfl) (fun _ _ => ⟨_, rfl, fun _ => rfl⟩)
      fun _ => ⟨(), rfl⟩) fun _ _ u hu => ?_
    refine wp_seq (wp_act_same (fun _ => rfl) (fun _ _ => ⟨_, rfl, fun _ => rfl⟩)
      fun _ => ⟨(), rfl⟩) fun _ _ v hv => ?_
    refine wp_seq (wp_act_same (fun _ => rfl) (fun _ _ => ⟨_, rfl, fun _ => rfl⟩)
      fun _ => ⟨(), rfl⟩) fun _ _ w hw other => ?_
    rw [hw, hv, hu, ht]

/-- **What an opening returns** is read off the directories, and it returns unless an operation
fails. -/
theorem wp_openQueue_recovered (zstd : Zstd) (fresh : SenderId) (disk : Disk) :
    (openQueue zstd fresh).wp (files.restrict A)
      ⟨fun opened _ _ => ∃ recovered, RecoveredOf zstd disk recovered ∧
          opened.2 = openedInner recovered,
        fun _ _ _ => SomeFails A, fun _ => True⟩ () disk := by
  simp only [openQueue, bind_eq]
  refine wp_seq (wp_act_same (fun _ => rfl) (fun _ _ => ⟨_, rfl, fun _ => rfl⟩)
    fun _ => ⟨(), rfl⟩) fun _ _ s hs => ?_
  refine wp_seq (wp_act_same (fun _ => rfl) (fun _ _ => ⟨_, rfl, fun _ => rfl⟩)
    fun _ => ⟨(), rfl⟩) fun _ _ t ht => ?_
  refine wp_seq (wp_loadSender_restrict fresh) fun sender _ u hu => ?_
  refine wp_seq (wp_recoverAll_restrict zstd disk fun other => ?_)
    fun recovered _ v hrecovered => ?_
  · rw [hu, ht, hs]
  refine wp_seq (R := fun _ _ _ => True) (wp_each (fun _ _ _ _ => True)
    (fun r _ _ _ _ _ => wp_createSegment_restrict sender r.signal r.next) recovered [] trivial
    fun _ _ _ _ => trivial) fun _ _ _ _ => ?_
  exact ⟨recovered, hrecovered, rfl⟩

/-! ### Two orders on keys -/

/-- Among these numbers with their times the times grow with the numbers. -/
def TimesGrow (keys : List (ℕ × ℕ)) : Prop :=
  ∀ a ∈ keys, ∀ b ∈ keys, a.1 < b.1 → a.2 ≤ b.2

theorem timesGrow_congr {keys keys' : List (ℕ × ℕ)} (h : keys.Perm keys') :
    TimesGrow keys ↔ TimesGrow keys' := by
  simp only [TimesGrow, h.mem_iff]

/-- Of keys in the order of their numbers the times grow exactly if they are in order too. -/
theorem pairwise_times_iff {keys : List (ℕ × ℕ)} (h : keys.Pairwise (·.1 < ·.1)) :
    keys.Pairwise (·.2 ≤ ·.2) ↔ TimesGrow keys := by
  constructor
  · intro htimes
    have hforth : keys.Pairwise fun a b => a.1 < b.1 → a.2 ≤ b.2 := by
      refine htimes.imp ?_
      intro a b hle _
      exact hle
    have hback : keys.Pairwise (flip fun a b => a.1 < b.1 → a.2 ≤ b.2) :=
      h.imp fun hlt hgt => absurd hgt (Nat.lt_asymm hlt)
    intro a ha b hb
    exact hforth.forall_of_forall_of_flip (fun _ _ hlt => absurd hlt (lt_irrefl _)) hback ha hb
  · exact fun hgrow => h.imp_of_mem fun ha hb hlt => hgrow _ ha _ hb hlt

/-- Keys sorted by their times, and by their numbers where the times are equal. -/
def Sorted (keys : List (ℕ × ℕ)) : Prop :=
  keys.Pairwise fun a b => a.2 < b.2 ∨ a.2 = b.2 ∧ a.1 ≤ b.1

/-- Sorted keys are in the order of their numbers exactly if the times grow with these. -/
theorem pairwise_numbers_iff {keys : List (ℕ × ℕ)} (hsorted : Sorted keys)
    (hnodup : (keys.map (·.1)).Nodup) : keys.Pairwise (·.1 < ·.1) ↔ TimesGrow keys := by
  constructor
  · intro hnumbers
    refine (pairwise_times_iff hnumbers).1 (hsorted.imp fun h => ?_)
    rcases h with h | h
    · exact h.le
    · exact h.1.le
  · intro hgrow
    have hne : keys.Pairwise (·.1 ≠ ·.1) := List.pairwise_map.1 hnodup
    refine (hsorted.and hne).imp_of_mem fun {a b} ha hb ⟨hle, hne⟩ => ?_
    by_contra hlt
    have hback := hgrow b hb a ha (lt_of_le_of_ne (Nat.le_of_not_lt hlt) hne.symm)
    rcases hle with hlt' | ⟨-, hle⟩
    · omega
    · exact hlt (lt_of_le_of_ne hle hne)

/-! ### The order of an opened queue -/

/-- A listed file's number and time. -/
def Listed.key (file : Listed) : ℕ × ℕ := (file.seq, file.modified)

/-- The number and time of a signal's files in the order an opening finds. -/
def arrivalKeys (signal : Signal) (recovered : List Recovered) : List (ℕ × ℕ) :=
  ((arrivalOrder recovered).filter fun file => file.1 = signal).map fun file => file.2.key

theorem heldOf_seqs (signal : Signal) (recovered : List Recovered) :
    (heldOf signal (stampFiles (arrivalOrder recovered))).map (·.seq) =
      (arrivalKeys signal recovered).map (·.1) := by
  have hstamp : (stampFiles (arrivalOrder recovered)).map (fun held => (held.1, held.2.seq)) =
      (arrivalOrder recovered).map fun file => (file.1, file.2.seq) := by
    conv_rhs => rw [← List.zipIdx_map_fst 0 (arrivalOrder recovered), List.map_map]
    rw [stampFiles, List.map_map]
    rfl
  have hfilter : ∀ {β : Type} (xs : List (Signal × β)) (f : β → ℕ),
      ((xs.map fun x => (x.1, f x.2)).filter fun x => x.1 = signal).map (·.2) =
        (xs.filter fun x => x.1 = signal).map fun x => f x.2 := by
    intro β xs f
    rw [List.filter_map, List.map_map]
    rfl
  rw [heldOf, List.map_map, arrivalKeys, List.map_map]
  exact ((hfilter _ _).symm.trans (by rw [hstamp])).trans (hfilter _ _)

theorem sorted_arrivalKeys (signal : Signal) (recovered : List Recovered) :
    Sorted (arrivalKeys signal recovered) := by
  have hsorted : (arrivalOrder recovered).Pairwise fun a b => sortKey a ≤ sortKey b :=
    List.pairwise_insertionSort _ _
  refine List.pairwise_map.2 ((hsorted.sublist List.filter_sublist).imp_of_mem
    fun {a b} ha hb hle => ?_)
  have ha : a.1 = signal := of_decide_eq_true (List.mem_filter.1 ha).2
  have hb : b.1 = signal := of_decide_eq_true (List.mem_filter.1 hb).2
  rw [sortKey, sortKey, Prod.Lex.toLex_le_toLex] at hle
  refine hle.imp id fun ⟨htime, hrest⟩ => ⟨htime, ?_⟩
  rw [Prod.Lex.toLex_le_toLex, ha, hb] at hrest
  rcases hrest with hlt | ⟨-, hle⟩
  · exact absurd hlt (lt_irrefl _)
  · exact hle

/-- The files of one signal among those of all. -/
theorem filter_files {recovered : List Recovered} {r : Recovered} (hr : r ∈ recovered)
    (hnodup : (recovered.map (·.signal)).Nodup) :
    (recovered.flatMap fun r => r.files.map fun file => (r.signal, file)).filter
      (fun file => file.1 = r.signal) = r.files.map fun file => (r.signal, file) := by
  have hself : ∀ r : Recovered, (r.files.map fun file => (r.signal, file)).filter
      (fun file => file.1 = r.signal) = r.files.map fun file => (r.signal, file) := by
    intro r
    refine List.filter_eq_self.2 fun x hx => ?_
    obtain ⟨file, -, rfl⟩ := List.mem_map.1 hx
    exact decide_eq_true rfl
  induction recovered with
  | nil => cases hr
  | cons first rest ih =>
    rw [List.map_cons, List.nodup_cons] at hnodup
    rw [List.flatMap_cons, List.filter_append]
    rcases List.mem_cons.1 hr with rfl | hr
    · rw [hself, List.append_right_eq_self, List.filter_eq_nil_iff]
      intro x hx hsignal
      obtain ⟨r', hr', hx⟩ := List.mem_flatMap.1 hx
      obtain ⟨file, -, rfl⟩ := List.mem_map.1 hx
      exact hnodup.1 (of_decide_eq_true hsignal ▸ List.mem_map_of_mem hr')
    · have hfirst : (first.files.map fun file => (first.signal, file)).filter
          (fun file => file.1 = r.signal) = [] := by
        refine List.filter_eq_nil_iff.2 fun x hx hsignal => ?_
        obtain ⟨file, -, rfl⟩ := List.mem_map.1 hx
        have hsignal : first.signal = r.signal := of_decide_eq_true hsignal
        exact hnodup.1 (hsignal ▸ List.mem_map_of_mem hr)
      rw [hfirst, List.nil_append]
      exact ih hr hnodup.2

/-- A kept file's number and time. -/
def SegmentFile.key (file : SegmentFile) : ℕ × ℕ := (file.seq, file.modified)

theorem arrivalKeys_perm {recovered : List Recovered} {r : Recovered} {dir : Dir}
    (hr : r ∈ recovered) (hnodup : (recovered.map (·.signal)).Nodup)
    (hof : r.Of zstd r.signal dir) :
    (arrivalKeys r.signal recovered).Perm ((kept zstd dir).map SegmentFile.key) := by
  have hperm := ((List.perm_insertionSort (fun a b => sortKey a ≤ sortKey b)
    (recovered.flatMap fun r => r.files.map fun file => (r.signal, file))).filter
      fun file => file.1 = r.signal).map fun file => file.2.key
  rw [filter_files hr hnodup, List.map_map] at hperm
  exact hperm.trans (List.Perm.of_eq hof.files)

theorem kept_sublist (zstd : Zstd) (dir : Dir) : (kept zstd dir).Sublist dir.files := by
  unfold kept
  cases dir.files.getLast? with
  | none => exact List.nil_sublist _
  | some last =>
    dsimp only
    split_ifs
    · exact List.Sublist.refl _
    · exact List.dropLast_sublist _

theorem ordered_iff {q : SignalQueue} : q.Ordered ↔
    (q.closed.map (·.seq)).Pairwise (· < ·) ∧ ∀ n ∈ q.closed.map (·.seq), n < q.back.seq := by
  rw [SignalQueue.Ordered, SignalQueue.segments, List.pairwise_append, List.pairwise_map]
  simp

/-- **What an opening holds is in order** exactly if the files were written in order. -/
theorem ordered_openedInner_iff {recovered : List Recovered}
    (h : RecoveredOf zstd disk recovered) :
    (openedInner recovered).Ordered ↔ ∀ signal, WrittenInOrder zstd (disk.dirs signal) := by
  refine forall_congr' fun signal => ?_
  obtain ⟨r, hr, rfl, hnext⟩ := exists_nextOf h.1 signal
  have hof := h.2 r hr
  have hperm := arrivalKeys_perm hr (h.1 ▸ nodup_signals) hof
  have hkept : ((kept zstd (disk.dirs r.signal)).map SegmentFile.key).Pairwise (·.1 < ·.1) :=
    List.pairwise_map.2 ((disk.dirs r.signal).sorted.sublist (kept_sublist zstd _))
  have hnodup : ((arrivalKeys r.signal recovered).map (·.1)).Nodup :=
    (hperm.map _).nodup_iff.2 ((List.pairwise_map.2 hkept).imp fun hlt => hlt.ne)
  have hbelow : (∀ n ∈ (arrivalKeys r.signal recovered).map (·.1), n < r.next) ↔
      ∀ file ∈ kept zstd (disk.dirs r.signal), file.seq < nextNumber
        (listing (disk.dirs r.signal)) := by
    simp only [(hperm.map _).mem_iff, List.map_map, List.forall_mem_map, hof.next]
    rfl
  rw [ordered_iff]
  show ((heldOf r.signal (stampFiles (arrivalOrder recovered))).map (·.seq)).Pairwise (· < ·) ∧
    (∀ n ∈ (heldOf r.signal (stampFiles (arrivalOrder recovered))).map (·.seq),
      n < nextOf recovered r.signal) ↔ _
  rw [heldOf_seqs, hnext, hbelow, List.pairwise_map,
    pairwise_numbers_iff (sorted_arrivalKeys _ _) hnodup, timesGrow_congr hperm,
    ← pairwise_times_iff hkept, List.pairwise_map]
  rfl

end Queue

end Obsy
