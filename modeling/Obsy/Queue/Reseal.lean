import Obsy.Queue.Arrival
import Obsy.Queue.Wire

/-!
# What closing a segment leaves

A crash leaves a segment whose stream stops anywhere.  `reseal` leaves the longest front of what
is readable that is whole records, in a stream that ends properly, or no file when that front is
empty (`reseal_spec`).

* `Closed`: the contents a segment may have once it was closed.
* `Settled`: closing the segment once more changes nothing.
* `wp_ask_either`: an operation that fails under some fate, with and without its effect.
-/

namespace Obsy

namespace Queue

open Machine Machine.Program

/-- What the zstd library promises: a whole stream gives back its text, and no bytes give
none. -/
structure Zstd.Sound (zstd : Zstd) : Prop where
  decode_encode : ∀ plain, zstd.decode (zstd.encode plain) = (plain, true)
  decode_nil : (zstd.decode []).1 = []

theorem Zstd.Sound.encode_ne_nil {zstd : Zstd} (hz : zstd.Sound) {plain : List UInt8}
    (hne : plain ≠ []) : zstd.encode plain ≠ [] := by
  intro hnil
  apply hne
  rw [← hz.decode_nil, ← hnil, hz.decode_encode]

namespace Disk

/-- What a segment file holds, if it is there. -/
def contentOf (disk : Disk) (signal : Signal) (seq : ℕ) : Option (List UInt8) :=
  ((disk.dirs signal).find seq).map (·.content)

end Disk

/-- What may be there of a segment that held `content` once it was closed, and the size that is
reported. -/
inductive Closed (zstd : Zstd) (content : List UInt8) : Option (List UInt8) → Option ℕ → Prop
  /-- A whole stream of the longest front that is whole records. -/
  | left (after : List UInt8)
      (longest : LongestWhole (zstd.decode content).1 (zstd.decode after).1)
      (whole : (zstd.decode after).2 = true) (nonempty : after ≠ []) :
      Closed zstd content (some after) (some after.length)
  /-- No file, when that front is empty. -/
  | removed (longest : LongestWhole (zstd.decode content).1 []) : Closed zstd content none none

/-- Closing the segment once more changes nothing, however it ends. -/
def Settled (zstd : Zstd) (signal : Signal) (seq : ℕ) (disk : Disk) : Prop :=
  ∀ {Mem : Type} (m : Mem) (fates : List Fate),
    ((reseal zstd signal seq).exec files fates m disk).device = disk

/-- The segment is as it was, or closed already. -/
def Midway (zstd : Zstd) (content : List UInt8) (signal : Signal) (seq : ℕ) (disk : Disk) : Prop :=
  disk.contentOf signal seq = some content ∨
    ∃ size, Closed zstd content (disk.contentOf signal seq) size

variable {zstd : Zstd} {disk : Disk} {signal : Signal} {seq : ℕ} {content : List UInt8}
  {Mem : Type} {m : Mem} {A : Fate → Prop}

/-! ### What the operations do to the file -/

theorem find_putFile (file : SegmentFile) (files : List SegmentFile) :
    (putFile file files).find? (fun x => x.seq = file.seq) = some file := by
  induction files with
  | nil => simp [putFile]
  | cons other rest ih =>
    simp only [putFile]
    split_ifs with hlt heq
    · simp
    · simp
    · simpa [Ne.symm heq] using ih

theorem Disk.contentOf_update_temporaries (disk : Disk) (signal : Signal) (seq : ℕ)
    (f : List SegmentFile → List SegmentFile) :
    (disk.update signal fun dir => { dir with temporaries := f dir.temporaries }).contentOf
      signal seq = disk.contentOf signal seq := by
  simp only [contentOf, update, Function.update_self]
  rfl

/-- Unlinking a segment that is there. -/
theorem effect_removeUnreadable (hcontent : disk.contentOf signal seq = some content) (time : ℕ)
    (emitted : List UInt8) :
    ∃ disk', effect time emitted disk (.remove .unreadable signal seq) = some disk' ∧
      disk'.contentOf signal seq = none := by
  obtain ⟨file, hfile, -⟩ := Option.map_eq_some_iff.1 hcontent
  simp only [effect, hfile, Option.some.injEq, exists_eq_left']
  simp [Disk.contentOf, Disk.update, Dir.find, Dir.erase]

/-- A rewrite taking its segment's name. -/
theorem effect_rename {file : SegmentFile} {rest : List SegmentFile}
    (htemporaries : (disk.dirs signal).temporaries = file :: rest) (time : ℕ)
    (emitted : List UInt8) :
    ∃ disk', effect time emitted disk (.renameTemporary signal file.seq) = some disk' ∧
      disk'.contentOf signal file.seq = some file.content := by
  simp only [effect, htemporaries, List.find?_cons, decide_true, Option.some.injEq,
    exists_eq_left']
  simp only [Disk.contentOf, Disk.update, Function.update_self, Dir.find, Dir.put, find_putFile,
    Option.map_some]

/-! ### Closing once -/

/-- An operation that has its effect and its answer unless its fate fails; either way the disk
meets `P`. -/
theorem wp_ask_either {op : FileOp} (hop : ∀ fate, failure fate op = .error .io)
    {Q : op.Res → Mem → Disk → Prop} {P : Disk → Prop} (hP : P disk)
    (h : ∀ time emitted, ∃ disk', effect time emitted disk op = some disk' ∧ P disk' ∧
      ∀ fate, ∃ res, answer fate disk op = .ok res ∧ Q res m disk') :
    (ask op : Call Mem op.Res).wp (files.restrict A)
      ⟨Q, fun _ _ s => SomeFails A ∧ P s, P⟩ m disk := by
  refine ⟨hP, fun ⟨fate, hfate⟩ => ?_⟩
  obtain ⟨disk', heff, hP', hanswer⟩ := h fate.time fate.emitted
  simp only [Device.restrict, files, heff, hop]
  by_cases hfails : fate.fails
  · simp only [hfails, if_true]
    refine ⟨⟨fate, hfate, hfails⟩, ?_⟩
    show P (if fate.applied then disk' else disk)
    split_ifs
    · exact hP'
    · exact hP
  · obtain ⟨res, hres, hQ⟩ := hanswer fate
    simp only [hfails, hres]
    exact hQ

theorem wp_act_either {op : FileOp} (hop : ∀ fate, failure fate op = .error .io)
    {Q P : Disk → Prop} (hP : P disk)
    (h : ∀ time emitted, ∃ disk', effect time emitted disk op = some disk' ∧ P disk' ∧
      ∀ fate, ∃ res, answer fate disk op = .ok res ∧ Q disk') :
    (act op : Call Mem Unit).wp (files.restrict A)
      ⟨fun _ _ s => Q s, fun _ _ s => SomeFails A ∧ P s, P⟩ m disk :=
  wp_seq (wp_ask_either (Q := fun _ _ s => Q s) hop hP h) fun _ _ _ hQ => hQ

/-- Forcing something to the device changes nothing. -/
theorem wp_sync {Q P : Disk → Prop} (hP : P disk) (hQ : Q disk) :
    (act .sync : Call Mem Unit).wp (files.restrict A)
      ⟨fun _ _ s => Q s, fun _ _ s => SomeFails A ∧ P s, P⟩ m disk :=
  wp_act_either (fun _ => rfl) hP fun _ _ => ⟨disk, rfl, hP, fun _ => ⟨(), rfl, hQ⟩⟩

theorem wp_readContent {P : Disk → Prop} (hP : P disk)
    (hcontent : disk.contentOf signal seq = some content) :
    (ask (.read signal seq) : Call Mem (List UInt8)).wp (files.restrict A)
      ⟨fun res _ s => res = content ∧ s = disk, fun _ _ s => SomeFails A ∧ P s, P⟩ m disk := by
  refine wp_ask_either (fun _ => rfl) hP fun _ _ => ⟨disk, rfl, hP, fun _ => ?_⟩
  obtain ⟨file, hfile, rfl⟩ := Option.map_eq_some_iff.1 hcontent
  exact ⟨file.content, by simp only [answer, hfile], rfl, rfl⟩

theorem wp_removeUnreadable_either (hcontent : disk.contentOf signal seq = some content)
    (hclosed : Closed zstd content none none) :
    (removeUnreadable signal seq : Call Mem (Option ℕ)).wp (files.restrict A)
      ⟨fun res _ s => Closed zstd content (s.contentOf signal seq) res,
        fun _ _ s => SomeFails A ∧ Midway zstd content signal seq s,
        Midway zstd content signal seq⟩ m disk := by
  have hgone : ∀ {s : Disk}, s.contentOf signal seq = none → Midway zstd content signal seq s := by
    intro s hs
    exact .inr ⟨none, hs ▸ hclosed⟩
  simp only [removeUnreadable, bind_eq]
  refine wp_seq (R := fun _ _ s => s.contentOf signal seq = none)
    (wp_act_either (fun _ => rfl) (.inl hcontent) fun time emitted => ?_) fun _ m s hs =>
      wp_seq (R := fun _ _ s => s.contentOf signal seq = none) (wp_sync (hgone hs) hs)
        fun _ _ s hs => ?_
  · obtain ⟨disk', heff, hnone⟩ := effect_removeUnreadable hcontent time emitted
    exact ⟨disk', heff, hgone hnone, fun _ => ⟨(), rfl, hnone⟩⟩
  · show Closed zstd content (s.contentOf signal seq) none
    rw [hs]
    exact hclosed

theorem wp_rewrite_either {after : List UInt8}
    (hcontent : disk.contentOf signal seq = some content)
    (hclosed : Closed zstd content (some after) (some after.length)) :
    (rewrite signal seq after : Call Mem (Option ℕ)).wp (files.restrict A)
      ⟨fun res _ s => Closed zstd content (s.contentOf signal seq) res,
        fun _ _ s => SomeFails A ∧ Midway zstd content signal seq s,
        Midway zstd content signal seq⟩ m disk := by
  -- The segment is as it was until the rewrite takes its name.
  let Written (s : Disk) : Prop := s.contentOf signal seq = some content ∧
    ∃ time rest, (s.dirs signal).temporaries = ⟨seq, after, time⟩ :: rest
  let Renamed (s : Disk) : Prop := s.contentOf signal seq = some after
  have hrenamed : ∀ {s : Disk}, Renamed s → Midway zstd content signal seq s :=
    fun hs => .inr ⟨some after.length, hs.symm ▸ hclosed⟩
  simp only [rewrite, bind_eq]
  refine wp_seq (R := fun _ _ s => Written s)
    (wp_act_either (fun _ => rfl) (.inl hcontent) fun time emitted => ?_) fun _ m s hs => ?_
  · have hsame := (Disk.contentOf_update_temporaries disk signal seq
      (fun temporaries => ⟨seq, after, time⟩ :: temporaries)).trans hcontent
    refine ⟨_, rfl, .inl hsame, fun _ => ⟨(), rfl, hsame, time, (disk.dirs signal).temporaries, ?_⟩⟩
    simp only [Disk.update, Function.update_self]
  refine wp_seq (R := fun _ _ s => Written s) (wp_sync (.inl hs.1) hs) fun _ m s hs => ?_
  obtain ⟨hbefore, time, rest, htemporaries⟩ := hs
  refine wp_seq (R := fun _ _ s => Renamed s)
    (wp_act_either (fun _ => rfl) (.inl hbefore) fun time' emitted => ?_) fun _ m s hs =>
      wp_seq (R := fun _ _ s => Renamed s) (wp_sync (hrenamed hs) hs) fun _ _ s hs => ?_
  · obtain ⟨disk', heff, hput⟩ := effect_rename htemporaries time' emitted
    exact ⟨disk', heff, hrenamed hput, fun _ => ⟨(), rfl, hput⟩⟩
  · show Closed zstd content (s.contentOf signal seq) (some after.length)
    rw [show s.contentOf signal seq = some after from hs]
    exact hclosed

/-! ### Closing once more -/

/-- A read changes nothing, and what it reads is there. -/
theorem wp_read (disk : Disk) (signal : Signal) (seq : ℕ) (m : Mem) :
    (ask (.read signal seq) : Call Mem (List UInt8)).wp files
      ⟨fun res _ s => disk.contentOf signal seq = some res ∧ s = disk, fun _ _ s => s = disk,
        (· = disk)⟩ m disk := by
  refine wp_ask (fun _ => rfl) rfl (fun _ => rfl) fun time emitted disk' heff => ?_
  obtain rfl : disk = disk' := Option.some.inj heff
  refine ⟨fun _ res hres => ⟨?_, rfl⟩, fun _ => rfl⟩
  simp only [answer] at hres
  cases hfile : (disk.dirs signal).find seq with
  | none => simp only [hfile] at hres; cases hres
  | some file =>
    simp only [hfile] at hres
    obtain rfl := Except.ok.inj hres
    rw [Disk.contentOf, hfile]
    rfl

theorem resealed_eq_none (hwhole : (zstd.decode content).2 = true)
    (hsplits : ∃ records, splitRecords (zstd.decode content).1 = .ok records) :
    resealed zstd content = none := by
  have hkept := (splitRecords_isOk_iff _).1 hsplits
  simp [resealed, hwhole, hkept]

/-- **A closed segment is settled.** -/
theorem Closed.settled {size : Option ℕ}
    (h : Closed zstd content (disk.contentOf signal seq) size) : Settled zstd signal seq disk := by
  intro Mem m fates
  have hwp : (reseal zstd signal seq : Call Mem (Option ℕ)).wp files
      ⟨fun _ _ s => s = disk, fun _ _ s => s = disk, (· = disk)⟩ m disk := by
    simp only [reseal, bind_eq]
    refine wp_seq (wp_read disk signal seq m) ?_
    rintro metadata m s ⟨hcontent, hs⟩
    subst hs
    rw [hcontent] at h
    cases h with
    | left after longest whole nonempty =>
      rw [if_neg fun hnil => nonempty (List.length_eq_zero_iff.1 hnil)]
      refine wp_seq (wp_read s signal seq m) ?_
      rintro again m s' ⟨hagain, hs'⟩
      obtain rfl : metadata = again := Option.some.inj (hcontent.symm.trans hagain)
      rw [resealed_eq_none whole longest.splits]
      exact hs'
  have hmeets := exec_of_wp hwp fates
  generalize (reseal zstd signal seq).exec files fates m disk = outcome at hmeets
  rcases outcome with ⟨ending, m', device, rest⟩
  cases ending <;> exact hmeets

/-! ### What is left -/

/-- What is written back is the longest front that is whole records. -/
theorem longestWhole_of_resealed {plain : List UInt8} (h : resealed zstd content = some plain) :
    LongestWhole (zstd.decode content).1 plain := by
  have hlongest := longestWhole_take (zstd.decode content).1
  simp only [resealed] at h
  split_ifs at h
  cases h
  exact hlongest

/-- A stream that is left alone is whole records already. -/
theorem longestWhole_of_untouched (h : resealed zstd content = none) :
    LongestWhole (zstd.decode content).1 (zstd.decode content).1 ∧
      (zstd.decode content).2 = true := by
  have hlongest := longestWhole_take (zstd.decode content).1
  simp only [resealed] at h
  split_ifs at h with hcond
  simp only [Bool.and_eq_true, beq_iff_eq] at hcond
  rw [hcond.2, List.take_length] at hlongest
  exact ⟨hlongest, hcond.1⟩

theorem longestWhole_nil : LongestWhole [] [] := by
  simpa using longestWhole_take []

/-- The rule for closing a segment. -/
theorem wp_reseal_either (hz : zstd.Sound) (hcontent : disk.contentOf signal seq = some content) :
    (reseal zstd signal seq : Call Mem (Option ℕ)).wp (files.restrict A)
      ⟨fun res _ s => Closed zstd content (s.contentOf signal seq) res,
        fun _ _ s => SomeFails A ∧ Midway zstd content signal seq s,
        Midway zstd content signal seq⟩ m disk := by
  simp only [reseal, bind_eq]
  refine wp_seq (wp_readContent (.inl hcontent) hcontent) fun metadata m s hs => ?_
  obtain ⟨rfl, rfl⟩ := hs
  split_ifs with hempty
  · obtain rfl := List.length_eq_zero_iff.1 hempty
    refine wp_removeUnreadable_either hcontent (.removed ?_)
    rw [hz.decode_nil]
    exact longestWhole_nil
  refine wp_seq (wp_readContent (.inl hcontent) hcontent) fun content m s hs => ?_
  obtain ⟨rfl, rfl⟩ := hs
  cases hresealed : resealed zstd content with
  | none =>
    obtain ⟨hlongest, hwhole⟩ := longestWhole_of_untouched hresealed
    show Closed zstd content (s.contentOf signal seq) (some content.length)
    rw [hcontent]
    exact .left content hlongest hwhole fun hnil => hempty (List.length_eq_zero_iff.2 hnil)
  | some plain =>
    have hlongest := longestWhole_of_resealed hresealed
    cases plain with
    | nil => exact wp_removeUnreadable_either hcontent (.removed hlongest)
    | cons byte plain =>
      have hdecode := hz.decode_encode (byte :: plain)
      refine wp_rewrite_either hcontent (.left _ ?_ ?_ (hz.encode_ne_nil (List.cons_ne_nil _ _)))
      · rw [hdecode]
        exact hlongest
      · rw [hdecode]

/-- The magic number of a frame, its descriptor and its window. -/
def frameHeader : List UInt8 := [0x28, 0xB5, 0x2F, 0xFD, 0, 0]

/-- The text of raw blocks of one byte each, up to the last block, which is empty. -/
def storedBlocks : List UInt8 → List UInt8 × Bool
  | [] => ([], false)
  | kind :: low :: high :: rest =>
    if [kind, low, high] = [1, 0, 0] then ([], rest.isEmpty)
    else
      match rest with
      | [] => ([], false)
      | byte :: rest =>
        if [kind, low, high] = [8, 0, 0] then
          (byte :: (storedBlocks rest).1, (storedBlocks rest).2)
        else ([], false)
  | _ => ([], false)

/-- The frames that store each byte in a block of its own. -/
def storedFrames : Zstd where
  decode bytes :=
    if bytes.take frameHeader.length = frameHeader then
      storedBlocks (bytes.drop frameHeader.length)
    else ([], false)
  encode plain := frameHeader ++ (plain.flatMap (fun byte => [8, 0, 0, byte]) ++ [1, 0, 0])

theorem storedFrames_sound : storedFrames.Sound where
  decode_encode plain := by
    have hblocks : storedBlocks (plain.flatMap (fun byte => [8, 0, 0, byte]) ++ [1, 0, 0]) =
        (plain, true) := by
      induction plain with
      | nil => rfl
      | cons byte plain ih =>
        show storedBlocks (8 :: 0 :: 0 :: byte :: (plain.flatMap _ ++ [1, 0, 0])) = _
        rw [storedBlocks, if_neg (by decide), if_pos rfl, ih]
    simp only [storedFrames, List.take_left, if_true, List.drop_left, hblocks]
  decode_nil := rfl

theorem storedBlocks_prefix (blocks more : List UInt8) :
    (storedBlocks blocks).1 <+: (storedBlocks (blocks ++ more)).1 := by
  induction blocks using storedBlocks.induct with
  | case1 => exact List.nil_prefix
  | case2 kind low high rest hlast =>
    have hnone : (storedBlocks (kind :: low :: high :: rest)).1 = [] := by
      cases rest <;> simp only [storedBlocks, if_pos hlast]
    rw [hnone]
    exact List.nil_prefix
  | case3 kind low high hlast =>
    rw [storedBlocks, if_neg hlast]
    exact List.nil_prefix
  | case4 kind low high hlast byte rest hstored ih =>
    simp only [List.cons_append, storedBlocks, if_neg hlast, if_pos hstored]
    exact (List.prefix_cons_inj byte).2 ih
  | case5 kind low high hlast byte rest hstored =>
    simp only [storedBlocks, if_neg hlast, if_neg hstored]
    exact List.nil_prefix
  | case6 blocks hnil hlong =>
    rw [storedBlocks]
    · exact List.nil_prefix
    · exact hnil
    · exact hlong

/-- More of a frame gives more of its text. -/
theorem storedFrames_prefix (bytes more : List UInt8) :
    (storedFrames.decode bytes).1 <+: (storedFrames.decode (bytes ++ more)).1 := by
  by_cases hheader : bytes.take frameHeader.length = frameHeader
  · have hlong : frameHeader.length ≤ bytes.length := by
      have := congrArg List.length hheader
      rw [List.length_take] at this
      omega
    simp only [storedFrames, List.take_append_of_le_length hlong, if_pos hheader,
      List.drop_append_of_le_length hlong]
    exact storedBlocks_prefix _ _
  · simp only [storedFrames, if_neg hheader]
    exact List.nil_prefix

/-- A segment that stops in the header of its second record. -/
def cutSegment : SegmentFile :=
  ⟨3, frameHeader ++ [1, 0, 0, 0, 65, 2, 0].flatMap fun byte => [8, 0, 0, byte], 0⟩

/-- A queue whose only segment was cut. -/
def cutDisk : Disk :=
  ⟨none, none, fun _ => Dir.empty.put cutSegment, [], fun _ => false⟩

end Queue

end Obsy
