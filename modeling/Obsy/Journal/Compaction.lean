import Obsy.Machine.Files
import Obsy.Journal.Replay

/-!
# Retiring the WAL

What was flushed is behind the checkpoint, and now and then it is cut off the WAL: what is left is
copied to another file, which replaces the WAL.  From then on offsets count from another place, so
the checkpoint has to change with the WAL; a record of what is being done tells a start which of the
two is behind.

* `readCheckpoint`, `writeCheckpoint`, `compactWal`, `recoverUnfinishedCompaction`: the programs.
* `Sound`: what a crash may leave of the directory at any time: the WAL from some record on, and one
  place in it from which a start goes on.
* `wp_writeCheckpoint`, `wp_cutWal`, `wp_recover`: each program keeps `Sound` at each of its
  operations, and ends where it should, as long as no operation fails.
-/

namespace Obsy

namespace Journal

open Bytes Machine

/-! ### The programs -/

/-- The files of the journal. -/
inductive WalName
  /-- `journal.wal`. -/
  | wal
  /-- `journal.ckpt`. -/
  | ckpt
  /-- The record of a compaction that is under way. -/
  | state
  | walTmp
  /-- What will replace the checkpoint. -/
  | ckptTmp
  /-- What will be the record of a compaction. -/
  | stateTmp
deriving DecidableEq

/-- The files that are renamed in. -/
def WalName.Temporary : WalName → Prop
  | walTmp | ckptTmp | stateTmp => True
  | wal | ckpt | state => False

/-- A program on the journal's files, which remembers how long the WAL is. -/
abbrev WalProgram : Type → Type := Program (diskInterface WalName) ℕ IoError

/-- A compaction that is under way. -/
structure CompactionState where
  /-- Where the new WAL begins in the old one. -/
  offset : ℕ
  /-- The length of the old one. -/
  sourceLen : ℕ
  /-- The length of the new one. -/
  retainedLen : ℕ
deriving DecidableEq

/-- The record of a compaction as it is written. -/
def CompactionState.bytes (state : CompactionState) : List UInt8 :=
  leBytes 8 state.offset ++ leBytes 8 state.sourceLen ++ leBytes 8 state.retainedLen

/-- The record of a compaction as it is read. -/
def CompactionState.ofBytes (bytes : List UInt8) : CompactionState :=
  ⟨leNat (bytes.take 8), leNat ((bytes.drop 8).take 8), leNat (bytes.drop 16)⟩

/-- `read_compaction_state`. -/
def readCompactionState : WalProgram (Option CompactionState) := do
  match ← (readFile .state : WalProgram (List UInt8)).attempt with
  | .error .notFound => return none
  | .error error => .throw error
  | .ok bytes =>
    if bytes.length = 24 then return some (.ofBytes bytes)
    else .throw (.invalidData "invalid WAL compaction state")

/-- `write_compaction_state`. -/
def writeCompactionState (state : CompactionState) : WalProgram Unit :=
  replaceFile .stateTmp .state state.bytes

/-- `remove_compaction_state`. -/
def removeCompactionState : WalProgram Unit := do
  match ← (removeFile .state : WalProgram Unit).attempt with
  | .error .notFound => return ()
  | .error error => .throw error
  | .ok () => syncDir

/-- `read_checkpoint`. -/
def readCheckpoint : WalProgram ℕ := do
  match ← (readFile .ckpt : WalProgram (List UInt8)).attempt with
  | .error .notFound => return 0
  | .error error => .throw error
  | .ok bytes =>
    if bytes.length = 8 then return leNat bytes
    else .throw (.invalidData ("journal checkpoint must be exactly 8 bytes, got "
      ++ toString bytes.length))

/-- `write_checkpoint`. -/
def writeCheckpoint (offset : ℕ) : WalProgram Unit := replaceFile .ckptTmp .ckpt (leBytes 8 offset)

def walLen : WalProgram ℕ := do
  let bytes ← readFile .wal
  return bytes.length

/-- What `compact_wal` does about a compaction that it finds under way: whether it was done but for
its end. -/
def resumeCompaction (state : CompactionState) : WalProgram Bool := do
  let len ← walLen
  if ← present .walTmp then
    -- the rename did not happen
    if len < state.sourceLen then
      .throw (.invalidData "source WAL is shorter than its recorded compaction length")
    else
      writeCheckpoint state.offset
      removeFile .walTmp
      removeFile .state
      syncDir
      Program.store len
      return false
  else
    -- the rename happened
    if len < state.retainedLen then
      .throw (.invalidData "replacement WAL is shorter than its recorded suffix")
    else
      syncDir
      removeCompactionState
      touchFile .wal
      let len ← walLen
      Program.store len
      return true

/-- What `compact_wal` does when no compaction is under way. -/
def cutWal (offset : ℕ) : WalProgram Unit := do
  let goodLen ← (Program.load : WalProgram ℕ)
  if goodLen < offset then
    .throw (.invalidInput ("WAL compaction offset " ++ toString offset ++ " exceeds durable length "
      ++ toString goodLen))
  else
    syncFile .wal
    let retainedLen := goodLen - offset
    let source ← readFile .wal
    let copied := (source.drop offset).take retainedLen
    writeFile .walTmp copied
    if copied.length ≠ retainedLen then
      .throw (.unexpectedEof ("copied " ++ toString copied.length ++ " of " ++ toString retainedLen
        ++ " WAL bytes during compaction"))
    else
      syncFile .walTmp
      writeCompactionState ⟨offset, goodLen, retainedLen⟩
      -- before the rename, so that a start never applies the old offset to the new WAL
      writeCheckpoint 0
      renameFile .walTmp .wal
      syncDir
      touchFile .wal
      Program.store retainedLen
      removeCompactionState

/-- `compact_wal`. -/
def compactWal (offset : ℕ) : WalProgram Unit := do
  match ← readCompactionState with
  | some state => if ← resumeCompaction state then return () else cutWal offset
  | none => cutWal offset

/-- `recover_unfinished_compaction`. -/
def recoverUnfinishedCompaction : WalProgram Unit := do
  match ← readCompactionState with
  | none => return ()
  | some state =>
    if ← present .walTmp then
      writeCheckpoint state.offset
      removeFile .walTmp
      removeFile .state
      syncDir
    else removeCompactionState

/-- `should_compact_wal`. -/
def shouldCompactWal (walBytes offset : ℕ) (remote : Bool) (walCompactMinBytes : Option ℕ) : Bool :=
  if remote then true
  else match walCompactMinBytes with
    | none => false
    | some minBytes => max minBytes (walBytes - offset) ≤ offset

/-! ### What a crash may leave -/

/-- The records that were ever written to the WAL, and how many of them were acknowledged. -/
structure History (ρ : Type) where
  records : List ρ
  /-- How many were acknowledged. -/
  acked : ℕ

section Sound

variable {ρ : Type} (frame : ρ → List UInt8)

/-- Where record `k` is in a WAL with older bytes and then the records from `b` on. -/
def History.offset (h : History ρ) (older : List UInt8) (b k : ℕ) : ℕ :=
  older.length + (stream frame ((h.records.take k).drop b)).length

/-- Older bytes and then the records from one on: what was acknowledged is on the device. -/
structure WalFrom (h : History ρ) (older : List UInt8) (b : ℕ) (f : File) : Prop where
  /-- What is on the device. -/
  durable : ∃ data, f.durable = some data ∧ data <+: f.data ∧
    older ++ stream frame ((h.records.take h.acked).drop b) <+: data
  /-- What may be. -/
  within : f.data ++ f.stale <+: older ++ stream frame (h.records.drop b)

/-- The checkpoint file says this offset. -/
def CkptIs (f : Option File) (c : ℕ) : Prop :=
  f = none ∧ c = 0 ∨ f = some (.synced (leBytes 8 c)) ∧ c < 2 ^ 64

/-- The numbers of a compaction fit their fields. -/
def CompactionState.Fits (state : CompactionState) : Prop :=
  state.offset < 2 ^ 64 ∧ state.sourceLen < 2 ^ 64 ∧ state.retainedLen < 2 ^ 64

/-- A start goes on from this offset: the checkpoint's, or that of a compaction that did not get to
its rename. -/
def Resumes (state walTmp : Option File) (c offset : ℕ) : Prop :=
  state = none ∧ c = offset ∨
    ∃ under : CompactionState, state = some (.synced under.bytes) ∧ under.Fits ∧
      (walTmp.isSome = true ∧ under.offset = offset ∨ walTmp.isSome = false ∧ c = offset)

/-- The WAL has the records from `b` on after older bytes, and a start goes on from record `k`. -/
structure SoundAt (h : History ρ) (allowed : List UInt8 → ℕ → ℕ → Prop) (v : View WalName)
    (older : List UInt8) (b k c : ℕ) : Prop where
  wal : ∃ f, v .wal = some f ∧ WalFrom frame h older b f
  /-- The checkpoint. -/
  ckpt : CkptIs (v .ckpt) c
  /-- The record from which a start goes on. -/
  allowed : allowed older b k
  ge : b ≤ k
  le : k ≤ h.acked
  resumes : Resumes (v .state) (v .walTmp) c (h.offset frame older b k)

/-- A WAL that holds what was acknowledged and nothing else. -/
structure Whole (h : History ρ) (older : List UInt8) (b : ℕ) (f : File) : Prop where
  /-- Every record was acknowledged. -/
  acked : h.acked = h.records.length
  data : f.data = older ++ stream frame (h.records.drop b)
  /-- Nothing was cut off. -/
  stale : f.stale = []

/-- What a crash may leave: the WAL is one of the allowed ones, and a start goes on from a record
that is allowed for it. -/
def Sound (h : History ρ) (allowed : List UInt8 → ℕ → ℕ → Prop) (v : View WalName) : Prop :=
  ∃ older b k c, SoundAt frame h allowed v older b k c

variable {frame} {h : History ρ} {allowed : List UInt8 → ℕ → ℕ → Prop} {v v' : View WalName}
  {older : List UInt8} {b k c : ℕ} {f f' : File}

/-- Only some of the files matter, and of the new WAL only whether it is there. -/
theorem SoundAt.congr (hs : SoundAt frame h allowed v older b k c) (hwal : v' .wal = v .wal)
    (hckpt : v' .ckpt = v .ckpt) (hstate : v' .state = v .state)
    (htmp : (v' .walTmp).isSome = (v .walTmp).isSome) : SoundAt frame h allowed v' older b k c := by
  refine ⟨hwal ▸ hs.wal, hckpt ▸ hs.ckpt, hs.allowed, hs.ge, hs.le, ?_⟩
  have hresumes := hs.resumes
  rw [Resumes] at hresumes ⊢
  rwa [hstate, htmp]

/-- What was acknowledged stays when a file is synced, cut by a crash or only left alone. -/
theorem WalFrom.of_between (hf : WalFrom frame h older b f) {data stale : List UInt8}
    {durable : List UInt8} (hdata : f'.data = data) (hstale : f'.stale = stale)
    (hdurable : f'.durable = some durable) (hlow : ∀ d, f.durable = some d → d <+: durable)
    (hhigh : durable <+: data) (hall : data ++ stale <+: f.data ++ f.stale) :
    WalFrom frame h older b f' := by
  obtain ⟨old, hold, -, hacked⟩ := hf.durable
  refine ⟨⟨durable, hdurable, hdata ▸ hhigh, hacked.trans (hlow old hold)⟩, ?_⟩
  rw [hdata, hstale]
  exact hall.trans hf.within

theorem WalFrom.sync (hf : WalFrom frame h older b f) :
    WalFrom frame h older b (.synced f.data) := by
  obtain ⟨old, hold, hpre, -⟩ := hf.durable
  refine hf.of_between rfl rfl rfl (fun d hd => ?_) (List.prefix_refl _) ?_
  · obtain rfl := Option.some.inj (hold.symm.trans hd)
    exact hpre
  · show f.data ++ [] <+: _
    rw [List.append_nil]
    exact List.prefix_append _ _

/-- A file that is synced is what it was after a crash. -/
theorem becomes_synced {data : List UInt8} (h : (File.synced data).Becomes f') :
    f' = .synced data := by
  obtain ⟨n, junk, hf⟩ := h
  have hsurvive : (File.synced data).survive n junk = data := by
    simp [File.survive, File.synced]
  rw [hsurvive] at hf
  rcases hf with rfl | rfl
  · rfl
  · simp [File.synced]

theorem WalFrom.becomes (hf : WalFrom frame h older b f) (hb : f.Becomes f') :
    WalFrom frame h older b f' := by
  obtain ⟨old, hold, hpre, hacked⟩ := hf.durable
  obtain ⟨n, junk, hf'⟩ := hb
  -- what survives is what was synced and a part of the rest
  obtain ⟨rest, hrest⟩ := hpre
  have hsurvive : f.survive n junk = old ++ (rest ++ f.stale).take n := by
    rw [File.survive, hold]
    dsimp only
    rw [← hrest, List.append_assoc, List.drop_left]
  have hlow : old <+: f.survive n junk := hsurvive ▸ List.prefix_append _ _
  have hhigh : f.survive n junk <+: f.data ++ f.stale := by
    rw [hsurvive, ← hrest, List.append_assoc, List.prefix_append_right_inj]
    exact List.take_prefix _ _
  rcases hf' with rfl | rfl
  · refine hf.of_between rfl rfl rfl (fun d hd => ?_) (List.prefix_refl _) ?_
    · obtain rfl := Option.some.inj (hold.symm.trans hd)
      exact hlow
    · show f.survive n junk ++ [] <+: _
      rw [List.append_nil]
      exact hhigh
  · refine hf.of_between rfl rfl hold (fun d hd => ?_) hlow ?_
    · obtain rfl := Option.some.inj (hold.symm.trans hd)
      exact List.prefix_refl _
    · obtain ⟨tail, htail⟩ := hhigh
      rw [← htail, List.drop_left]

theorem CkptIs.becomes {o o' : Option File} (hc : CkptIs o c)
    (h : Option.Rel File.Becomes o o') : CkptIs o' c := by
  rcases hc with ⟨rfl, hzero⟩ | ⟨rfl, hfits⟩
  · cases h
    exact .inl ⟨rfl, hzero⟩
  · cases h with
    | some hb =>
      rw [becomes_synced hb]
      exact .inr ⟨rfl, hfits⟩

theorem Resumes.becomes {state state' walTmp walTmp' : Option File} {offset : ℕ}
    (h : Resumes state walTmp c offset) (hstate : Option.Rel File.Becomes state state')
    (htmp : walTmp'.isSome = walTmp.isSome) : Resumes state' walTmp' c offset := by
  rcases h with ⟨rfl, hc⟩ | ⟨under, rfl, hrest⟩
  · cases hstate
    exact .inl ⟨rfl, hc⟩
  · cases hstate with
    | some hb =>
      rw [becomes_synced hb]
      refine .inr ⟨under, rfl, ?_⟩
      rwa [htmp]

/-- **`Sound` can be kept**: it does not depend on the temporary files, and neither a sync nor a
crash makes it false. -/
theorem steady_sound (frame : ρ → List UInt8) (h : History ρ)
    (allowed : List UInt8 → ℕ → ℕ → Prop) :
    Steady WalName.Temporary (Sound frame h allowed) where
  overwrite v t f f' ht hv hf := by
    obtain ⟨older, b, k, c, hs⟩ := hv
    refine ⟨older, b, k, c, hs.congr ?_ ?_ ?_ ?_⟩
    · exact Function.update_of_ne (fun he => by subst he; exact ht) ..
    · exact Function.update_of_ne (fun he => by subst he; exact ht) ..
    · exact Function.update_of_ne (fun he => by subst he; exact ht) ..
    · by_cases htmp : t = .walTmp
      · subst htmp
        rw [Function.update_self, hf]
        rfl
      · rw [Function.update_of_ne (Ne.symm htmp)]
  sync v n f hv hf := by
    obtain ⟨older, b, k, c, ⟨w, hw, hwal⟩, hckpt, hallowed, hge, hle, hresumes⟩ := hv
    -- the checkpoint and the record of a compaction are synced already
    have hsame : ∀ {name : WalName} {data : List UInt8}, v name = some (.synced data) →
        Function.update v n (some (.synced f.data)) name = some (.synced data) := by
      intro name data hname
      by_cases hn : name = n
      · subst hn
        rw [Function.update_self]
        obtain rfl := Option.some.inj (hname.symm.trans hf)
        rfl
      · rw [Function.update_of_ne hn, hname]
    have hnone : ∀ {name : WalName}, v name = none →
        Function.update v n (some (.synced f.data)) name = none := by
      intro name hname
      by_cases hn : name = n
      · subst hn
        rw [hf] at hname
        cases hname
      · rw [Function.update_of_ne hn, hname]
    refine ⟨older, b, k, c, ?_, ?_, hallowed, hge, hle, ?_⟩
    · by_cases hn : n = .wal
      · subst hn
        obtain rfl := Option.some.inj (hw.symm.trans hf)
        exact ⟨_, Function.update_self .., hwal.sync⟩
      · exact ⟨w, by rw [Function.update_of_ne (Ne.symm hn), hw], hwal⟩
    · rcases hckpt with ⟨hmissing, hzero⟩ | ⟨hfile, hfits⟩
      · exact .inl ⟨hnone hmissing, hzero⟩
      · exact .inr ⟨hsame hfile, hfits⟩
    · have htmp : (Function.update v n (some (.synced f.data)) .walTmp).isSome =
          (v .walTmp).isSome := by
        by_cases hn : n = .walTmp
        · subst hn
          rw [Function.update_self, hf]
          rfl
        · rw [Function.update_of_ne (Ne.symm hn)]
      rcases hresumes with ⟨hmissing, hc⟩ | ⟨under, hfile, hrest⟩
      · exact .inl ⟨hnone hmissing, hc⟩
      · refine .inr ⟨under, hsame hfile, ?_⟩
        rwa [htmp]
  crash v v' hv hall := by
    obtain ⟨older, b, k, c, ⟨w, hw, hwal⟩, hckpt, hallowed, hge, hle, hresumes⟩ := hv
    refine ⟨older, b, k, c, ?_, hckpt.becomes (hall .ckpt), hallowed, hge, hle,
      hresumes.becomes (hall .state) ?_⟩
    · have hrel := hall .wal
      rw [hw] at hrel
      cases hv' : v' .wal with
      | none => rw [hv'] at hrel; cases hrel
      | some w' =>
        rw [hv'] at hrel
        cases hrel with
        | some hb => exact ⟨w', rfl, hwal.becomes hb⟩
    · have hrel := hall .walTmp
      cases hv' : v' .walTmp <;> cases hvt : v .walTmp <;> rw [hv', hvt] at hrel
      · cases hrel
      · cases hrel
      · rfl

/-! ### The programs keep it -/

theorem CompactionState.length_bytes (state : CompactionState) : state.bytes.length = 24 := by
  rw [bytes, List.length_append, List.length_append, length_leBytes, length_leBytes,
    length_leBytes]

/-- The record of a compaction is read back. -/
theorem CompactionState.ofBytes_bytes {state : CompactionState} (hfits : state.Fits) :
    ofBytes state.bytes = state := by
  obtain ⟨hoffset, hsource, hretained⟩ := hfits
  have hfirst : (leBytes 8 state.offset ++ leBytes 8 state.sourceLen).length = 16 := by
    rw [List.length_append, length_leBytes, length_leBytes]
  rw [ofBytes, bytes, List.drop_left' hfirst, List.append_assoc,
    List.take_left' (length_leBytes 8 _), List.drop_left' (length_leBytes 8 _),
    List.take_left' (length_leBytes 8 _), leNat_leBytes (by simpa using hoffset),
    leNat_leBytes (by simpa using hsource), leNat_leBytes (by simpa using hretained)]

variable {m : ℕ} {d : Disk WalName} {α : Type} {Q : α → ℕ → Disk WalName → Prop}
  {E : IoError → ℕ → Disk WalName → Prop}

/-- A journal's files, at any time. -/
abbrev Kept (frame : ρ → List UInt8) (h : History ρ) (allowed : List UInt8 → ℕ → ℕ → Prop) :
    Disk WalName → Prop :=
  Disk.Always WalName.Temporary (Sound frame h allowed)

/-- A file that may not be there is read. -/
theorem wp_attempt_read {K : Disk WalName → Prop} {name : WalName}
    {k : Except IoError (List UInt8) → WalProgram α} (hK : K d)
    (hk : (k (match d.now name with
      | some f => .ok f.data
      | none => .error .notFound)).wp fine ⟨Q, E, K⟩ m d) :
    ((readFile name : WalProgram (List UInt8)).attempt.bind k).wp fine ⟨Q, E, K⟩ m d := by
  refine (Program.wp_bind _ _ _ _ _).2 ((Program.wp_attempt _ _ _ _).2 ?_)
  cases hname : d.now name with
  | none =>
    rw [hname] at hk
    exact wp_ask_missing hK (Disk.Always.effect_read_missing hname) hk
  | some f =>
    rw [hname] at hk
    exact wp_ask hK (Disk.Always.effect_read hname) hk

/-- What `read_compaction_state` reads. -/
theorem wp_readCompactionState (hd : Kept frame h allowed d)
    (hresumes : Resumes (d.now .state) (d.now .walTmp) c (h.offset frame older b k))
    {K : Option CompactionState → WalProgram α}
    (hnone : d.now .state = none → c = h.offset frame older b k →
      (K none).wp fine ⟨Q, E, Kept frame h allowed⟩ m d)
    (hsome : ∀ under : CompactionState, d.now .state = some (.synced under.bytes) → under.Fits →
      ((d.now .walTmp).isSome = true ∧ under.offset = h.offset frame older b k ∨
        (d.now .walTmp).isSome = false ∧ c = h.offset frame older b k) →
      (K (some under)).wp fine ⟨Q, E, Kept frame h allowed⟩ m d) :
    (readCompactionState.bind K).wp fine ⟨Q, E, Kept frame h allowed⟩ m d := by
  refine (Program.wp_bind _ _ _ _ _).2 (wp_attempt_read hd ?_)
  rcases hresumes with ⟨hmissing, hc⟩ | ⟨under, hfile, hfits, hrest⟩
  · rw [hmissing]
    exact hnone hmissing hc
  · rw [hfile]
    have hdata : (File.synced under.bytes).data = under.bytes := rfl
    dsimp only
    rw [hdata, if_pos under.length_bytes, CompactionState.ofBytes_bytes hfits]
    exact hsome under hfile hfits hrest

/-- `write_checkpoint` moves the place from which a start goes on. -/
theorem wp_writeCheckpoint (hd : Kept frame h allowed d) {k' c' : ℕ}
    (hs : SoundAt frame h allowed d.now older b k c) (hc : c' < 2 ^ 64)
    (hallowed : allowed older b k') (hge : b ≤ k') (hle : k' ≤ h.acked)
    (hresumes : Resumes (d.now .state) (d.now .walTmp) c' (h.offset frame older b k'))
    {Q : Unit → ℕ → Disk WalName → Prop}
    (hQ : ∀ d', Kept frame h allowed d' → SoundAt frame h allowed d'.now older b k' c' →
      d'.now .wal = d.now .wal → d'.now .state = d.now .state → d'.now .walTmp = d.now .walTmp →
      d'.pending = [] → Q () m d') :
    (writeCheckpoint c').wp fine ⟨Q, E, Kept frame h allowed⟩ m d := by
  have hbeside : Sound frame h allowed
      (Function.update d.now .ckptTmp (some (.written (leBytes 8 c')))) :=
    ⟨older, b, k, c, hs.congr rfl rfl rfl rfl⟩
  have hplace : SoundAt frame h allowed (Function.update (Function.update d.now .ckptTmp none)
      .ckpt (some (.synced (leBytes 8 c')))) older b k' c' :=
    ⟨hs.wal, .inr ⟨rfl, hc⟩, hallowed, hge, hle, hresumes⟩
  have htemporary : WalName.Temporary .ckptTmp := trivial
  refine wp_replaceFile (steady_sound frame h allowed) hd htemporary id hbeside
    ⟨older, b, k', c', hplace⟩ fun d' hd' hnow hpending => ?_
  exact hQ d' hd' (hnow ▸ hplace) (by rw [hnow]; rfl) (by rw [hnow]; rfl) (by rw [hnow]; rfl)
    hpending

/-- A start that begins after a compaction got to its rename, or after none, needs no record of one.
-/
theorem SoundAt.forget (hs : SoundAt frame h allowed v older b k c)
    (hckpt : (v .walTmp).isSome = false ∨ v .state = none ∨ c = h.offset frame older b k)
    {v' : View WalName} (hwal : v' .wal = v .wal) (hckpt' : v' .ckpt = v .ckpt)
    (hstate : v' .state = none) :
    SoundAt frame h allowed v' older b k c := by
  refine ⟨hwal ▸ hs.wal, hckpt' ▸ hs.ckpt, hs.allowed, hs.ge, hs.le, .inl ⟨hstate, ?_⟩⟩
  rcases hs.resumes with ⟨-, hc⟩ | ⟨under, hfile, -, ⟨htmp, -⟩ | ⟨-, hc⟩⟩
  · exact hc
  · rcases hckpt with hno | hno | hc
    · rw [htmp] at hno; cases hno
    · rw [hfile] at hno; cases hno
    · exact hc
  · exact hc

/-- `remove_compaction_state`, when a start would go on from the checkpoint anyway. -/
theorem wp_removeCompactionState (hd : Kept frame h allowed d)
    (hs : SoundAt frame h allowed d.now older b k c) {file : File}
    (hfile : d.now .state = some file)
    (hckpt : (d.now .walTmp).isSome = false ∨ c = h.offset frame older b k)
    {Q : Unit → ℕ → Disk WalName → Prop}
    (hQ : ∀ d', Kept frame h allowed d' → SoundAt frame h allowed d'.now older b k c →
      d'.now = Function.update d.now .state none → d'.pending = [] → Q () m d') :
    removeCompactionState.wp fine ⟨Q, E, Kept frame h allowed⟩ m d := by
  have hgone : SoundAt frame h allowed (Function.update d.now .state none) older b k c :=
    hs.forget (hckpt.imp_right .inr) rfl rfl rfl
  obtain ⟨d₁, heffect₁, h₁, hnow₁⟩ := hd.effect_remove hfile ⟨older, b, k, c, hgone⟩
  refine (Program.wp_bind _ _ _ _ _).2 ((Program.wp_attempt _ _ _ _).2 (wp_ask hd heffect₁ ?_))
  obtain ⟨d₂, heffect₂, h₂, hnow₂, hpending⟩ := h₁.effect_syncDir
  have hnow : d₂.now = Function.update d.now .state none := hnow₂.trans hnow₁
  exact wp_ask h₁ heffect₂ (hQ d₂ h₂ (hnow ▸ hgone) hnow hpending)

/-- **Recovery** leaves no compaction under way, wherever it begins. -/
theorem wp_recover (hd : Kept frame h allowed d) {Q : Unit → ℕ → Disk WalName → Prop}
    (hQ : ∀ d' older b k c, Kept frame h allowed d' → SoundAt frame h allowed d'.now older b k c →
      d'.now .state = none → Q () m d') :
    recoverUnfinishedCompaction.wp fine ⟨Q, E, Kept frame h allowed⟩ m d := by
  obtain ⟨older, b, k, c, hs⟩ := hd.now
  refine wp_readCompactionState hd hs.resumes (fun hstate _ => ?_) fun under hfile hfits hrest => ?_
  · exact hQ d older b k c hd hs hstate
  · refine wp_ask_bind hd (Disk.Always.effect_present d .walTmp) ?_
    rcases hrest with ⟨htmp, hoffset⟩ | ⟨htmp, hc⟩
    · rw [htmp, if_pos rfl]
      -- the rename did not happen: the checkpoint gets the offset of the compaction
      have hresumes : Resumes (d.now .state) (d.now .walTmp) under.offset
          (h.offset frame older b k) :=
        .inr ⟨under, hfile, hfits, .inl ⟨htmp, hoffset⟩⟩
      refine (Program.wp_bind _ _ _ _ _).2 ?_
      refine wp_writeCheckpoint hd hs hfits.1 hs.allowed hs.ge hs.le hresumes
        fun d₁ h₁ hs₁ hwal₁ hstate₁ htmp₁ _ => ?_
      obtain ⟨tmp, htmpfile⟩ := Option.isSome_iff_exists.1 (htmp₁ ▸ htmp)
      have hsound₂ : SoundAt frame h allowed (Function.update d₁.now .walTmp none) older b k
          under.offset :=
        ⟨hs₁.wal, hs₁.ckpt, hs₁.allowed, hs₁.ge, hs₁.le, .inr ⟨under, hstate₁.trans hfile, hfits,
          .inr ⟨rfl, hoffset⟩⟩⟩
      obtain ⟨d₂, heffect₂, h₂, hnow₂⟩ := h₁.effect_remove htmpfile ⟨older, b, k, _, hsound₂⟩
      refine wp_ask_bind h₁ heffect₂ ?_
      have hstate₂ : d₂.now .state = some (.synced under.bytes) := by
        rw [hnow₂]
        exact hstate₁.trans hfile
      have hsound₃ : SoundAt frame h allowed (Function.update d₂.now .state none) older b k
          under.offset :=
        (hnow₂ ▸ hsound₂ : SoundAt frame h allowed d₂.now older b k under.offset).forget
          (.inr (.inr hoffset)) rfl rfl rfl
      obtain ⟨d₃, heffect₃, h₃, hnow₃⟩ := h₂.effect_remove hstate₂ ⟨older, b, k, _, hsound₃⟩
      refine wp_ask_bind h₂ heffect₃ ?_
      obtain ⟨d₄, heffect₄, h₄, hnow₄, hpending⟩ := h₃.effect_syncDir
      have hnow : d₄.now = Function.update d₂.now .state none := hnow₄.trans hnow₃
      refine wp_ask h₃ heffect₄ (hQ d₄ older b k under.offset h₄ (hnow ▸ hsound₃) ?_)
      rw [hnow]
      rfl
    · rw [htmp, if_neg Bool.false_ne_true]
      -- the rename happened: the checkpoint is that of the new WAL
      exact wp_removeCompactionState hd hs hfile (.inl htmp) fun d' hd' hs' hnow hpending =>
        hQ d' older b k c hd' hs' (by rw [hnow]; rfl)

/-- The records from one on are those up to another and those from there on. -/
theorem stream_drop (frame : ρ → List UInt8) (records : List ρ) {b k : ℕ} (h : b ≤ k) :
    stream frame (records.drop b) =
      stream frame ((records.take k).drop b) ++ stream frame (records.drop k) := by
  have hsplit : records.drop b = (records.take k).drop b ++ records.drop k := by
    calc records.drop b = (records.drop b).take (k - b) ++ (records.drop b).drop (k - b) :=
          (List.take_append_drop _ _).symm
      _ = (records.take k).drop b ++ records.drop k := by
          rw [List.drop_take, List.drop_drop, Nat.add_sub_cancel' h]
  rw [hsplit, stream_append]

/-- **Cutting the WAL** at a record, when no compaction is under way. -/
theorem wp_cutWal (hd : Kept frame h allowed d) (hs : SoundAt frame h allowed d.now older b k c)
    (hstate : d.now .state = none) {wal : File} (hwal : d.now .wal = some wal)
    (hwhole : Whole frame h older b wal) (hm : m = wal.data.length) (hfits : m < 2 ^ 64)
    {k' : ℕ} (hallowed : allowed older b k') (hnew : allowed [] k' k') (hge : b ≤ k')
    (hle : k' ≤ h.acked) {Q : Unit → ℕ → Disk WalName → Prop}
    (hQ : ∀ d' wal', Kept frame h allowed d' → SoundAt frame h allowed d'.now [] k' k' 0 →
      d'.now .state = none → d'.pending = [] → d'.now .wal = some wal' →
      Whole frame h [] k' wal' → Q () wal'.data.length d') :
    (cutWal (h.offset frame older b k')).wp fine ⟨Q, E, Kept frame h allowed⟩ m d := by
  set offset := h.offset frame older b k' with hoffset
  set retained := stream frame (h.records.drop k') with hretained
  have hsplit : wal.data = (older ++ stream frame ((h.records.take k').drop b)) ++ retained := by
    rw [hwhole.data, stream_drop frame h.records hge, List.append_assoc]
  have hcut : (older ++ stream frame ((h.records.take k').drop b)).length = offset :=
    List.length_append
  have hlength : m = offset + retained.length := by
    rw [hm, hsplit, List.length_append, hcut]
  have hcopied : ((File.synced wal.data).data.drop offset).take (m - offset) = retained := by
    show (wal.data.drop offset).take (m - offset) = retained
    rw [hsplit, List.drop_left' hcut, List.take_of_length_le (by omega)]
  show Program.wp fine (if m < offset then _ else _) _ m d
  rw [if_neg (by omega)]
  -- the WAL is forced to the device and copied
  obtain ⟨d₁, heffect₁, h₁, hnow₁, -⟩ := hd.effect_sync (steady_sound frame h allowed) hwal
  refine wp_ask_bind hd heffect₁ ?_
  have hwal₁ : d₁.now .wal = some (.synced wal.data) := by rw [hnow₁]; rfl
  refine wp_ask_bind h₁ (Disk.Always.effect_read hwal₁) ?_
  have hs₁ : SoundAt frame h allowed d₁.now older b k c := by
    obtain ⟨f, hf, hfrom⟩ := hs.wal
    obtain rfl := Option.some.inj (hwal.symm.trans hf)
    exact ⟨⟨_, hwal₁, hfrom.sync⟩, hnow₁ ▸ hs.ckpt, hs.allowed, hs.ge, hs.le, hnow₁ ▸ hs.resumes⟩
  have hstate₁ : d₁.now .state = none := by rw [hnow₁]; exact hstate
  have hc : c = h.offset frame older b k := by
    rcases hs₁.resumes with ⟨-, hc⟩ | ⟨under, hfile, -⟩
    · exact hc
    · rw [hstate₁] at hfile
      cases hfile
  dsimp only
  rw [hcopied]
  have hsound₂ : Sound frame h allowed
      (Function.update d₁.now .walTmp (some (.written retained))) :=
    ⟨older, b, k, c, hs₁.wal, hs₁.ckpt, hs₁.allowed, hs₁.ge, hs₁.le, .inl ⟨hstate₁, hc⟩⟩
  have htemporary : WalName.Temporary .walTmp := trivial
  obtain ⟨d₂, heffect₂, h₂, hnow₂⟩ :=
    h₁.effect_create (steady_sound frame h allowed) htemporary hsound₂
  refine wp_ask_bind h₁ heffect₂ ?_
  rw [if_neg (by omega : ¬ retained.length ≠ m - offset)]
  have htmp₂ : d₂.now .walTmp = some (.written retained) := by rw [hnow₂]; rfl
  obtain ⟨d₃, heffect₃, h₃, hnow₃, -⟩ := h₂.effect_sync (steady_sound frame h allowed) htmp₂
  refine wp_ask_bind h₂ heffect₃ ?_
  have htmp₃ : d₃.now .walTmp = some (.synced retained) := by rw [hnow₃]; rfl
  have hwal₃ : d₃.now .wal = some (.synced wal.data) := by rw [hnow₃, hnow₂]; exact hwal₁
  have hs₃ : SoundAt frame h allowed d₃.now older b k c := by
    rw [hnow₃, hnow₂]
    exact ⟨hs₁.wal, hs₁.ckpt, hs₁.allowed, hs₁.ge, hs₁.le, .inl ⟨hstate₁, hc⟩⟩
  -- the record of the compaction: from now on a start goes on from where the WAL is cut
  set under : CompactionState := ⟨offset, m, m - offset⟩ with hunder
  have hunderfits : under.Fits := ⟨show offset < 2 ^ 64 by omega, hfits,
    show m - offset < 2 ^ 64 by omega⟩
  have hplace : SoundAt frame h allowed (Function.update (Function.update d₃.now .stateTmp none)
      .state (some (.synced under.bytes))) older b k' c :=
    ⟨hs₃.wal, hs₃.ckpt, hallowed, hge, hle, .inr ⟨under, rfl, hunderfits, .inl
      ⟨show (d₃.now .walTmp).isSome = true by rw [htmp₃]; rfl, rfl⟩⟩⟩
  refine (Program.wp_bind _ _ _ _ _).2 ?_
  have htemporary' : WalName.Temporary .stateTmp := trivial
  refine wp_replaceFile (steady_sound frame h allowed) h₃ htemporary' id
    ⟨older, b, k, c, hs₃.congr rfl rfl rfl rfl⟩ ⟨older, b, k', c, hplace⟩ fun d₄ h₄ hnow₄ _ => ?_
  have hs₄ : SoundAt frame h allowed d₄.now older b k' c := hnow₄ ▸ hplace
  have hstate₄ : d₄.now .state = some (.synced under.bytes) := by rw [hnow₄]; rfl
  have htmp₄ : d₄.now .walTmp = some (.synced retained) := by rw [hnow₄]; exact htmp₃
  -- the checkpoint of the new WAL, before it is there
  refine (Program.wp_bind _ _ _ _ _).2 ?_
  have hresumes : Resumes (d₄.now .state) (d₄.now .walTmp) 0 (h.offset frame older b k') :=
    .inr ⟨under, hstate₄, hunderfits, .inl ⟨by rw [htmp₄]; rfl, rfl⟩⟩
  refine wp_writeCheckpoint h₄ hs₄ (by decide) hallowed hge hle hresumes
    fun d₅ h₅ hs₅ hwal₅ hstate₅ htmp₅ _ => ?_
  have htmp₅ : d₅.now .walTmp = some (.synced retained) := htmp₅.trans htmp₄
  have hstate₅ : d₅.now .state = some (.synced under.bytes) := hstate₅.trans hstate₄
  have hfrom : WalFrom frame h [] k' (.synced retained) := by
    refine ⟨⟨retained, rfl, List.prefix_refl _, ?_⟩, ?_⟩
    · rw [hwhole.acked, List.take_length, List.nil_append]
    · show retained ++ [] <+: [] ++ retained
      rw [List.append_nil, List.nil_append]
  have hzero : h.offset frame [] k' k' = 0 := by
    rw [History.offset, List.drop_eq_nil_of_le (List.length_take_le _ _)]
    rfl
  have hsound₆ : SoundAt frame h allowed (Function.update (Function.update d₅.now .walTmp none)
      .wal (some (.synced retained))) [] k' k' 0 :=
    ⟨⟨_, rfl, hfrom⟩, hs₅.ckpt, hnew, Nat.le_refl _, hle, .inr ⟨under, hstate₅, hunderfits,
      .inr ⟨rfl, hzero.symm⟩⟩⟩
  obtain ⟨d₆, heffect₆, h₆, hnow₆⟩ := h₅.effect_rename htmp₅ htemporary id ⟨[], k', k', 0, hsound₆⟩
  refine wp_ask_bind h₅ heffect₆ ?_
  obtain ⟨d₇, heffect₇, h₇, hnow₇, hpending₇⟩ := h₆.effect_syncDir
  refine wp_ask_bind h₆ heffect₇ ?_
  have hnow : d₇.now = Function.update (Function.update d₅.now .walTmp none) .wal
      (some (.synced retained)) := hnow₇.trans hnow₆
  have hwal₇ : d₇.now .wal = some (.synced retained) := by rw [hnow]; rfl
  refine wp_ask_bind h₇ (Disk.Always.effect_touch hwal₇) ?_
  have hs₇ : SoundAt frame h allowed d₇.now [] k' k' 0 := hnow ▸ hsound₆
  have hstate₇ : d₇.now .state = some (.synced under.bytes) := by rw [hnow]; exact hstate₅
  have htmp₇ : (d₇.now .walTmp).isSome = false := by rw [hnow]; rfl
  show Program.wp fine removeCompactionState _ (m - offset) d₇
  refine wp_removeCompactionState h₇ hs₇ hstate₇ (.inl htmp₇) fun d₈ h₈ hs₈ hnow₈ hpending₈ => ?_
  have hwal₈ : d₈.now .wal = some (.synced retained) := by rw [hnow₈]; exact hwal₇
  have hlen : m - offset = (File.synced retained).data.length := by
    show m - offset = retained.length
    omega
  rw [hlen]
  exact hQ d₈ _ h₈ hs₈ (by rw [hnow₈]; rfl) hpending₈ hwal₈ ⟨hwhole.acked, rfl, rfl⟩

end Sound

end Journal

end Obsy
