import Obsy.Journal.Compaction
import Obsy.Machine.Run

/-!
# The life of a WAL

A journal starts on what a crash left, takes batches, and retires what was flushed; the flusher
writes the checkpoint while the writer goes on, or the writer cuts the WAL.  A crash may come
between any two operations, also of a start, and may take back what was not forced to the device.

* `startUp`: what a start does with the journal's files.
* `life`: the machine of starts, batches, checkpoints and crashes.
* `Host.Down`, `Host.Up`: what holds of the files while nothing runs, and while a journal serves.
* `startUp_puts_back`: wherever a run of the machine ends, a start that is not cut off puts back the
  records from a checkpoint on: all that were acknowledged since, in order, and after them only
  records that were being written.
-/

namespace Obsy

namespace Journal

open Bytes Machine

section Retirement

variable {Entry Span Sample : Type} (C : Checksum) (codec : Codec Entry Span Sample)

/-! ### A start -/

/-- What a replay says of itself. -/
structure ReplayReport (Entry Span Sample : Type) where
  /-- Where it began. -/
  checkpoint : ℕ
  /-- Where it ended. -/
  endOffset : ℕ
  /-- What it put back. -/
  replayed : Replayed Entry Span Sample

def readWal : WalProgram (Option (List UInt8)) := do
  if ← present .wal then
    let bytes ← readFile .wal
    return some bytes
  else return none

/-- `replay_reporting`. -/
def replayReporting (now : ℕ) (st : Replayed Entry Span Sample) :
    WalProgram (Except ReplayError (ReplayReport Entry Span Sample)) := do
  recoverUnfinishedCompaction
  let checkpoint ← readCheckpoint
  let wal ← readWal
  match replayFrom C codec now wal checkpoint st with
  | .error error => return .error error
  | .ok (endOffset, replayed) => return .ok ⟨checkpoint, endOffset, replayed⟩

/-- Cut what is behind the last record that replay read. -/
def cutTail (replayEnd : ℕ) : WalProgram Unit := do
  if ← present .wal then
    let len ← walLen
    if replayEnd < len then
      truncateFile .wal replayEnd
      syncFile .wal
    else return ()
  else return ()

/-- What `spawn_with_marks` and the writer do before the first command. -/
def openWriter : WalProgram Unit := do
  touchFile .wal
  syncFile .wal
  syncDir
  let goodLen ← walLen
  Program.store goodLen

/-- `recover_with_marks`, and then the journal's `spawn_with_marks`. -/
def startUp (now : ℕ) (st : Replayed Entry Span Sample) :
    WalProgram (Except ReplayError (ReplayReport Entry Span Sample)) := do
  match ← replayReporting C codec now st with
  | .error error => return .error error
  | .ok replay =>
    cutTail replay.endOffset
    openWriter
    return .ok replay

/-! ### A life -/

/-- What the flusher does about a checkpoint. -/
inductive Advance
  /-- It writes the checkpoint. -/
  | storing (rest : WalProgram Unit)
  /-- It has asked the writer to cut the WAL. -/
  | queued (offset : ℕ)
  /-- The writer cuts the WAL. -/
  | compacting (rest : WalProgram Unit)

/-- A journal that serves. -/
structure Serving where
  /-- `good_len`. -/
  goodLen : ℕ
  /-- Whether a batch is written and not yet synced. -/
  writing : Bool
  /-- The checkpoint that the flusher holds: its offset, and how many records are behind it. -/
  snapshot : Option (ℕ × ℕ)
  /-- What the flusher has under way. -/
  advance : Option Advance

/-- The directory of a journal with the process that serves it, if one does. -/
structure Host (Entry Span Sample : Type) where
  /-- The files. -/
  disk : Disk WalName
  /-- The process. -/
  serving : Option Serving
  /-- The records that were acknowledged since the last checkpoint that was advanced. -/
  owed : List (Written Entry Span Sample)
  /-- The records after them that were written and not acknowledged. -/
  inFlight : List (Written Entry Span Sample)
  /-- How many records the advance under way, or one that a crash cut off, takes over. -/
  passing : ℕ

/-- What happens. -/
inductive Event (Entry Span Sample : Type)
  | write (items : List (AppendItem Entry Span Sample))
  /-- It syncs the WAL and acknowledges the batch. -/
  | acknowledge
  /-- It syncs the WAL for a checkpoint. -/
  | checkpoint
  /-- The flusher begins to advance the checkpoint. -/
  | advance (remote : Bool) (walCompactMinBytes : Option ℕ)
  /-- The writer takes the command to cut the WAL. -/
  | compact
  /-- The next step of writing the checkpoint, or of cutting the WAL. -/
  | proceed
  /-- Everything stops. -/
  | crash (wreck : Wreck)
  /-- A start, which gets through this many operations before it is cut off. -/
  | start (now : ℕ) (tables : Tables Entry Span Sample) (operations : ℕ) (wreck : Wreck)

/-- The records that a start finds: what is owed and some of what was being written, with or without
what the advance passed. -/
def Host.candidates (s : Host Entry Span Sample) : List (List (Written Entry Span Sample)) :=
  [0, s.passing].flatMap fun k => (List.range (s.inFlight.length + 1)).map fun extra =>
    (s.owed ++ s.inFlight.take extra).drop k

/-- The records that these bytes are. -/
def Host.found (s : Host Entry Span Sample) (bytes : List UInt8) :
    List (Written Entry Span Sample) :=
  (s.candidates.find? fun ws => stream (Written.frame C) ws = bytes).getD []

/-- The bytes of the WAL. -/
def Host.wal (s : Host Entry Span Sample) : List UInt8 :=
  match s.disk.now .wal with
  | some file => file.data
  | none => []

/-- The next step of a program that advances the checkpoint. -/
def Host.go (s : Host Entry Span Sample) (serving : Serving) (advance : WalProgram Unit → Advance)
    (rest : WalProgram Unit) : Option (Host Entry Span Sample) :=
  match rest with
  | .ret () => some
      { s with
        serving := some { serving with advance := none }
        owed := s.owed.drop s.passing
        passing := 0 }
  | .throw _ => none
  | rest =>
    let next := rest.once disks DiskFate.well serving.goodLen s.disk
    some
      { s with
        disk := next.2.2
        serving := some { serving with goodLen := next.2.1, advance := some (advance next.1) } }

/-- What the flusher and the writer do to advance the checkpoint. -/
def Host.proceed (s : Host Entry Span Sample) (serving : Serving) :
    Option (Host Entry Span Sample) :=
  match serving.advance with
  | some (.storing rest) => s.go serving .storing rest
  | some (.compacting rest) => s.go serving .compacting rest
  | _ => none

/-- The writer is not cutting the WAL. -/
def Serving.free (serving : Serving) : Bool :=
  match serving.advance with
  | some (.compacting _) => false
  | _ => true

/-- A journal that serves does what an event says. -/
def Host.serve (s : Host Entry Span Sample) (serving : Serving) :
    Event Entry Span Sample → Option (Host Entry Span Sample)
  | .write items =>
    if serving.writing = false ∧ serving.free then
      (s.disk.effect (.append .wal (frameBatch C items))).map fun r =>
        { s with
          disk := r.2
          serving := some { serving with writing := true }
          inFlight := written items }
    else none
  | .acknowledge =>
    if serving.writing = true then
      (s.disk.effect (.sync .wal)).map fun r =>
        { s with
          disk := r.2
          serving := some { serving with
            goodLen := serving.goodLen + (stream (Written.frame C) s.inFlight).length
            writing := false }
          owed := s.owed ++ s.inFlight
          inFlight := [] }
    else none
  | .checkpoint =>
    match serving.advance with
    | some _ => none
    | none =>
      if serving.writing = false then
        (s.disk.effect (.sync .wal)).map fun r =>
          { s with
            disk := r.2
            serving := some { serving with snapshot := some (serving.goodLen, s.owed.length) } }
      else none
  | .advance remote walCompactMinBytes =>
    match serving.advance, serving.snapshot with
    | none, some (offset, covered) => some
        { s with
          serving := some { serving with
            snapshot := none
            advance := some (
              if shouldCompactWal serving.goodLen offset remote walCompactMinBytes then
                .queued offset
              else .storing (writeCheckpoint offset)) }
          passing := covered }
    | _, _ => none
  | .compact =>
    match serving.advance with
    | some (.queued offset) =>
      if serving.writing = false then
        some
          { s with
            serving := some { serving with advance := some (.compacting (compactWal offset)) } }
      else none
    | _ => none
  | .proceed => s.proceed serving
  | .crash wreck => some { s with disk := s.disk.crash wreck, serving := none }
  | .start _ _ _ _ => none

def Host.start (s : Host Entry Span Sample) (now : ℕ) (tables : Tables Entry Span Sample)
    (operations : ℕ) (wreck : Wreck) : Host Entry Span Sample :=
  let outcome := (startUp C codec now ⟨tables, 0, 0⟩).exec disks
    (List.replicate operations DiskFate.well) 0 s.disk
  match outcome.ending with
  | .done (.ok replay) =>
    let up := { s with disk := outcome.device }
    { disk := outcome.device
      serving := some ⟨outcome.memory, false, none, none⟩
      owed := s.found C (up.wal.drop replay.checkpoint)
      inFlight := []
      passing := 0 }
  | _ => { s with disk := outcome.device.crash wreck }

/-- The machine of a journal's files. -/
def life : Machine (Host Entry Span Sample) (Event Entry Span Sample) where
  step s event :=
    match s.serving, event with
    | some serving, event => s.serve C serving event
    | none, .start now tables operations wreck => some (s.start C codec now tables operations wreck)
    | none, .crash wreck => some { s with disk := s.disk.crash wreck }
    | none, _ => none

end Retirement

/-! ### Histories -/

section History

variable {ρ : Type} {frame : ρ → List UInt8} {h : History ρ}
  {allowed allowed' : List UInt8 → ℕ → ℕ → Prop} {v : View WalName}
  {older : List UInt8} {b k c : ℕ} {f : File}

/-- More records are being written. -/
theorem SoundAt.grow (hs : SoundAt frame h allowed v older b k c)
    (hacked : h.acked ≤ h.records.length) (more : List ρ) :
    SoundAt frame ⟨h.records ++ more, h.acked⟩ allowed v older b k c := by
  have htake : ∀ i, i ≤ h.acked → (h.records ++ more).take i = h.records.take i := fun i hi =>
    List.take_append_of_le_length (hi.trans hacked)
  have hdrop : (h.records ++ more).drop b = h.records.drop b ++ more :=
    List.drop_append_of_le_length ((hs.ge.trans hs.le).trans hacked)
  have hoffset : History.offset frame ⟨h.records ++ more, h.acked⟩ older b k =
      h.offset frame older b k := by
    rw [History.offset, History.offset, htake k hs.le]
  obtain ⟨f, hf, ⟨data, hdurable, hpre, hlow⟩, hwithin⟩ := hs.wal
  refine ⟨⟨f, hf, ⟨data, hdurable, hpre, ?_⟩, ?_⟩, hs.ckpt, hs.allowed, hs.ge, hs.le, ?_⟩
  · dsimp only
    rw [htake _ le_rfl]
    exact hlow
  · dsimp only
    rw [hdrop, stream_append, ← List.append_assoc]
    exact hwithin.trans (List.prefix_append _ _)
  · rw [hoffset]
    exact hs.resumes

theorem SoundAt.acknowledge (hs : SoundAt frame h allowed v older b k c)
    (hacked : h.acked ≤ h.records.length)
    (hwal : v .wal = some (.synced (older ++ stream frame (h.records.drop b)))) :
    SoundAt frame ⟨h.records, h.records.length⟩ allowed v older b k c := by
  refine ⟨⟨_, hwal, ⟨_, rfl, List.prefix_refl _, ?_⟩, ?_⟩, hs.ckpt, hs.allowed, hs.ge,
    hs.le.trans hacked, hs.resumes⟩
  · dsimp only
    rw [List.take_length]
  · show _ ++ [] <+: _
    rw [List.append_nil]
    exact List.prefix_refl _

/-- The records up to one count as older. -/
theorem WalFrom.rebase (hf : WalFrom frame h older b f) (hge : b ≤ k) (hle : k ≤ h.acked) :
    WalFrom frame ⟨h.records.drop k, h.acked - k⟩
      (older ++ stream frame ((h.records.take k).drop b)) 0 f := by
  obtain ⟨⟨data, hdurable, hpre, hlow⟩, hwithin⟩ := hf
  refine ⟨⟨data, hdurable, hpre, ?_⟩, ?_⟩
  · have hsplit := stream_drop frame (h.records.take h.acked) hge
    rw [List.take_take, min_eq_left hle] at hsplit
    dsimp only
    rw [List.drop_zero, List.append_assoc, ← List.drop_take, ← hsplit]
    exact hlow
  · dsimp only
    rw [List.drop_zero, List.append_assoc, ← stream_drop _ h.records hge]
    exact hwithin

/-- A start goes on from the first record, when those before count as older. -/
theorem SoundAt.rebase (hs : SoundAt frame h allowed v older b k c) (hstate : v .state = none)
    (hallowed : allowed' (older ++ stream frame ((h.records.take k).drop b)) 0 0) :
    SoundAt frame ⟨h.records.drop k, h.acked - k⟩ allowed' v
      (older ++ stream frame ((h.records.take k).drop b)) 0 0 c := by
  obtain ⟨f, hf, hwal⟩ := hs.wal
  refine ⟨⟨f, hf, hwal.rebase hs.ge hs.le⟩, hs.ckpt, hallowed, le_rfl, Nat.zero_le _, .inl
    ⟨hstate, ?_⟩⟩
  rcases hs.resumes with ⟨-, hc⟩ | ⟨under, hfile, -⟩
  · rw [hc, History.offset, History.offset, List.length_append]
    rfl
  · rw [hstate] at hfile
    cases hfile

theorem SoundAt.allow (hs : SoundAt frame h allowed v older b k c)
    (hallowed : ∀ older b k, allowed older b k → allowed' older b k) :
    SoundAt frame h allowed' v older b k c :=
  ⟨hs.wal, hs.ckpt, hallowed _ _ _ hs.allowed, hs.ge, hs.le, hs.resumes⟩

/-- The WAL changes. -/
theorem SoundAt.set_wal (hs : SoundAt frame h allowed v older b k c)
    (hf : WalFrom frame h older b f) :
    SoundAt frame h allowed (Function.update v .wal (some f)) older b k c :=
  ⟨⟨f, Function.update_self .., hf⟩, hs.ckpt, hs.allowed, hs.ge, hs.le, hs.resumes⟩

/-- The rest of what is being written. -/
theorem WalFrom.append (hf : WalFrom frame h older b f) (hstale : f.stale = []) {bytes : List UInt8}
    (hdata : f.data ++ bytes = older ++ stream frame (h.records.drop b)) :
    WalFrom frame h older b (f.append bytes) := by
  obtain ⟨⟨data, hdurable, hpre, hlow⟩, -⟩ := hf
  refine ⟨⟨data, ?_, hpre.trans (List.prefix_append _ _), hlow⟩, ?_⟩
  · rw [File.append, if_pos hstale, hdurable]
  · show (f.data ++ bytes) ++ [] <+: _
    rw [List.append_nil, hdata]

/-- Records whose frames fit are among those that a cut keeps. -/
theorem le_length_wholePrefix {xs : List ρ} {m i : ℕ} (hi : i ≤ xs.length)
    (hm : (stream frame (xs.take i)).length ≤ m) : i ≤ (wholePrefix frame m xs).length := by
  induction xs generalizing m i with
  | nil => exact hi
  | cons x xs ih =>
    cases i with
    | zero => exact Nat.zero_le _
    | succ i =>
      rw [List.take_succ_cons, stream_cons, List.length_append] at hm
      rw [wholePrefix, if_pos (by omega), List.length_cons]
      have hrest : i ≤ (wholePrefix frame (m - (frame x).length) xs).length :=
        ih (Nat.le_of_succ_le_succ hi) (by omega)
      omega

/-- What is in a WAL from which a start goes on: older bytes, records from one on, among them all
that were acknowledged, and a torn one. -/
theorem SoundAt.records (hs : SoundAt frame h allowed v older b k c) (hstate : v .state = none)
    (hacked : h.acked ≤ h.records.length) :
    ∃ f n torn, v .wal = some f ∧ h.acked ≤ n ∧ n ≤ h.records.length ∧
      c = (older ++ stream frame ((h.records.take k).drop b)).length ∧
      f.data = older ++ stream frame ((h.records.take k).drop b) ++
        (stream frame ((h.records.take n).drop k) ++ torn) ∧
      (torn = [] ∨ ∃ x, torn <+: frame x ∧ torn.length < (frame x).length) := by
  obtain ⟨f, hf, ⟨data, -, hpre, hlow⟩, hwithin⟩ := hs.wal
  have hc : c = h.offset frame older b k := by
    rcases hs.resumes with ⟨-, hc⟩ | ⟨under, hfile, -⟩
    · exact hc
    · rw [hstate] at hfile
      cases hfile
  set before := older ++ stream frame ((h.records.take k).drop b) with hbefore
  -- what was acknowledged is there, and nothing else than the records is
  have hlow' : before ++ stream frame ((h.records.drop k).take (h.acked - k)) <+: f.data := by
    have hsplit := stream_drop frame (h.records.take h.acked) hs.ge
    rw [List.take_take, min_eq_left hs.le] at hsplit
    rw [hbefore, List.append_assoc, ← List.drop_take, ← hsplit]
    exact hlow.trans hpre
  have hhigh : f.data <+: before ++ stream frame (h.records.drop k) := by
    rw [hbefore, List.append_assoc, ← stream_drop _ h.records hs.ge]
    exact (List.prefix_append _ _).trans hwithin
  obtain ⟨rest, hrest⟩ := (List.prefix_append before _).trans hlow'
  rw [← hrest, List.prefix_append_right_inj] at hlow' hhigh
  obtain ⟨torn, htake, htorn⟩ := stream_take frame rest.length (h.records.drop k)
  have hall : rest = stream frame (wholePrefix frame rest.length (h.records.drop k)) ++ torn := by
    rw [← htake]
    exact List.prefix_iff_eq_take.1 hhigh
  have hpart : wholePrefix frame rest.length (h.records.drop k) <+: h.records.drop k :=
    wholePrefix_prefix _ _
  have hwhole := List.prefix_iff_eq_take.1 hpart
  set count := (wholePrefix frame rest.length (h.records.drop k)).length with hcount
  have hlength : count ≤ h.records.length - k := by
    rw [hcount, ← List.length_drop]
    exact hpart.length_le
  have hmost : h.acked - k ≤ count := by
    refine le_length_wholePrefix ?_ hlow'.length_le
    rw [List.length_drop]
    omega
  have hle := hs.le
  refine ⟨f, k + count, torn, hf, by omega, by omega, hc.trans ?_, ?_, ?_⟩
  · rw [hbefore, List.length_append]
    rfl
  · rw [← hrest, List.drop_take, Nat.add_sub_cancel_left, ← hwhole, ← hall]
  · exact htorn.imp_right fun ⟨x, _, hx⟩ => ⟨x, hx⟩

end History

/-! ### What a start does -/

section Start

variable {Entry Span Sample : Type} {C : Checksum} {codec : Codec Entry Span Sample} {now : ℕ}

/-- Replay of a file that holds anything up to the checkpoint, whole records from there on, and then
a torn one. -/
theorem replayFrom_older (older : List UInt8) {ws : List (Written Entry Span Sample)}
    (hlive : ∀ w ∈ ws, w.Live codec) {torn : List UInt8} (htorn : Torn Entry Span Sample C torn)
    (hmax : (older ++ (stream (Written.frame C) ws ++ torn)).length < maxFileBytes)
    (st : Replayed Entry Span Sample) :
    replayFrom C codec now (some (older ++ (stream (Written.frame C) ws ++ torn))) older.length st =
      .ok ((older ++ stream (Written.frame C) ws).length, ws.foldl (Replayed.insert now) st) := by
  set bytes := older ++ (stream (Written.frame C) ws ++ torn) with hbytes
  have hloop : replayLoop C codec now bytes.length older.length
      (stream (Written.frame C) ws ++ torn) st =
        .ok (older.length + (stream (Written.frame C) ws).length,
          ws.foldl (Replayed.insert now) st) :=
    replayLoop_stream hlive htorn List.length_append hmax st
  have hle : ¬ bytes.length < older.length := by
    rw [hbytes, List.length_append]
    omega
  have hdrop : bytes.drop older.length = stream (Written.frame C) ws ++ torn := List.drop_left' rfl
  have hend : (older ++ stream (Written.frame C) ws).length =
      older.length + (stream (Written.frame C) ws).length := List.length_append
  rw [replayFrom, if_neg hle, hdrop, hloop, hend]
  split_ifs with heq
  · -- the file ends at the checkpoint
    have hnil : ws = [] := by
      cases ws with
      | nil => rfl
      | cons w ws =>
        have hpos := List.length_pos_of_ne_nil (w.frame_ne_nil (C := C))
        rw [hbytes, stream_cons] at heq
        simp only [List.length_append] at heq
        omega
    subst hnil
    rfl
  · rfl

variable {h : History (Written Entry Span Sample)} {allowed : List UInt8 → ℕ → ℕ → Prop}
  {older : List UInt8} {b k c m : ℕ} {d : Disk WalName} {f : File} {α : Type}
  {Q : α → ℕ → Disk WalName → Prop} {E : IoError → ℕ → Disk WalName → Prop}

/-- What `read_checkpoint` reads. -/
theorem wp_readCheckpoint (hd : Kept (Written.frame C) h allowed d) (hckpt : CkptIs (d.now .ckpt) c)
    {K : ℕ → WalProgram α}
    (hK : (K c).wp fine ⟨Q, E, Kept (Written.frame C) h allowed⟩ m d) :
    (readCheckpoint.bind K).wp fine ⟨Q, E, Kept (Written.frame C) h allowed⟩ m d := by
  refine (Program.wp_bind _ _ _ _ _).2 (wp_attempt_read hd ?_)
  rcases hckpt with ⟨hmissing, rfl⟩ | ⟨hfile, hfits⟩
  · rw [hmissing]
    exact hK
  · rw [hfile]
    have hdata : (File.synced (leBytes 8 c)).data = leBytes 8 c := rfl
    dsimp only
    rw [hdata, if_pos (length_leBytes 8 c), leNat_leBytes (by simpa using hfits)]
    exact hK

theorem wp_readWal (hd : Kept (Written.frame C) h allowed d) (hwal : d.now .wal = some f)
    {K : Option (List UInt8) → WalProgram α}
    (hK : (K (some f.data)).wp fine ⟨Q, E, Kept (Written.frame C) h allowed⟩ m d) :
    (readWal.bind K).wp fine ⟨Q, E, Kept (Written.frame C) h allowed⟩ m d := by
  refine (Program.wp_bind _ _ _ _ _).2 (wp_ask_bind hd (Disk.Always.effect_present d .wal) ?_)
  rw [hwal, Option.isSome_some, if_pos rfl]
  exact wp_ask_bind hd (Disk.Always.effect_read hwal) hK

/-- Where the records end that were acknowledged. -/
def History.ackedEnd (C : Checksum) (h : History (Written Entry Span Sample)) (older : List UInt8)
    (b : ℕ) : ℕ :=
  (older ++ stream (Written.frame C) ((h.records.take h.acked).drop b)).length

/-- Cutting a file leaves what was acknowledged. -/
theorem WalFrom.truncate (hf : WalFrom (Written.frame C) h older b f) {len : ℕ}
    (hlen : h.ackedEnd C older b ≤ len) : WalFrom (Written.frame C) h older b (f.truncate len) := by
  obtain ⟨⟨data, hdurable, hpre, hlow⟩, hwithin⟩ := hf
  refine ⟨⟨data.take len, ?_, hpre.take len, List.prefix_take_iff.2 ⟨hlow, hlen⟩⟩, ?_⟩
  · rw [File.truncate, hdurable, Option.map_some]
  · show f.data.take len ++ (f.data.drop len ++ f.stale) <+: _
    rw [← List.append_assoc, List.take_append_drop]
    exact hwithin

/-- The tail behind the records is cut, and what is left is forced to the device. -/
theorem wp_cutTail (hd : Kept (Written.frame C) h allowed d) (hwal : d.now .wal = some f)
    {len : ℕ} (hlen : len ≤ f.data.length)
    (hlow : ∀ older b k, allowed older b k → WalFrom (Written.frame C) h older b f →
      h.ackedEnd C older b ≤ len)
    {Q : Unit → ℕ → Disk WalName → Prop}
    (hQ : ∀ d' f', Kept (Written.frame C) h allowed d' →
      d'.now = Function.update d.now .wal (some f') → f'.data = f.data.take len → Q () m d') :
    (cutTail len).wp fine ⟨Q, E, Kept (Written.frame C) h allowed⟩ m d := by
  refine wp_ask_bind hd (Disk.Always.effect_present d .wal) ?_
  rw [hwal, Option.isSome_some, if_pos rfl]
  refine (Program.wp_bind _ _ _ _ _).2 (wp_ask_bind hd (Disk.Always.effect_read hwal) ?_)
  show Program.wp fine (if len < f.data.length then _ else _) _ m d
  split_ifs with hcut
  · have hsteady := steady_sound (Written.frame C) h allowed
    have hreal : ¬ WalName.Temporary .wal := id
    have hkeep : ∀ v, Sound (Written.frame C) h allowed v → v .wal = some f →
        Sound (Written.frame C) h allowed (Function.update v .wal (some (f.truncate len))) := by
      rintro v ⟨older, b, k, c, hs⟩ hv
      obtain ⟨w, hw, hfrom⟩ := hs.wal
      obtain rfl := Option.some.inj (hv.symm.trans hw)
      exact ⟨older, b, k, c, hs.set_wal (hfrom.truncate (hlow older b k hs.allowed hfrom))⟩
    obtain ⟨d₁, heffect₁, h₁, hnow₁, -⟩ := hd.effect_truncate hsteady hwal hreal hkeep
    refine wp_ask_bind hd heffect₁ ?_
    have hwal₁ : d₁.now .wal = some (f.truncate len) := by rw [hnow₁]; rfl
    obtain ⟨d₂, heffect₂, h₂, hnow₂, -⟩ := h₁.effect_sync hsteady hwal₁
    refine wp_ask h₁ heffect₂ (hQ d₂ (.synced (f.data.take len)) h₂ ?_ rfl)
    rw [hnow₂, hnow₁, Function.update_idem]
    rfl
  · refine hQ d f hd ?_ ?_
    · rw [← hwal, Function.update_eq_self]
    · rw [List.take_of_length_le (by omega)]

/-- Opening the writer forces the WAL and the names to the device. -/
theorem wp_openWriter (hd : Kept (Written.frame C) h allowed d) (hwal : d.now .wal = some f)
    {Q : Unit → ℕ → Disk WalName → Prop}
    (hQ : ∀ d', Kept (Written.frame C) h allowed d' →
      d'.now = Function.update d.now .wal (some (.synced f.data)) → d'.pending = [] →
      Q () f.data.length d') :
    openWriter.wp fine ⟨Q, E, Kept (Written.frame C) h allowed⟩ m d := by
  refine wp_ask_bind hd (Disk.Always.effect_touch hwal) ?_
  obtain ⟨d₁, heffect₁, h₁, hnow₁, -⟩ :=
    hd.effect_sync (steady_sound (Written.frame C) h allowed) hwal
  refine wp_ask_bind hd heffect₁ ?_
  obtain ⟨d₂, heffect₂, h₂, hnow₂, hpending⟩ := h₁.effect_syncDir
  refine wp_ask_bind h₁ heffect₂ ?_
  have hnow : d₂.now = Function.update d.now .wal (some (.synced f.data)) := hnow₂.trans hnow₁
  have hwal₂ : d₂.now .wal = some (.synced f.data) := by rw [hnow]; rfl
  refine (Program.wp_bind _ _ _ _ _).2 (wp_ask_bind h₂ (Disk.Always.effect_read hwal₂) ?_)
  exact hQ d₂ h₂ hnow hpending

/-- What a start leaves that got through: a WAL with older bytes and then these records, from which
the checkpoint says to go on, and everything on the device. -/
structure Started (C : Checksum) (older : List UInt8) (ws : List (Written Entry Span Sample))
    (len : ℕ) (d : Disk WalName) : Prop where
  wal : d.now .wal = some (.synced (older ++ stream (Written.frame C) ws))
  /-- The checkpoint. -/
  ckpt : CkptIs (d.now .ckpt) older.length
  /-- No compaction is under way. -/
  state : d.now .state = none
  /-- The names are synced. -/
  pending : d.pending = []
  goodLen : len = (older ++ stream (Written.frame C) ws).length
  fits : len < maxFileBytes
  /-- The files under their names. -/
  always : d.Always WalName.Temporary fun _ => True

/-- **A start** puts back the records from the checkpoint on, and leaves nothing else in the WAL. -/
theorem wp_startUp (hd : Kept (Written.frame C) h allowed d) (hacked : h.acked ≤ h.records.length)
    (hlive : ∀ w ∈ h.records, w.Live codec)
    (hfits : ∀ older b k, allowed older b k →
      (older ++ stream (Written.frame C) (h.records.drop b)).length < maxFileBytes)
    (hone : ∀ f older b k older' b' k', allowed older b k → allowed older' b' k' →
      WalFrom (Written.frame C) h older b f → WalFrom (Written.frame C) h older' b' f →
      h.ackedEnd C older' b' ≤ h.ackedEnd C older b)
    (st : Replayed Entry Span Sample)
    {Q : Except ReplayError (ReplayReport Entry Span Sample) → ℕ → Disk WalName → Prop}
    (hQ : ∀ d' m' older b k n, allowed older b k → k ≤ h.acked → h.acked ≤ n →
      n ≤ h.records.length →
      Started C (older ++ stream (Written.frame C) ((h.records.take k).drop b))
        ((h.records.take n).drop k) m' d' →
      Q (.ok ⟨(older ++ stream (Written.frame C) ((h.records.take k).drop b)).length,
        (older ++ stream (Written.frame C) ((h.records.take k).drop b) ++
          stream (Written.frame C) ((h.records.take n).drop k)).length,
        ((h.records.take n).drop k).foldl (Replayed.insert now) st⟩) m' d') :
    (startUp C codec now st).wp fine
      ⟨Q, fun _ _ _ => False, Kept (Written.frame C) h allowed⟩ m d := by
  refine (Program.wp_bind _ _ _ _ _).2 ((Program.wp_bind _ _ _ _ _).2 ?_)
  refine wp_recover hd fun d₁ older b k c h₁ hs₁ hstate₁ => ?_
  refine wp_readCheckpoint h₁ hs₁.ckpt ?_
  obtain ⟨f, n, torn, hwal, hfrom, hto, hc, hdata, htorn⟩ := hs₁.records hstate₁ hacked
  refine wp_readWal h₁ hwal ?_
  set before := older ++ stream (Written.frame C) ((h.records.take k).drop b) with hbefore
  set ws := (h.records.take n).drop k with hws
  obtain ⟨w, hw, hwalfrom⟩ := hs₁.wal
  obtain rfl := Option.some.inj (hwal.symm.trans hw)
  -- the WAL is not longer than the records allow
  have hmax : (before ++ (stream (Written.frame C) ws ++ torn)).length < maxFileBytes := by
    have hle := ((List.prefix_append _ _).trans hwalfrom.within).length_le
    rw [hdata] at hle
    exact hle.trans_lt (hfits older b k hs₁.allowed)
  have hreplay : replayFrom C codec now (some (before ++ (stream (Written.frame C) ws ++ torn)))
      before.length st = .ok ((before ++ stream (Written.frame C) ws).length,
        ws.foldl (Replayed.insert now) st) :=
    replayFrom_older before
      (fun w hw => hlive w (List.mem_of_mem_take (List.mem_of_mem_drop (hws ▸ hw)))) htorn hmax st
  rw [hdata, hc, hreplay]
  -- what is behind the last record is cut off
  set len := (before ++ stream (Written.frame C) ws).length with hlen
  have hend : h.ackedEnd C older b ≤ len := by
    have hsplit := stream_drop (Written.frame C) (h.records.take n) hs₁.ge
    rw [List.take_take, min_eq_left (hs₁.le.trans hfrom)] at hsplit
    have hpre : (h.records.take h.acked).drop b <+: (h.records.take n).drop b :=
      (List.take_prefix_take_left hfrom).drop b
    obtain ⟨more, hmore⟩ := hpre
    rw [hlen, hbefore, List.append_assoc, ← hsplit, ← hmore, stream_append, ← List.append_assoc,
      List.length_append]
    exact Nat.le_add_right _ _
  have htake : f.data.take len = before ++ stream (Written.frame C) ws := by
    rw [hdata, ← List.append_assoc, List.take_left' rfl]
  have hle : len ≤ f.data.length := by
    rw [hdata, ← List.append_assoc, List.length_append]
    exact Nat.le_add_right _ _
  refine (Program.wp_bind _ _ _ _ _).2 (wp_cutTail h₁ hwal hle
    (fun older' b' k' hallowed' hfrom' => (hone f older b k older' b' k' hs₁.allowed hallowed'
      hwalfrom hfrom').trans hend) fun d₂ f₂ h₂ hnow₂ hdata₂ => ?_)
  have hwal₂ : d₂.now .wal = some f₂ := by rw [hnow₂]; rfl
  refine (Program.wp_bind _ _ _ _ _).2 (wp_openWriter h₂ hwal₂ fun d₃ h₃ hnow₃ hpending => ?_)
  have hother : ∀ name, name ≠ .wal → d₃.now name = d₁.now name := by
    intro name hname
    rw [hnow₃, hnow₂, Function.update_of_ne hname, Function.update_of_ne hname]
  refine hQ d₃ _ older b k n hs₁.allowed hs₁.le hfrom hto ⟨?_, ?_, ?_, hpending, ?_, ?_, ?_⟩
  · rw [hnow₃, Function.update_self, hdata₂, htake]
  · rw [hother .ckpt (by decide), ← hc]
    exact hs₁.ckpt
  · rw [hother .state (by decide)]
    exact hstate₁
  · rw [hdata₂, htake]
  · rw [hdata₂, htake]
    refine lt_of_le_of_lt ?_ hmax
    rw [← List.append_assoc]
    exact (List.prefix_append _ torn).length_le
  · exact h₃.mono fun _ _ => trivial

end Start

/-! ### What holds of the files -/

section Life

variable {Entry Span Sample : Type} (C : Checksum) (codec : Codec Entry Span Sample)

/-- The WAL stays, and the checkpoint may move over some records. -/
def Stays (older : List UInt8) (passing : ℕ) (older' : List UInt8) (b k : ℕ) : Prop :=
  older' = older ∧ b = 0 ∧ (k = 0 ∨ k = passing)

/-- The WAL may have been cut behind these records, if nothing is being written. -/
def Cuts (full : Prop) (older : List UInt8) (passing : ℕ) (older' : List UInt8) (b k : ℕ) : Prop :=
  Stays older passing older' b k ∨ full ∧ older' = [] ∧ b = passing ∧ k = passing

/-- The records of a host. -/
def Host.history (s : Host Entry Span Sample) : History (Written Entry Span Sample) :=
  ⟨s.owed ++ s.inFlight, s.owed.length⟩

/-- The numbers of a host are as they should be. -/
structure Host.Sane (s : Host Entry Span Sample) (older : List UInt8) : Prop where
  passing : s.passing ≤ s.owed.length
  live : ∀ w ∈ s.owed ++ s.inFlight, w.Live codec
  fits : (older ++ stream (Written.frame C) (s.owed ++ s.inFlight)).length < maxFileBytes

/-- Nothing runs. -/
structure Host.Down (s : Host Entry Span Sample) (older : List UInt8) : Prop
    extends s.Sane C codec older where
  kept : Kept (Written.frame C) s.history (Cuts (s.inFlight = []) older s.passing) s.disk

/-- How far the writing of the checkpoint is. -/
inductive Storing (offset passing : ℕ) : WalProgram Unit → Disk WalName → ℕ → ℕ → Prop
  /-- It begins. -/
  | whole (d : Disk WalName) (k c : ℕ) : Storing offset passing (writeCheckpoint offset) d k c
  | written (d : Disk WalName) (k c : ℕ)
      (tmp : d.now .ckptTmp = some (.written (leBytes 8 offset))) :
      Storing offset passing
        (do syncFile .ckptTmp; renameFile .ckptTmp .ckpt; syncDir : WalProgram Unit) d k c
  /-- The temporary file is synced. -/
  | synced (d : Disk WalName) (k c : ℕ)
      (tmp : d.now .ckptTmp = some (.synced (leBytes 8 offset))) :
      Storing offset passing (do renameFile .ckptTmp .ckpt; syncDir : WalProgram Unit) d k c
  | renamed (d : Disk WalName) : Storing offset passing (syncDir : WalProgram Unit) d passing offset
  /-- The names are synced. -/
  | done (d : Disk WalName) (pending : d.pending = []) :
      Storing offset passing (.ret ()) d passing offset

/-- The place in the WAL behind the records that the advance passes. -/
def Host.offset (s : Host Entry Span Sample) (older : List UInt8) (covered : ℕ) : ℕ :=
  (older ++ stream (Written.frame C) (s.owed.take covered)).length

/-- A journal serves, and its writer is not cutting the WAL; a start would go on from record `k`. -/
structure Host.Up (s : Host Entry Span Sample) (serving : Serving) (older : List UInt8) (k c : ℕ) :
    Prop extends s.Sane C codec older where
  kept : Kept (Written.frame C) s.history (Stays older s.passing) s.disk
  sound : SoundAt (Written.frame C) s.history (Stays older s.passing) s.disk.now older 0 k c
  /-- No compaction is under way. -/
  state : s.disk.now .state = none
  settled : s.disk.Settled .wal
  /-- The WAL holds the records and nothing else. -/
  wal : ∃ f, s.disk.now .wal = some f ∧ f.stale = [] ∧
    f.data = older ++ stream (Written.frame C) (s.owed ++ s.inFlight)
  goodLen : serving.goodLen = (older ++ stream (Written.frame C) s.owed).length
  idle : serving.writing = false → s.inFlight = []
  snapshot : ∀ offset covered, serving.snapshot = some (offset, covered) →
    covered ≤ s.owed.length ∧ offset = s.offset C older covered

/-- What the flusher has under way is where it says. -/
def Host.Advancing (s : Host Entry Span Sample) (serving : Serving) (older : List UInt8) (k c : ℕ) :
    Prop :=
  match serving.advance with
  | none => s.passing = 0
  | some (.storing rest) =>
    serving.snapshot = none ∧ Storing (s.offset C older s.passing) s.passing rest s.disk k c
  | some (.queued offset) => serving.snapshot = none ∧ offset = s.offset C older s.passing
  | some (.compacting _) => False

/-- What cutting the WAL leaves. -/
structure Cut (h : History (Written Entry Span Sample)) (older : List UInt8) (passing : ℕ)
    (goodLen : ℕ) (d : Disk WalName) : Prop where
  kept : Kept (Written.frame C) h (Cuts True older passing) d
  sound : SoundAt (Written.frame C) h (Cuts True older passing) d.now [] passing passing 0
  state : d.now .state = none
  pending : d.pending = []
  wal : ∃ f, d.now .wal = some f ∧ Whole (Written.frame C) h [] passing f ∧ goodLen = f.data.length

structure Host.Cutting (s : Host Entry Span Sample) (serving : Serving) (older : List UInt8)
    (rest : WalProgram Unit) : Prop extends s.Sane C codec older where
  advance : serving.advance = some (.compacting rest)
  full : s.inFlight = []
  idle : serving.writing = false
  snapshot : serving.snapshot = none
  runs : rest.wp fine ⟨fun _ => Cut C s.history older s.passing, fun _ _ _ => False,
    Kept (Written.frame C) s.history (Cuts True older s.passing)⟩ serving.goodLen s.disk

/-- The invariant. -/
def Host.Ok (s : Host Entry Span Sample) : Prop :=
  match s.serving with
  | none => ∃ older, s.Down C codec older
  | some serving =>
    (∃ older k c, s.Up C codec serving older k c ∧ s.Advancing C serving older k c) ∨
      ∃ older rest, s.Cutting C codec serving older rest

variable {C codec} {s : Host Entry Span Sample} {older : List UInt8} {serving : Serving} {k c : ℕ}

theorem Host.history_take (s : Host Entry Span Sample) :
    s.history.records.take s.history.acked = s.owed := List.take_left' rfl

theorem Host.history_le (s : Host Entry Span Sample) :
    s.history.acked ≤ s.history.records.length := by
  rw [history, List.length_append]
  exact Nat.le_add_right _ _

theorem length_stream_drop_le (ws : List (Written Entry Span Sample)) (k : ℕ) :
    (stream (Written.frame C) (ws.drop k)).length ≤ (stream (Written.frame C) ws).length := by
  rw [← List.drop_zero (l := ws), stream_drop _ ws (Nat.zero_le k), List.length_append]
  exact Nat.le_add_left _ _

/-- A WAL is cut or not, but not both. -/
theorem Cuts.one {f : File} {older₁ older₂ : List UInt8} {b₁ k₁ b₂ k₂ : ℕ}
    (h₁ : Cuts (s.inFlight = []) older s.passing older₁ b₁ k₁)
    (h₂ : Cuts (s.inFlight = []) older s.passing older₂ b₂ k₂)
    (hf₁ : WalFrom (Written.frame C) s.history older₁ b₁ f)
    (hf₂ : WalFrom (Written.frame C) s.history older₂ b₂ f) :
    s.history.ackedEnd C older₂ b₂ ≤ s.history.ackedEnd C older₁ b₁ := by
  rcases h₁ with ⟨rfl, rfl, -⟩ | ⟨hfull, rfl, rfl, -⟩ <;>
    rcases h₂ with ⟨rfl, rfl, -⟩ | ⟨hfull', rfl, rfl, -⟩
  · exact le_rfl
  · rw [History.ackedEnd, History.ackedEnd, s.history_take, List.drop_zero, List.length_append,
      List.length_append]
    have hle := length_stream_drop_le (C := C) s.owed s.passing
    simp only [List.length_nil]
    omega
  · -- the file is what the records behind the cut are, and nothing else
    obtain ⟨data, -, hpre, hlow⟩ := hf₂.durable
    have hhigh := (List.prefix_append _ _).trans hf₁.within
    have hle := (hlow.trans (hpre.trans hhigh)).length_le
    have hrecords : s.history.records = s.owed := by
      rw [Host.history, hfull, List.append_nil]
    rw [History.ackedEnd, History.ackedEnd, s.history_take]
    rw [s.history_take, hrecords] at hle
    exact hle
  · exact le_rfl

theorem Cuts.fits (hsane : s.Sane C codec older) {older' : List UInt8} {b k : ℕ}
    (h : Cuts (s.inFlight = []) older s.passing older' b k) :
    (older' ++ stream (Written.frame C) (s.history.records.drop b)).length < maxFileBytes := by
  have hfits := hsane.fits
  rcases h with ⟨rfl, rfl, -⟩ | ⟨-, rfl, rfl, -⟩
  · exact hfits
  · refine lt_of_le_of_lt ?_ hfits
    have hle := length_stream_drop_le (C := C) s.history.records s.passing
    rw [List.length_append, List.length_append, List.length_nil]
    have hsame : s.history.records = s.owed ++ s.inFlight := rfl
    rw [hsame] at hle ⊢
    omega

/-- A start from what a crash left. -/
theorem Host.Down.wp_startUp (h : s.Down C codec older) (now : ℕ) (st : Replayed Entry Span Sample)
    (m : ℕ) :
    (startUp C codec now st).wp fine ⟨fun r m' d' => ∃ before k extra, (k = 0 ∨ k = s.passing) ∧
      extra ≤ s.inFlight.length ∧
      Started C before ((s.owed ++ s.inFlight.take extra).drop k) m' d' ∧
      r = .ok ⟨before.length,
        (before ++ stream (Written.frame C) ((s.owed ++ s.inFlight.take extra).drop k)).length,
        ((s.owed ++ s.inFlight.take extra).drop k).foldl (Replayed.insert now) st⟩,
      fun _ _ _ => False,
      Kept (Written.frame C) s.history (Cuts (s.inFlight = []) older s.passing)⟩ m s.disk := by
  refine Journal.wp_startUp h.kept s.history_le h.live
    (fun _ _ _ hallowed => Cuts.fits h.toSane hallowed)
    (fun _ _ _ _ _ _ _ h₁ h₂ hf₁ hf₂ => Cuts.one h₁ h₂ hf₁ hf₂) st ?_
  intro d' m' older' b k n hallowed hk hfrom hto hstarted
  have hrecords : s.history.records.take n = s.owed ++ s.inFlight.take (n - s.owed.length) := by
    rw [history, List.take_append, List.take_of_length_le hfrom]
  rw [hrecords] at hstarted ⊢
  refine ⟨_, k, n - s.owed.length, ?_, ?_, hstarted, rfl⟩
  · rcases hallowed with ⟨-, -, hk⟩ | ⟨-, -, -, hk⟩
    · exact hk
    · exact .inr hk
  · rw [history, List.length_append] at hto
    omega

/-- What a start leaves that got through, a journal serves on. -/
theorem Started.up {ws : List (Written Entry Span Sample)} {d : Disk WalName} {len : ℕ}
    (h : Started C older ws len d) (hlive : ∀ w ∈ ws, w.Live codec) :
    Host.Ok C codec ⟨d, some ⟨len, false, none, none⟩, ws, [], 0⟩ := by
  have hrecords : ws ++ [] = ws := List.append_nil ws
  have hwal : WalFrom (Written.frame C) ⟨ws ++ [], ws.length⟩ older 0
      (.synced (older ++ stream (Written.frame C) ws)) := by
    refine ⟨⟨_, rfl, List.prefix_refl _, ?_⟩, ?_⟩
    · dsimp only
      rw [hrecords, List.take_length, List.drop_zero]
    · show (older ++ stream (Written.frame C) ws) ++ [] <+:
        older ++ stream (Written.frame C) (ws ++ [])
      rw [hrecords, List.append_nil]
  have hsound : SoundAt (Written.frame C) ⟨ws ++ [], ws.length⟩ (Stays older 0) d.now older 0 0
      older.length :=
    ⟨⟨_, h.wal, hwal⟩, h.ckpt, ⟨rfl, rfl, .inl rfl⟩, le_rfl, Nat.zero_le _, .inl ⟨h.state, rfl⟩⟩
  refine .inl ⟨older, 0, older.length, ⟨⟨Nat.zero_le _, ?_, ?_⟩, ?_, hsound, h.state, ?_, ?_,
    h.goodLen, fun _ => rfl, fun _ _ hsnap => by cases hsnap⟩, rfl⟩
  · dsimp only
    rwa [hrecords]
  · dsimp only
    rw [hrecords, ← h.goodLen]
    exact h.fits
  · exact h.always.of_now h.pending ⟨older, 0, 0, older.length, hsound⟩
  · exact Disk.settled_of_pending h.pending _
  · exact ⟨_, h.wal, rfl, by dsimp only; rw [hrecords]; rfl⟩

/-- A crash, wherever it comes. -/
theorem Host.Ok.crash (h : s.Ok C codec) (wreck : Wreck) :
    Host.Ok C codec { s with disk := s.disk.crash wreck, serving := none } := by
  have hsteady : ∀ allowed, Steady WalName.Temporary (Sound (Written.frame C) s.history allowed) :=
    fun allowed => steady_sound (Written.frame C) s.history allowed
  rw [Ok] at h
  cases hserving : s.serving with
  | none =>
    rw [hserving] at h
    obtain ⟨older, hdown⟩ := h
    exact ⟨older, ⟨hdown.passing, hdown.live, hdown.fits⟩, hdown.kept.crash (hsteady _) wreck⟩
  | some serving =>
    rw [hserving] at h
    rcases h with ⟨older, k, c, hup, -⟩ | ⟨older, rest, hcut⟩
    · refine ⟨older, ⟨hup.passing, hup.live, hup.fits⟩, Disk.Always.crash (hsteady _) ?_ wreck⟩
      exact hup.kept.mono fun v ⟨o, b, k, c, hs⟩ => ⟨o, b, k, c, hs.allow fun _ _ _ => .inl⟩
    · refine ⟨older, ⟨hcut.passing, hcut.live, hcut.fits⟩, Disk.Always.crash (hsteady _) ?_ wreck⟩
      have hkept := Program.crashed_of_wp hcut.runs (fun _ _ _ hdone => hdone.kept)
        fun _ _ _ hno => hno.elim
      refine hkept.mono fun v ⟨o, b, k, c, hs⟩ => ⟨o, b, k, c, hs.allow fun _ _ _ hallowed => ?_⟩
      exact hallowed.imp_right fun ⟨_, hrest⟩ => ⟨hcut.full, hrest⟩

theorem Host.mem_candidates {ws : List (Written Entry Span Sample)} (hws : ws ∈ s.candidates) :
    ∀ w ∈ ws, w ∈ s.owed ++ s.inFlight := by
  intro w hw
  obtain ⟨k, -, hk⟩ := List.mem_flatMap.1 hws
  obtain ⟨extra, -, rfl⟩ := List.mem_map.1 hk
  rcases List.mem_append.1 (List.mem_of_mem_drop hw) with hw | hw
  · exact List.mem_append_left _ hw
  · exact List.mem_append_right _ (List.mem_of_mem_take hw)

/-- What a start finds are records that the host knows of. -/
theorem Host.found_eq (s : Host Entry Span Sample) {k extra : ℕ} (hk : k = 0 ∨ k = s.passing)
    (hextra : extra ≤ s.inFlight.length) {bytes : List UInt8}
    (hbytes : bytes = stream (Written.frame C) ((s.owed ++ s.inFlight.take extra).drop k)) :
    s.found C bytes ∈ s.candidates ∧ stream (Written.frame C) (s.found C bytes) = bytes := by
  have hmem : (s.owed ++ s.inFlight.take extra).drop k ∈ s.candidates := by
    refine List.mem_flatMap.2 ⟨k, ?_, List.mem_map.2 ⟨extra, List.mem_range.2 (by omega), rfl⟩⟩
    rcases hk with rfl | rfl
    · exact List.mem_cons_self
    · exact List.mem_cons_of_mem _ List.mem_cons_self
  cases hfind : s.candidates.find? fun ws => stream (Written.frame C) ws = bytes with
  | none => exact absurd hbytes.symm (by simpa using List.find?_eq_none.1 hfind _ hmem)
  | some ws =>
    rw [found, hfind, Option.getD_some]
    exact ⟨List.mem_of_find?_eq_some hfind, by simpa using List.find?_some hfind⟩

/-- A start, wherever it is cut off. -/
theorem Host.Down.start (h : s.Down C codec older) (hserving : s.serving = none) (now : ℕ)
    (tables : Tables Entry Span Sample) (operations : ℕ) (wreck : Wreck) :
    (s.start C codec now tables operations wreck).Ok C codec := by
  have hmeets := Program.exec_of_wp_restrict (h.wp_startUp now ⟨tables, 0, 0⟩ 0)
    (List.replicate operations DiskFate.well) fun fate hfate => by
      rw [List.eq_of_mem_replicate hfate]
      rfl
  have hcrashed : ∀ d, Kept (Written.frame C) s.history (Cuts (s.inFlight = []) older s.passing) d →
      Host.Ok C codec { s with disk := d.crash wreck } := fun d hd => by
    rw [Ok, hserving]
    exact ⟨older, ⟨h.passing, h.live, h.fits⟩, hd.crash (steady_sound _ _ _) wreck⟩
  rw [Host.start]
  generalize (startUp C codec now ⟨tables, 0, 0⟩).exec disks
    (List.replicate operations DiskFate.well) 0 s.disk = outcome at hmeets
  obtain ⟨ending, memory, device, rest⟩ := outcome
  cases ending with
  | crashed => exact hcrashed device hmeets
  | failed e => exact hmeets.elim
  | done r =>
    obtain ⟨before, k, extra, hk, hextra, hstarted, rfl⟩ := hmeets
    have hwal : Host.wal { s with disk := device } =
        before ++ stream (Written.frame C) ((s.owed ++ s.inFlight.take extra).drop k) := by
      rw [Host.wal]
      dsimp only
      rw [hstarted.wal]
      rfl
    obtain ⟨hmem, hbytes⟩ := s.found_eq (C := C) hk hextra rfl
    set ws := s.found C (stream (Written.frame C) ((s.owed ++ s.inFlight.take extra).drop k))
      with hws
    show Host.Ok C codec ⟨device, some ⟨memory, false, none, none⟩,
      s.found C ((Host.wal { s with disk := device }).drop before.length), [], 0⟩
    rw [hwal, List.drop_left' rfl, ← hws]
    have hup : Started C before ws memory device :=
      ⟨hbytes.symm ▸ hstarted.wal, hstarted.ckpt, hstarted.state, hstarted.pending,
        hbytes.symm ▸ hstarted.goodLen, hstarted.fits, hstarted.always⟩
    exact hup.up fun w hw => h.live w (mem_candidates hmem w hw)

theorem Storing.congr {offset passing : ℕ} {rest : WalProgram Unit} {d d' : Disk WalName}
    (h : Storing offset passing rest d k c) (htmp : d'.now .ckptTmp = d.now .ckptTmp)
    (hpending : d'.pending = d.pending) : Storing offset passing rest d' k c := by
  cases h with
  | whole => exact .whole _ _ _
  | written _ _ _ htmp' => exact .written _ _ _ (htmp.trans htmp')
  | synced _ _ _ htmp' => exact .synced _ _ _ (htmp.trans htmp')
  | renamed => exact .renamed _
  | done _ hdone => exact .done _ (hpending.trans hdone)

/-- What the writer does leaves the flusher alone. -/
theorem Host.Advancing.congr (h : s.Advancing C serving older k c) {s' : Host Entry Span Sample}
    {serving' : Serving} (hadvance : serving'.advance = serving.advance)
    (hsnapshot : serving'.snapshot = serving.snapshot) (hpassing : s'.passing = s.passing)
    (howed : s'.owed.take s.passing = s.owed.take s.passing)
    (htmp : s'.disk.now .ckptTmp = s.disk.now .ckptTmp)
    (hpending : s'.disk.pending = s.disk.pending) :
    s'.Advancing C serving' older k c := by
  have hoffset : s'.offset C older s'.passing = s.offset C older s.passing := by
    rw [offset, offset, hpassing, howed]
  rw [Advancing] at h ⊢
  rw [hadvance, hsnapshot, hoffset, hpassing]
  split at h
  · exact h
  · exact ⟨h.1, h.2.congr htmp hpending⟩
  · exact h
  · exact h

/-- The writer writes a batch. -/
theorem Host.Up.write (h : s.Up C codec serving older k c)
    (hadvance : s.Advancing C serving older k c)
    {items : List (AppendItem Entry Span Sample)} (hitems : ∀ item ∈ items, Live codec item)
    {s' : Host Entry Span Sample} (hstep : s.serve C serving (.write items) = some s')
    (hmax : s'.wal.length < maxFileBytes) : s'.Ok C codec := by
  rw [serve] at hstep
  split_ifs at hstep with hfree
  have hidle := h.idle hfree.1
  obtain ⟨f, hwal, hstale, hdata⟩ := h.wal
  have hrecords : s.history.records = s.owed := by rw [history, hidle, List.append_nil]
  have hgrow : ∀ {v : View WalName} {o : List UInt8} {b k c : ℕ},
      SoundAt (Written.frame C) s.history (Stays older s.passing) v o b k c →
      SoundAt (Written.frame C) ⟨s.owed ++ written items, s.owed.length⟩ (Stays older s.passing) v o
        b k c := fun hs => by
    have hgrown := hs.grow s.history_le (written items)
    rwa [hrecords] at hgrown
  -- the records that are there already, and those of the batch
  have hbytes : f.data ++ frameBatch C items =
      older ++ stream (Written.frame C) (s.owed ++ written items) := by
    rw [hdata, hidle, List.append_nil, stream_append, List.append_assoc]
    rfl
  have happend : ∀ {v : View WalName} {o : List UInt8} {b k c : ℕ},
      SoundAt (Written.frame C) ⟨s.owed ++ written items, s.owed.length⟩ (Stays older s.passing) v o
        b k c → v .wal = some f →
      SoundAt (Written.frame C) ⟨s.owed ++ written items, s.owed.length⟩ (Stays older s.passing)
        (Function.update v .wal (some (f.append (frameBatch C items)))) o b k c := fun hs hv => by
    obtain ⟨w, hw, hfrom⟩ := hs.wal
    obtain rfl := Option.some.inj (hv.symm.trans hw)
    obtain ⟨rfl, rfl, -⟩ := hs.allowed
    exact hs.set_wal (hfrom.append hstale hbytes)
  have hkept : Kept (Written.frame C) ⟨s.owed ++ written items, s.owed.length⟩
      (Stays older s.passing) s.disk := h.kept.mono fun v ⟨o, b, k, c, hs⟩ => ⟨o, b, k, c, hgrow hs⟩
  have hreal : ¬ WalName.Temporary .wal := id
  obtain ⟨d', heffect, hkept', hnow, hpending⟩ :=
    hkept.effect_append (steady_sound _ _ _) hwal hreal fun v ⟨o, b, k, c, hs⟩ hv =>
      ⟨o, b, k, c, happend hs hv⟩
  rw [heffect] at hstep
  cases hstep
  have hwal' : d'.now .wal = some (f.append (frameBatch C items)) := by rw [hnow]; rfl
  refine .inl ⟨older, k, c, ⟨⟨h.passing, ?_, ?_⟩, hkept', ?_, ?_, ?_, ⟨_, hwal', rfl, hbytes⟩,
    h.goodLen, fun hno => (by cases hno), h.snapshot⟩, ?_⟩
  · intro w hw
    rcases List.mem_append.1 hw with hw | hw
    · exact h.live w (List.mem_append_left _ hw)
    · exact live_of_mem_written hitems hw
  · rw [Host.wal] at hmax
    dsimp only at hmax
    rw [hwal'] at hmax
    dsimp only
    rw [← hbytes]
    exact hmax
  · rw [hnow]
    exact happend (hgrow h.sound) hwal
  · rw [hnow]
    exact h.state
  · have hleaves : DiskOp.Leaves WalName.wal (.append WalName.wal (frameBatch C items)) := trivial
    exact h.settled.effect hleaves heffect
  · exact hadvance.congr rfl rfl rfl rfl (by rw [hnow]; rfl) hpending

/-- The writer acknowledges a batch. -/
theorem Host.Up.acknowledge (h : s.Up C codec serving older k c)
    (hadvance : s.Advancing C serving older k c) {s' : Host Entry Span Sample}
    (hstep : s.serve C serving .acknowledge = some s') : s'.Ok C codec := by
  rw [serve] at hstep
  split_ifs at hstep
  obtain ⟨f, hwal, -, hdata⟩ := h.wal
  obtain ⟨d', heffect, hkept, hnow, hpending⟩ := h.kept.effect_sync (steady_sound _ _ _) hwal
  rw [heffect] at hstep
  cases hstep
  have hwal' : d'.now .wal = some (.synced f.data) := by rw [hnow]; rfl
  have hleaves : DiskOp.Leaves WalName.wal (.sync WalName.wal) := trivial
  have hsettled : d'.Settled .wal := h.settled.effect hleaves heffect
  have hhistory : (⟨s.owed ++ s.inFlight ++ [], (s.owed ++ s.inFlight).length⟩ :
      History (Written Entry Span Sample)) = ⟨s.history.records, s.history.records.length⟩ := by
    rw [List.append_nil]
    rfl
  -- wherever the WAL is, it is this one
  have hack : ∀ {v : View WalName} {o : List UInt8} {b k c : ℕ},
      SoundAt (Written.frame C) s.history (Stays older s.passing) v o b k c →
      v .wal = some (.synced f.data) →
      SoundAt (Written.frame C) ⟨s.history.records, s.history.records.length⟩
        (Stays older s.passing) v o b k c := fun hs hv => by
    obtain ⟨rfl, rfl, -⟩ := hs.allowed
    refine hs.acknowledge s.history_le ?_
    rw [hv, hdata]
    rfl
  refine .inl ⟨older, k, c, ⟨⟨?_, ?_, ?_⟩, ?_, ?_, ?_, hsettled, ⟨_, hwal', rfl, ?_⟩, ?_,
    fun _ => rfl, ?_⟩, ?_⟩
  · rw [List.length_append]
    exact h.passing.trans (Nat.le_add_right _ _)
  · dsimp only
    rw [List.append_nil]
    exact h.live
  · dsimp only
    rw [List.append_nil]
    exact h.fits
  · rw [history, hhistory]
    exact hkept.of_settled hsettled hwal' fun v ⟨o, b, k, c, hs⟩ hv => ⟨o, b, k, c, hack hs hv⟩
  · rw [history, hhistory]
    obtain ⟨w, hw, hfrom⟩ := h.sound.wal
    obtain rfl := Option.some.inj (hwal.symm.trans hw)
    refine hack ?_ hwal'
    rw [hnow]
    exact h.sound.set_wal hfrom.sync
  · rw [hnow]
    exact h.state
  · dsimp only
    rw [List.append_nil]
    exact hdata
  · dsimp only
    rw [h.goodLen, stream_append, List.length_append, List.length_append, List.length_append,
      Nat.add_assoc]
  · intro offset covered hsnapshot
    obtain ⟨hcovered, hoffset⟩ := h.snapshot offset covered hsnapshot
    refine ⟨?_, ?_⟩
    · rw [List.length_append]
      exact hcovered.trans (Nat.le_add_right _ _)
    · rw [hoffset, Host.offset, Host.offset, List.take_append_of_le_length hcovered]
  · exact hadvance.congr rfl rfl rfl (List.take_append_of_le_length h.passing) (by rw [hnow]; rfl)
      hpending

/-- The writer syncs the WAL for a checkpoint. -/
theorem Host.Up.checkpoint (h : s.Up C codec serving older k c)
    (hadvance : s.Advancing C serving older k c) {s' : Host Entry Span Sample}
    (hstep : s.serve C serving .checkpoint = some s') : s'.Ok C codec := by
  rw [serve] at hstep
  split at hstep
  · cases hstep
  · rename_i hnone
    split_ifs at hstep with hwriting
    obtain ⟨f, hwal, -, hdata⟩ := h.wal
    obtain ⟨d', heffect, hkept, hnow, hpending⟩ := h.kept.effect_sync (steady_sound _ _ _) hwal
    rw [heffect] at hstep
    cases hstep
    have hwal' : d'.now .wal = some (.synced f.data) := by rw [hnow]; rfl
    obtain ⟨w, hw, hfrom⟩ := h.sound.wal
    obtain rfl := Option.some.inj (hwal.symm.trans hw)
    have hleaves : DiskOp.Leaves WalName.wal (.sync WalName.wal) := trivial
    refine .inl ⟨older, k, c, ⟨⟨h.passing, h.live, h.fits⟩, hkept, ?_, ?_,
      h.settled.effect hleaves heffect, ⟨_, hwal', rfl, hdata⟩, h.goodLen, h.idle, ?_⟩, ?_⟩
    · rw [hnow]
      exact h.sound.set_wal hfrom.sync
    · rw [hnow]
      exact h.state
    · intro offset covered hsnapshot
      cases hsnapshot
      refine ⟨le_rfl, ?_⟩
      rw [Host.offset, List.take_length]
      exact h.goodLen
    · rw [Advancing, hnone] at hadvance ⊢
      exact hadvance

/-- The flusher begins to advance the checkpoint. -/
theorem Host.Up.advance (h : s.Up C codec serving older k c)
    (hadvance : s.Advancing C serving older k c) {remote : Bool} {walCompactMinBytes : Option ℕ}
    {s' : Host Entry Span Sample}
    (hstep : s.serve C serving (.advance remote walCompactMinBytes) = some s') : s'.Ok C codec := by
  rw [serve] at hstep
  split at hstep
  · rename_i offset covered hnone hsnapshot
    cases hstep
    obtain ⟨hcovered, hoffset⟩ := h.snapshot offset covered hsnapshot
    have hzero : s.passing = 0 := by
      rw [Advancing, hnone] at hadvance
      exact hadvance
    have hallowed : ∀ o b k, Stays older s.passing o b k → Stays older covered o b k :=
      fun o b k ⟨ho, hb, hk⟩ => ⟨ho, hb, .inl (hk.elim id fun hk => hk.trans hzero)⟩
    refine .inl ⟨older, k, c, ⟨⟨hcovered, h.live, h.fits⟩, ?_, h.sound.allow hallowed, h.state,
      h.settled, h.wal, h.goodLen, h.idle, fun _ _ hno => (by cases hno)⟩, ?_⟩
    · exact h.kept.mono fun v ⟨o, b, k, c, hs⟩ => ⟨o, b, k, c, hs.allow hallowed⟩
    · rw [Advancing]
      dsimp only
      split_ifs
      · exact ⟨rfl, hoffset⟩
      · subst hoffset
        exact ⟨rfl, .whole _ _ _⟩
  · cases hstep

/-- The writer begins to cut the WAL. -/
theorem Host.Up.compact (h : s.Up C codec serving older k c)
    (hadvance : s.Advancing C serving older k c) {s' : Host Entry Span Sample}
    (hstep : s.serve C serving .compact = some s') : s'.Ok C codec := by
  rw [serve] at hstep
  split at hstep
  · rename_i offset hqueued
    split_ifs at hstep with hwriting
    cases hstep
    rw [Advancing, hqueued] at hadvance
    obtain ⟨hsnapshot, hoffset⟩ := hadvance
    have hidle := h.idle hwriting
    have hrecords : s.history.records = s.owed := by rw [history, hidle, List.append_nil]
    obtain ⟨f, hwal, hstale, hdata⟩ := h.wal
    have hcuts : ∀ o b k, Stays older s.passing o b k → Cuts True older s.passing o b k :=
      fun _ _ _ => .inl
    have hkept : Kept (Written.frame C) s.history (Cuts True older s.passing) s.disk :=
      h.kept.mono fun v ⟨o, b, k, c, hs⟩ => ⟨o, b, k, c, hs.allow hcuts⟩
    have hwhole : Whole (Written.frame C) s.history older 0 f :=
      ⟨by rw [hrecords]; rfl, hdata, hstale⟩
    have hgood : serving.goodLen = f.data.length := by
      rw [h.goodLen, hdata, hidle, List.append_nil]
    have hfits : serving.goodLen < 2 ^ 64 := by
      rw [hgood, hdata]
      exact h.fits.trans (by decide)
    have hplace : offset = s.history.offset (Written.frame C) older 0 s.passing := by
      rw [hoffset, Host.offset, History.offset, List.length_append, hrecords, List.drop_zero]
    refine .inr ⟨older, compactWal offset, ⟨h.passing, h.live, h.fits⟩, rfl, hidle, hwriting,
      hsnapshot, ?_⟩
    rw [hplace]
    have hsound := h.sound.allow hcuts
    refine wp_readCompactionState hkept hsound.resumes (fun hstate _ => ?_) fun _ hno _ _ => ?_
    · refine wp_cutWal hkept hsound hstate hwal hwhole hgood hfits (.inl ⟨rfl, rfl, .inr rfl⟩)
        (.inr ⟨trivial, rfl, rfl, rfl⟩) (Nat.zero_le _) h.passing ?_
      intro d' wal' hkept' hsound' hstate' hpending hwal' hwhole'
      exact ⟨hkept', hsound', hstate', hpending, wal', hwal', hwhole', rfl⟩
    · rw [h.state] at hno
      cases hno
  · cases hstep

/-- The flusher's advance is through: what it passed is owed no more. -/
theorem Host.retire (hsane : s.Sane C codec older) {allowed : List UInt8 → ℕ → ℕ → Prop} {b c : ℕ}
    {older' : List UInt8} (hkept : Kept (Written.frame C) s.history allowed s.disk)
    (hsound : SoundAt (Written.frame C) s.history allowed s.disk.now older' b s.passing c)
    (hstate : s.disk.now .state = none) (hpending : s.disk.pending = [])
    {f : File} (hwal : s.disk.now .wal = some f) (hstale : f.stale = [])
    (hdata : f.data = older' ++ stream (Written.frame C) (s.history.records.drop b))
    (hlen : older'.length ≤ older.length)
    (hgood : serving.goodLen =
      (older' ++ stream (Written.frame C) (s.owed.drop b)).length)
    (hidle : serving.writing = false → s.inFlight = []) (hsnapshot : serving.snapshot = none) :
    Host.Ok C codec
      { s with
        serving := some { serving with advance := none }
        owed := s.owed.drop s.passing
        passing := 0 } := by
  have hrecords : s.owed.drop s.passing ++ s.inFlight = s.history.records.drop s.passing :=
    (List.drop_append_of_le_length hsane.passing).symm
  have htake : s.history.records.take s.passing = s.owed.take s.passing :=
    List.take_append_of_le_length hsane.passing
  have hhistory : (⟨s.owed.drop s.passing ++ s.inFlight, (s.owed.drop s.passing).length⟩ :
      History (Written Entry Span Sample)) =
        ⟨s.history.records.drop s.passing, s.history.acked - s.passing⟩ := by
    rw [hrecords, List.length_drop]
    rfl
  set shifted := older' ++ stream (Written.frame C) ((s.history.records.take s.passing).drop b)
    with hshifted
  have hall : shifted ++ stream (Written.frame C) (s.history.records.drop s.passing) =
      older' ++ stream (Written.frame C) (s.history.records.drop b) := by
    rw [hshifted, List.append_assoc, ← stream_drop _ s.history.records hsound.ge]
  have hrebased : SoundAt (Written.frame C)
      ⟨s.history.records.drop s.passing, s.history.acked - s.passing⟩ (Stays shifted 0) s.disk.now
      shifted 0 0 c := hsound.rebase hstate ⟨rfl, rfl, .inl rfl⟩
  refine .inl ⟨shifted, 0, c, ⟨⟨Nat.zero_le _, ?_, ?_⟩, ?_, ?_, hstate,
    Disk.settled_of_pending hpending _, ⟨f, hwal, hstale, ?_⟩, ?_, hidle, ?_⟩, rfl⟩
  · dsimp only
    rw [hrecords]
    exact fun w hw => hsane.live w (List.mem_of_mem_drop hw)
  · dsimp only
    rw [hrecords, hall]
    refine lt_of_le_of_lt ?_ hsane.fits
    have hle := length_stream_drop_le (C := C) s.history.records b
    rw [List.length_append, List.length_append]
    exact Nat.add_le_add hlen hle
  · rw [history, hhistory]
    exact hkept.of_now hpending ⟨shifted, 0, 0, c, hrebased⟩
  · rw [history, hhistory]
    exact hrebased
  · dsimp only
    rw [hrecords, hall, hdata]
  · dsimp only
    rw [hgood, stream_drop _ s.owed hsound.ge, ← List.append_assoc, hshifted, htake]
  · intro offset covered hno
    rw [hsnapshot] at hno
    cases hno

/-- The next operation of the flusher, or of the writer that cuts the WAL. -/
theorem Host.go_call (s : Host Entry Span Sample) (serving : Serving)
    (advance : WalProgram Unit → Advance) {op : DiskOp WalName} {res : op.Res} {d' : Disk WalName}
    (heffect : s.disk.effect op = some (res, d')) {rest next : WalProgram Unit}
    (hrest : ∃ K, rest = .call op K ∧ K (.ok res) = next) :
    s.go serving advance rest = some
      { s with
        disk := d'
        serving := some { serving with advance := some (advance next) } } := by
  have happly : disks.apply DiskFate.well s.disk op = (.ok res, d') := by
    simp only [disks, heffect, DiskFate.well, Bool.false_eq_true, if_false]
  obtain ⟨K, rfl, rfl⟩ := hrest
  show some { s with
    disk := (disks.apply DiskFate.well s.disk op).2
    serving := some { serving with
      advance := some (advance (K (disks.apply DiskFate.well s.disk op).1)) } } = _
  rw [happly]

/-- A step of writing the checkpoint. -/
theorem Host.Up.store (h : s.Up C codec serving older k c) {rest : WalProgram Unit}
    (hsnapshot : serving.snapshot = none)
    (hstoring : Storing (s.offset C older s.passing) s.passing rest s.disk k c)
    {s' : Host Entry Span Sample} (hstep : s.go serving .storing rest = some s') :
    s'.Ok C codec := by
  have hgo : ∀ {d' : Disk WalName} {rest' : WalProgram Unit} {k' c' : ℕ},
      Kept (Written.frame C) s.history (Stays older s.passing) d' →
      SoundAt (Written.frame C) s.history (Stays older s.passing) d'.now older 0 k' c' →
      d'.now .state = s.disk.now .state → d'.now .wal = s.disk.now .wal → d'.Settled .wal →
      Storing (s.offset C older s.passing) s.passing rest' d' k' c' →
      s' = { s with
        disk := d'
        serving := some { serving with advance := some (.storing rest') } } → s'.Ok C codec := by
    rintro d' rest' k' c' hkept hsound hstate hwal hsettled hstoring' rfl
    exact .inl ⟨older, k', c', ⟨⟨h.passing, h.live, h.fits⟩, hkept, hsound, hstate.trans h.state,
      hsettled, hwal ▸ h.wal, h.goodLen, h.idle, h.snapshot⟩, hsnapshot, hstoring'⟩
  have hsteady := steady_sound (Written.frame C) s.history (Stays older s.passing)
  have htemporary : WalName.Temporary .ckptTmp := trivial
  have hreal : ¬ WalName.Temporary .ckpt := id
  have hleaves : ∀ {op : DiskOp WalName} {res : op.Res} {d' : Disk WalName}, op.Leaves .wal →
      s.disk.effect op = some (res, d') → d'.Settled .wal := fun hop heffect =>
    h.settled.effect hop heffect
  have hmove : ∀ {op : DiskOp WalName} {res : op.Res} {d' : Disk WalName} {next : WalProgram Unit},
      s.disk.effect op = some (res, d') → (∃ K, rest = .call op K ∧ K (.ok res) = next) →
      s' = { s with
        disk := d'
        serving := some { serving with advance := some (.storing next) } } := fun heffect hrest =>
    Option.some.inj (hstep.symm.trans (s.go_call serving .storing heffect hrest))
  cases hstoring with
  | whole =>
    have hbeside : SoundAt (Written.frame C) s.history (Stays older s.passing)
        (Function.update s.disk.now .ckptTmp
          (some (.written (leBytes 8 (s.offset C older s.passing))))) older 0 k c :=
      h.sound.congr rfl rfl rfl rfl
    obtain ⟨d', heffect, hkept, hnow⟩ :=
      h.kept.effect_create hsteady htemporary ⟨older, 0, k, c, hbeside⟩
    have hwal : DiskOp.Leaves WalName.wal (.create WalName.ckptTmp
        (leBytes 8 (s.offset C older s.passing))) := fun hno => by cases hno
    exact hgo hkept (hnow ▸ hbeside) (by rw [hnow]; rfl) (by rw [hnow]; rfl) (hleaves hwal heffect)
      (.written _ _ _ (by rw [hnow]; rfl)) (hmove heffect ⟨_, rfl, rfl⟩)
  | written _ _ _ htmp =>
    obtain ⟨d', heffect, hkept, hnow, -⟩ := h.kept.effect_sync hsteady htmp
    have hwal : DiskOp.Leaves WalName.wal (.sync WalName.ckptTmp) := trivial
    have hbeside : SoundAt (Written.frame C) s.history (Stays older s.passing) d'.now older 0 k c :=
      h.sound.congr (by rw [hnow]; rfl) (by rw [hnow]; rfl) (by rw [hnow]; rfl) (by rw [hnow]; rfl)
    exact hgo hkept hbeside (by rw [hnow]; rfl) (by rw [hnow]; rfl)
      (hleaves hwal heffect) (.synced _ _ _ (by rw [hnow]; rfl))
      (hmove heffect ⟨_, rfl, rfl⟩)
  | synced _ _ _ htmp =>
    have hbound : s.offset C older s.passing < 2 ^ 64 := by
      have hfits := h.fits
      rw [← List.take_append_drop s.passing s.owed, List.append_assoc, stream_append,
        ← List.append_assoc, List.length_append] at hfits
      have hmax : maxFileBytes < 2 ^ 64 := by decide
      rw [Host.offset]
      omega
    have hoffset : s.offset C older s.passing =
        s.history.offset (Written.frame C) older 0 s.passing := by
      rw [Host.offset, History.offset, history, List.length_append, List.drop_zero,
        List.take_append_of_le_length h.passing]
    have hplace : SoundAt (Written.frame C) s.history (Stays older s.passing)
        (Function.update (Function.update s.disk.now .ckptTmp none) .ckpt
          (some (.synced (leBytes 8 (s.offset C older s.passing))))) older 0 s.passing
        (s.offset C older s.passing) :=
      ⟨h.sound.wal, .inr ⟨rfl, hbound⟩, ⟨rfl, rfl, .inr rfl⟩, Nat.zero_le _, h.passing,
        .inl ⟨h.state, hoffset⟩⟩
    obtain ⟨d', heffect, hkept, hnow⟩ :=
      h.kept.effect_rename htmp htemporary hreal ⟨older, 0, s.passing, _, hplace⟩
    have hwal : DiskOp.Leaves WalName.wal (.rename WalName.ckptTmp WalName.ckpt) :=
      ⟨fun hno => (by cases hno), fun hno => (by cases hno)⟩
    exact hgo hkept (hnow ▸ hplace) (by rw [hnow]; rfl) (by rw [hnow]; rfl) (hleaves hwal heffect)
      (.renamed _) (hmove heffect ⟨_, rfl, rfl⟩)
  | renamed =>
    obtain ⟨d', heffect, hkept, hnow, hpending⟩ := h.kept.effect_syncDir
    have hwal : DiskOp.Leaves WalName.wal (.syncDir : DiskOp WalName) := trivial
    exact hgo hkept (hnow ▸ h.sound) (by rw [hnow]) (by rw [hnow]) (hleaves hwal heffect)
      (.done _ hpending) (hmove heffect ⟨_, rfl, rfl⟩)
  | done _ hpending =>
    cases hstep
    obtain ⟨f, hwal, hstale, hdata⟩ := h.wal
    exact retire h.toSane h.kept h.sound h.state hpending hwal hstale hdata le_rfl h.goodLen h.idle
      hsnapshot

/-- A step of cutting the WAL. -/
theorem Host.Cutting.proceed {rest : WalProgram Unit} (h : s.Cutting C codec serving older rest)
    {s' : Host Entry Span Sample} (hstep : s.go serving .compacting rest = some s') :
    s'.Ok C codec := by
  have hnext : ∀ next : WalProgram Unit × ℕ × Disk WalName,
      next = rest.once disks DiskFate.well serving.goodLen s.disk →
      s' = { s with
        disk := next.2.2
        serving := some { serving with
          goodLen := next.2.1, advance := some (.compacting next.1) } } → s'.Ok C codec := by
    rintro next rfl rfl
    have hwell : DiskFate.Fine DiskFate.well := rfl
    exact .inr ⟨older, _, ⟨h.passing, h.live, h.fits⟩, rfl, h.full, h.idle, h.snapshot,
      Program.wp_once hwell h.runs⟩
  cases rest with
  | ret u =>
    cases hstep
    obtain ⟨hkept, hsound, hstate, hpending, f, hwal, hwhole, hgood⟩ := h.runs
    have hrecords : s.history.records = s.owed := by rw [history, h.full, List.append_nil]
    refine retire h.toSane hkept hsound hstate hpending hwal hwhole.stale hwhole.data
      (Nat.zero_le _) ?_ (fun _ => h.full) h.snapshot
    rw [hgood, hwhole.data, hrecords]
  | throw e => cases hstep
  | get k => exact hnext _ rfl (Option.some.inj hstep).symm
  | set m k => exact hnext _ rfl (Option.some.inj hstep).symm
  | call op k => exact hnext _ rfl (Option.some.inj hstep).symm

/-- What a run of the machine is asked: the appends are live, and the WAL is not longer than a file
can be. -/
def Mindful (codec : Codec Entry Span Sample) (_ : Host Entry Span Sample)
    (event : Event Entry Span Sample) (s' : Host Entry Span Sample) : Prop :=
  (∀ items, event = .write items → ∀ item ∈ items, Live codec item) ∧ s'.wal.length < maxFileBytes

/-- **The step lemma.** -/
theorem Host.Ok.step (h : s.Ok C codec) {event : Event Entry Span Sample}
    {s' : Host Entry Span Sample} (hstep : (life C codec).step s event = some s')
    (hmindful : Mindful codec s event s') : s'.Ok C codec := by
  have hcrash := h.crash
  rw [Ok] at h
  rw [life] at hstep
  dsimp only at hstep
  cases hserving : s.serving with
  | none =>
    rw [hserving] at h hstep
    obtain ⟨older, hdown⟩ := h
    cases event with
    | start now tables operations wreck =>
      cases hstep
      exact hdown.start hserving now tables operations wreck
    | crash wreck =>
      cases hstep
      exact hcrash wreck
    | _ => cases hstep
  | some serving =>
    rw [hserving] at h hstep
    dsimp only at hstep
    rcases h with ⟨older, k, c, hup, hadvance⟩ | ⟨older, rest, hcut⟩
    · cases event with
      | write items => exact hup.write hadvance (hmindful.1 items rfl) hstep hmindful.2
      | acknowledge => exact hup.acknowledge hadvance hstep
      | checkpoint => exact hup.checkpoint hadvance hstep
      | advance remote walCompactMinBytes => exact hup.advance hadvance hstep
      | compact => exact hup.compact hadvance hstep
      | proceed =>
        rw [Host.serve, Host.proceed] at hstep
        rw [Host.Advancing] at hadvance
        split at hstep
        · rename_i rest hstoring
          rw [hstoring] at hadvance
          exact hup.store hadvance.1 hadvance.2 hstep
        · rename_i rest hcompacting
          rw [hcompacting] at hadvance
          exact hadvance.elim
        · cases hstep
      | crash wreck =>
        cases hstep
        exact hcrash wreck
      | start => cases hstep
    · have hcompacting := hcut.advance
      cases event with
      | write items =>
        rw [Host.serve, if_neg] at hstep
        · cases hstep
        · rintro ⟨-, hfree⟩
          rw [Serving.free, hcompacting] at hfree
          cases hfree
      | acknowledge =>
        rw [Host.serve, hcut.idle] at hstep
        cases hstep
      | checkpoint =>
        rw [Host.serve, hcompacting] at hstep
        cases hstep
      | advance remote walCompactMinBytes =>
        rw [Host.serve, hcompacting] at hstep
        cases hstep
      | compact =>
        rw [Host.serve, hcompacting] at hstep
        cases hstep
      | proceed =>
        rw [Host.serve, Host.proceed, hcompacting] at hstep
        exact hcut.proceed hstep
      | crash wreck =>
        cases hstep
        exact hcrash wreck
      | start => cases hstep

/-- A directory with an empty WAL. -/
def Host.first : Host Entry Span Sample where
  disk :=
    { files := fun _ => .synced []
      fresh := 1
      names := fun name => if name = .wal then some 0 else none
      pending := [] }
  serving := none
  owed := []
  inFlight := []
  passing := 0

theorem Host.first_ok : (Host.first : Host Entry Span Sample).Ok C codec := by
  have hname : ∀ {name : WalName} {i : ℕ},
      (if name = .wal then some 0 else none : Option ℕ) = some i → name = .wal ∧ i = 0 := by
    intro name i hi
    split_ifs at hi with hwal
    exact ⟨hwal, (Option.some.inj hi).symm⟩
  have hwal : WalFrom (Written.frame C) (⟨[], 0⟩ : History (Written Entry Span Sample)) [] 0
      (.synced []) := ⟨⟨[], rfl, List.prefix_refl _, List.prefix_refl _⟩, List.prefix_refl _⟩
  have hmax : 0 < maxFileBytes := by decide
  refine ⟨[], ⟨le_rfl, fun w hw => (by cases hw), hmax⟩, ⟨fun k => ?_, fun k n i hn => ?_,
    fun k m n i hm hn => ?_, fun k m n i hm hn => ?_⟩⟩
  · rw [first, List.take_nil]
    exact ⟨[], 0, 0, 0, ⟨_, rfl, hwal⟩, .inl ⟨rfl, rfl⟩, .inl ⟨rfl, rfl, .inl rfl⟩, le_rfl, le_rfl,
      .inl ⟨rfl, rfl⟩⟩
  · rw [first, List.take_nil] at hn
    rw [(hname hn).2]
    exact Nat.zero_lt_one
  · rw [first, List.take_nil] at hm hn
    exact (hname hm).1.trans (hname hn).1.symm
  · rw [first, List.take_nil] at hn
    exact .inl ((hname hn).1.trans (hname hm).1.symm)

/-- The invariant holds in every run. -/
theorem life_ok {events : List (Event Entry Span Sample)} {s : Host Entry Span Sample}
    (hmindful : (life C codec).Within (Mindful codec) Host.first events)
    (hrun : (life C codec).run Host.first events = some s) : s.Ok C codec :=
  Machine.run_invariant_within (fun _ _ _ h hstep hok => h.step hstep hok) Host.first_ok hmindful
    hrun

/-- **A crash at any time loses nothing that was acknowledged.**  From a directory with an empty WAL
the journal was started, took batches, advanced its checkpoint and cut its WAL, and was stopped
between any two operations, any number of times.  Then a start that is not stopped puts back what is
owed, in order, with all, some or none of the batch that was being written; and when an advance was
under way, either all that it passes or nothing of it. -/
theorem startUp_puts_back {events : List (Event Entry Span Sample)} {s : Host Entry Span Sample}
    (hmindful : (life C codec).Within (Mindful codec) Host.first events)
    (hrun : (life C codec).run Host.first events = some s) (hdown : s.serving = none) (now : ℕ)
    (st : Replayed Entry Span Sample) :
    ∃ checkpoint endOffset k extra, (k = 0 ∨ k = s.passing) ∧ extra ≤ s.inFlight.length ∧
      ((startUp C codec now st).steady disks DiskFate.well 0 s.disk).1 =
        .ok (.ok ⟨checkpoint, endOffset,
          ((s.owed ++ s.inFlight.take extra).drop k).foldl (Replayed.insert now) st⟩) := by
  have hok := life_ok hmindful hrun
  rw [Host.Ok, hdown] at hok
  obtain ⟨older, hok⟩ := hok
  have hwell : ∀ fate, fate = DiskFate.well → DiskFate.Fine fate := fun fate hfate => by
    rw [hfate]
    rfl
  obtain ⟨r, m', hreturns, before, k, extra, hk, hextra, -, hr⟩ :=
    Program.steady_of_wp (Program.wp_restrict_mono hwell (hok.wp_startUp now st 0))
  exact ⟨_, _, k, extra, hk, hextra, hreturns.trans (congrArg Except.ok hr)⟩

/-- **Advancing never fails** of itself: while a checkpoint is being written or the WAL is being
cut, the next step is possible. -/
theorem advance_proceeds {events : List (Event Entry Span Sample)} {s : Host Entry Span Sample}
    (hmindful : (life C codec).Within (Mindful codec) Host.first events)
    (hrun : (life C codec).run Host.first events = some s) {serving : Serving}
    (hserving : s.serving = some serving) {rest : WalProgram Unit}
    (hrest : serving.advance = some (.storing rest) ∨ serving.advance = some (.compacting rest)) :
    ∃ s', (life C codec).step s .proceed = some s' := by
  have hok := life_ok hmindful hrun
  rw [Host.Ok, hserving] at hok
  have hgo : ∀ advance : WalProgram Unit → Advance, (∀ e, rest ≠ .throw e) →
      ∃ s', s.go serving advance rest = some s' := by
    intro advance hno
    cases rest with
    | throw e => exact absurd rfl (hno e)
    | _ => exact ⟨_, rfl⟩
  have hstep : (life C codec).step s .proceed = s.proceed serving := by
    rw [life]
    dsimp only
    rw [hserving]
    rfl
  rw [hstep, Host.proceed]
  rcases hrest with hstoring | hcompacting
  · rw [hstoring]
    refine hgo _ fun e he => ?_
    rcases hok with ⟨older, k, c, -, hadvance⟩ | ⟨older, rest', hcut⟩
    · rw [Host.Advancing, hstoring] at hadvance
      obtain ⟨-, hphase⟩ := hadvance
      rw [he] at hphase
      cases hphase
    · rw [hcut.advance] at hstoring
      cases hstoring
  · rw [hcompacting]
    refine hgo _ fun e he => ?_
    rcases hok with ⟨older, k, c, -, hadvance⟩ | ⟨older, rest', hcut⟩
    · rw [Host.Advancing, hcompacting] at hadvance
      exact hadvance
    · have hsame := hcut.advance
      rw [hcompacting] at hsame
      cases hsame
      rw [he] at hcut
      exact hcut.runs

end Life

/-! ### A sample life -/

/-- A journal is started, takes a batch, and begins to cut the WAL. -/
def sampleLife : List (Event (ℕ × String) Unit Unit) :=
  [.start 0 Tables.empty 20 ⟨none, fun _ => (0, [])⟩,
    .write [sampleItem ⟨sampleSender, .logs, ⟨1, 1⟩⟩], .acknowledge, .checkpoint,
    .advance true none, .compact] ++ List.replicate 10 .proceed

/-- The machine stops there, and loses the names that it has not forced to the device. -/
def sampleCrash : Event (ℕ × String) Unit Unit := .crash ⟨some 0, fun _ => (0, [])⟩

theorem sampleLife_mindful : (life crc32 sampleCodec).Within (Mindful sampleCodec) Host.first
    (sampleLife ++ [sampleCrash]) := by
  have hlive : ∀ event ∈ sampleLife ++ [sampleCrash], ∀ s s' : Host (ℕ × String) Unit Unit,
      ∀ items, event = .write items → ∀ item ∈ items, Live sampleCodec item := by
    rintro event hevent - - items rfl item hitem
    simp only [sampleLife, sampleCrash, List.mem_append, List.mem_cons, List.mem_replicate,
      reduceCtorEq, Event.write.injEq, List.not_mem_nil, or_false, false_or, and_false] at hevent
    subst hevent
    cases List.mem_singleton.1 hitem
    exact sampleItem_live _
  have hmax : (life crc32 sampleCodec).Within (fun _ _ s' => s'.wal.length < maxFileBytes)
      Host.first (sampleLife ++ [sampleCrash]) := by
    decide +kernel
  exact Machine.within_mono (fun _ _ _ h => h)
    (Machine.within_and (Machine.within_of_labels hlive _) hmax)

/-- The batch of the sample life is put back or is passed. -/
theorem startUp_puts_back_sample : ∃ s,
    (life crc32 sampleCodec).run Host.first (sampleLife ++ [sampleCrash]) = some s ∧
      s.owed.length = 2 ∧ s.passing = 2 ∧ ∃ checkpoint endOffset k extra,
        (k = 0 ∨ k = s.passing) ∧ extra ≤ s.inFlight.length ∧
          ((startUp crc32 sampleCodec 0 ⟨Tables.empty, 0, 0⟩).steady disks DiskFate.well 0
              s.disk).1 =
            .ok (.ok ⟨checkpoint, endOffset, ((s.owed ++ s.inFlight.take extra).drop k).foldl
              (Replayed.insert 0) ⟨Tables.empty, 0, 0⟩⟩) := by
  have hends : ((life crc32 sampleCodec).run Host.first (sampleLife ++ [sampleCrash])).map
      (fun s => (s.serving.isNone, s.owed.length, s.passing)) = some (true, 2, 2) := by
    decide +kernel
  obtain ⟨s, hrun, hs⟩ := Option.map_eq_some_iff.1 hends
  simp only [Prod.mk.injEq] at hs
  exact ⟨s, hrun, hs.2.1, hs.2.2,
    startUp_puts_back sampleLife_mindful hrun (Option.isNone_iff_eq_none.1 hs.1) 0 _⟩

/-- Where the sample life stops, the writer could go on. -/
theorem advance_proceeds_sample : ∃ s s',
    (life crc32 sampleCodec).run Host.first sampleLife = some s ∧
      (life crc32 sampleCodec).step s .proceed = some s' := by
  have hcompacting : ((life crc32 sampleCodec).run Host.first sampleLife).map
      (fun s => s.serving.map Serving.free) = some (some false) := by
    decide +kernel
  obtain ⟨s, hrun, hs⟩ := Option.map_eq_some_iff.1 hcompacting
  obtain ⟨serving, hserving, hfree⟩ := Option.map_eq_some_iff.1 hs
  have hmindful : (life crc32 sampleCodec).Within (Mindful sampleCodec) Host.first sampleLife :=
    (Machine.within_append sampleLife_mindful hrun).1
  rw [Serving.free] at hfree
  split at hfree
  · rename_i rest hrest
    obtain ⟨s', hstep⟩ := advance_proceeds hmindful hrun hserving (.inr hrest)
    exact ⟨s, s', hrun, hstep⟩
  · cases hfree

end Journal

end Obsy
