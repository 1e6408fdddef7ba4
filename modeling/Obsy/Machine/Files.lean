import Obsy.Machine.Program
import Mathlib.Data.List.Infix
import Mathlib.Logic.Function.Basic

/-!
# Files that a crash can take back

A directory of named files.  What is written to a file may be lost in a crash until the file is
synced, and a change of names may be lost until the directory is: names change on the device in the
order of the calls, so a crash keeps the first of the changes and loses the others.

* `Disk`, `DiskOp`, `disks`: the directory as a device; an operation may fail before or after its
  effect.
* `Disk.crash`: what a crash leaves, of a process or of the machine.
* `Disk.Always`: what holds of the files under every name that a crash may leave; the rules for each
  operation (`Always.sync`, `Always.create`, `Always.rename` and the others) and for a crash
  (`Always.crash`).
* `wp_ask`: the rule for an operation that does not fail.
-/

namespace Obsy

namespace Machine

structure File where
  /-- What it reads as. -/
  data : List UInt8
  /-- What it was when it was synced, unless it was overwritten since. -/
  durable : Option (List UInt8)
  /-- What was cut off and may come back. -/
  stale : List UInt8
deriving DecidableEq

namespace File

/-- A file that was just synced. -/
def synced (data : List UInt8) : File := ⟨data, some data, []⟩

/-- A file that was overwritten. -/
def written (data : List UInt8) : File := ⟨data, none, []⟩

/-- Add bytes at the end. -/
def append (f : File) (bytes : List UInt8) : File :=
  ⟨f.data ++ bytes, if f.stale = [] then f.durable else none, []⟩

/-- Cut a file. -/
def truncate (f : File) (len : ℕ) : File :=
  ⟨f.data.take len, f.durable.map (List.take len), f.data.drop len ++ f.stale⟩

/-- What a crash leaves of a file: any part of what was added since it was synced, and anything at
all when it was overwritten. -/
def survive (f : File) (n : ℕ) (junk : List UInt8) : List UInt8 :=
  match f.durable with
  | some data => data ++ ((f.data ++ f.stale).drop data.length).take n
  | none => junk

end File

/-- A change of the names in a directory. -/
inductive Change (N : Type)
  /-- A new name. -/
  | link (name : N) (file : ℕ)
  /-- A file gets another name. -/
  | rename (source target : N)
  /-- A name goes. -/
  | unlink (name : N)

variable {N : Type} [DecidableEq N]

/-- The names after a change. -/
def Change.apply (dir : N → Option ℕ) : Change N → N → Option ℕ
  | link name file => Function.update dir name (some file)
  | rename source target =>
    Function.update (Function.update dir source none) target (dir source)
  | unlink name => Function.update dir name none

/-- A directory with its files. -/
structure Disk (N : Type) where
  files : ℕ → File
  /-- A number that no file has, and none after it. -/
  fresh : ℕ
  /-- The names as they were synced. -/
  names : N → Option ℕ
  /-- The changes of names since, in order. -/
  pending : List (Change N)

namespace Disk

variable (d : Disk N)

def after (changes : List (Change N)) : N → Option ℕ := changes.foldl Change.apply d.names

/-- The names as they are. -/
def dir : N → Option ℕ := d.after d.pending

/-- The files under their names, after some changes. -/
def view (changes : List (Change N)) (name : N) : Option File := (d.after changes name).map d.files

/-- The files under their names. -/
def now : N → Option File := d.view d.pending

/-- Change one file. -/
def put (i : ℕ) (f : File) : Disk N := { d with files := Function.update d.files i f }

/-- Change a name. -/
def note (change : Change N) : Disk N := { d with pending := d.pending ++ [change] }

end Disk

/-- The operations on a directory. -/
inductive DiskOp (N : Type)
  | read (name : N)
  /-- Whether there is a file of this name. -/
  | present (name : N)
  /-- Write a whole file, new or not. -/
  | create (name : N) (data : List UInt8)
  /-- Make sure that there is a file of this name. -/
  | touch (name : N)
  /-- Write at the end of a file. -/
  | append (name : N) (data : List UInt8)
  /-- Cut a file. -/
  | truncate (name : N) (len : ℕ)
  | sync (name : N)
  /-- Give a file another name. -/
  | rename (source target : N)
  | remove (name : N)
  /-- Force the names to the device. -/
  | syncDir

/-- Why a call fails. -/
inductive IoError
  /-- There is no such file. -/
  | notFound
  /-- The operation failed. -/
  | other
  /-- What a file holds makes no sense. -/
  | invalidData (message : String)
  /-- The call makes no sense. -/
  | invalidInput (message : String)
  /-- A file ended too early. -/
  | unexpectedEof (message : String)
deriving DecidableEq

/-- What an operation that goes well gives. -/
def DiskOp.Res : DiskOp N → Type
  | read _ => List UInt8
  | present _ => Bool
  | _ => Unit

/-- The interface of a directory. -/
abbrev diskInterface (N : Type) : Interface := ⟨DiskOp N, fun op => Except IoError op.Res⟩

/-- What an operation gives and leaves when it goes well; nothing when the file it names is
missing. -/
def Disk.effect (d : Disk N) : (op : DiskOp N) → Option (op.Res × Disk N)
  | .read name => (d.now name).map fun f => (f.data, d)
  | .present name => some ((d.dir name).isSome, d)
  | .create name data =>
    match d.dir name with
    | some i => some ((), d.put i (.written data))
    | none => some ((), { (d.put d.fresh (.written data)).note (.link name d.fresh) with
        fresh := d.fresh + 1 })
  | .touch name =>
    match d.dir name with
    | some _ => some ((), d)
    | none => some ((), { (d.put d.fresh (.written [])).note (.link name d.fresh) with
        fresh := d.fresh + 1 })
  | .append name data => (d.dir name).map fun i => ((), d.put i ((d.files i).append data))
  | .truncate name len => (d.dir name).map fun i => ((), d.put i ((d.files i).truncate len))
  | .sync name => (d.dir name).map fun i => ((), d.put i (.synced (d.files i).data))
  | .rename source target => (d.dir source).map fun _ => ((), d.note (.rename source target))
  | .remove name => (d.dir name).map fun _ => ((), d.note (.unlink name))
  | .syncDir => some ((), { d with names := d.dir, pending := [] })

/-- What becomes of one operation. -/
structure DiskFate where
  fails : Bool
  /-- Whether an operation that reports an error took effect. -/
  applied : Bool

/-- An operation that goes well. -/
def DiskFate.Fine (fate : DiskFate) : Prop := fate.fails = false

/-- What becomes of an operation that goes well. -/
def DiskFate.well : DiskFate := ⟨false, false⟩

/-- The directory as a device. -/
def disks : Device (diskInterface N) (Disk N) DiskFate where
  apply fate d op :=
    match d.effect op with
    | none => (.error .notFound, d)
    | some (res, d') =>
      if fate.fails then (.error .other, if fate.applied then d' else d) else (.ok res, d')

/-- What a crash keeps: how many of the changes of names, nothing if only the process dies, and what
of each file. -/
structure Wreck where
  /-- The changes of names that the device has, if the machine loses its memory. -/
  kept : Option ℕ
  /-- What is left of each file. -/
  left : ℕ → ℕ × List UInt8

/-- What a crash leaves. -/
def Disk.crash (d : Disk N) (wreck : Wreck) : Disk N :=
  let left i := (d.files i).survive (wreck.left i).1 (wreck.left i).2
  match wreck.kept with
  | some kept =>
    { d with
      files := fun i => .synced (left i)
      names := d.after (d.pending.take kept)
      pending := [] }
  | none =>
    { d with files := fun i => ⟨left i, (d.files i).durable,
        ((d.files i).data ++ (d.files i).stale).drop (left i).length⟩ }

/-! ### What a crash may leave -/

/-- The files under their names. -/
abbrev View (N : Type) : Type := N → Option File

/-- What a crash may make of a file. -/
def File.Becomes (f f' : File) : Prop :=
  ∃ n junk, f' = .synced (f.survive n junk) ∨
    f' = ⟨f.survive n junk, f.durable, (f.data ++ f.stale).drop (f.survive n junk).length⟩

/-- What may be said of the files at all times: it does not depend on what temporary files hold, and
neither a crash nor a sync makes it false. -/
structure Steady (temporary : N → Prop) (P : View N → Prop) : Prop where
  /-- What a temporary file holds. -/
  overwrite : ∀ v t f f', temporary t → P v → v t = some f → P (Function.update v t (some f'))
  sync : ∀ v n f, P v → v n = some f → P (Function.update v n (some (.synced f.data)))
  crash : ∀ v v', P v → (∀ n, Option.Rel File.Becomes (v n) (v' n)) → P v'

namespace Disk

/-- The files satisfy a condition, however many of the changes of names the device has.  A file of a
temporary name has no other, and what has another name was never anything else but temporary. -/
structure Always (temporary : N → Prop) (P : View N → Prop) (d : Disk N) : Prop where
  /-- The condition. -/
  holds : ∀ k, P (d.view (d.pending.take k))
  /-- All files are older than the next. -/
  below : ∀ k n i, d.after (d.pending.take k) n = some i → i < d.fresh
  inj : ∀ k m n i, d.after (d.pending.take k) m = some i → d.after (d.pending.take k) n = some i →
    m = n
  /-- A file had the name that it has, or a temporary one. -/
  apart : ∀ k m n i, d.dir m = some i → d.after (d.pending.take k) n = some i →
    n = m ∨ temporary n ∧ ¬ temporary m

variable {temporary : N → Prop} {P P' : View N → Prop} {d : Disk N} {m n : N} {i : ℕ} {f f' : File}

omit [DecidableEq N] in
@[simp] theorem put_files_self (d : Disk N) (i : ℕ) (f : File) : (d.put i f).files i = f :=
  Function.update_self ..

omit [DecidableEq N] in
@[simp] theorem put_files_of_ne (d : Disk N) {i j : ℕ} (h : j ≠ i) (f : File) :
    (d.put i f).files j = d.files j := Function.update_of_ne h ..

theorem dir_of_now (h : d.now n = some f) : ∃ i, d.dir n = some i ∧ d.files i = f :=
  Option.map_eq_some_iff.1 h

namespace Always

theorem now (h : Always temporary P d) : P d.now := by
  have hall := h.holds d.pending.length
  rwa [List.take_length] at hall

theorem mono (h : Always temporary P d) (hP : ∀ v, P v → P' v) : Always temporary P' d :=
  { h with holds := fun k => hP _ (h.holds k) }

theorem dir_inj (h : Always temporary P d) (hm : d.dir m = some i) (hn : d.dir n = some i) :
    m = n := by
  have hall := h.inj d.pending.length m n i
  rw [List.take_length] at hall
  exact hall hm hn

end Always

/-- One file changes, which has at most one name. -/
theorem view_put {changes : List (Change N)}
    (hinj : ∀ m n i, d.after changes m = some i → d.after changes n = some i → m = n) (i : ℕ)
    (f : File) : (d.put i f).view changes = d.view changes ∨
      ∃ n, d.after changes n = some i ∧
        (d.put i f).view changes = Function.update (d.view changes) n (some f) := by
  by_cases hname : ∃ n, d.after changes n = some i
  · obtain ⟨n, hn⟩ := hname
    refine .inr ⟨n, hn, ?_⟩
    funext other
    by_cases hother : other = n
    · subst hother
      rw [Function.update_self]
      show (d.after changes other).map _ = _
      rw [hn, Option.map_some, put_files_self]
    · rw [Function.update_of_ne hother]
      show (d.after changes other).map _ = (d.after changes other).map _
      cases ho : d.after changes other with
      | none => rfl
      | some j =>
        have hne : j ≠ i := fun hji => hother (hinj _ _ _ (hji ▸ ho) hn)
        rw [Option.map_some, Option.map_some, put_files_of_ne d hne]
  · refine .inl (funext fun other => ?_)
    show (d.after changes other).map _ = (d.after changes other).map _
    cases ho : d.after changes other with
    | none => rfl
    | some j =>
      have hne : j ≠ i := fun hji => hname ⟨other, hji ▸ ho⟩
      rw [Option.map_some, Option.map_some, put_files_of_ne d hne]

theorem now_put (h : Always temporary P d) (hn : d.dir n = some i) (f : File) :
    (d.put i f).now = Function.update d.now n (some f) := by
  have hinj : ∀ m n i, d.after d.pending m = some i → d.after d.pending n = some i → m = n :=
    fun m n j hm hn => h.dir_inj hm hn
  rcases view_put hinj i f with hsame | hput
  · -- the file has a name, so its view does change
    funext other
    by_cases hother : other = n
    · subst hother
      rw [Function.update_self]
      show (d.dir other).map _ = _
      rw [hn, Option.map_some, put_files_self]
    · rw [Function.update_of_ne hother]
      exact congrFun hsame other
  · obtain ⟨m, hm, hview⟩ := hput
    rw [h.dir_inj hm hn] at hview
    exact hview

/-- **The rule for what a file holds.** -/
theorem Always.put (h : Always temporary P d) (hm : d.dir m = some i)
    (hP : ∀ v n, P v → v n = some (d.files i) → n = m ∨ temporary n ∧ ¬ temporary m →
      P (Function.update v n (some f))) : Always temporary P (d.put i f) where
  holds k := by
    show P ((d.put i f).view (d.pending.take k))
    rcases view_put (h.inj k) i f with hsame | ⟨n, hn, hview⟩
    · rw [hsame]
      exact h.holds k
    · rw [hview]
      refine hP _ n (h.holds k) ?_ (h.apart k m n i hm hn)
      show (d.after _ n).map d.files = _
      rw [hn, Option.map_some]
  below := h.below
  inj := h.inj
  apart := h.apart

/-- The names after one more change. -/
theorem dir_note (d : Disk N) (change : Change N) : (d.note change).dir = change.apply d.dir := by
  show List.foldl _ _ (d.pending ++ [change]) = _
  rw [List.foldl_append]
  rfl

/-- The changes that a crash keeps are some of the old ones, or all. -/
theorem after_note (d : Disk N) (change : Change N) (k : ℕ) :
    (d.note change).after ((d.note change).pending.take k) = d.after (d.pending.take k) ∨
      (d.note change).after ((d.note change).pending.take k) = change.apply d.dir := by
  by_cases hk : k ≤ d.pending.length
  · left
    show List.foldl _ _ ((d.pending ++ [change]).take k) = _
    rw [List.take_append_of_le_length hk]
    rfl
  · right
    rw [← dir_note]
    show List.foldl _ _ ((d.pending ++ [change]).take k) = List.foldl _ _ (d.pending ++ [change])
    rw [List.take_of_length_le (by rw [List.length_append, List.length_singleton]; omega)]

/-- **The rule for a change of names.** -/
theorem Always.note {c : Change N} (h : Always temporary P d)
    (hP : P (fun n => (c.apply d.dir n).map d.files))
    (hbelow : ∀ n i, c.apply d.dir n = some i → i < d.fresh)
    (hinj : ∀ m n i, c.apply d.dir m = some i → c.apply d.dir n = some i → m = n)
    (hapart : ∀ k m n i, c.apply d.dir m = some i → d.after (d.pending.take k) n = some i →
      n = m ∨ temporary n ∧ ¬ temporary m) : Always temporary P (d.note c) := by
  have hcases := after_note d c
  refine ⟨fun k => ?_, fun k n i hn => ?_, fun k m n i hm hn => ?_, fun k m n i hm hn => ?_⟩
  · show P fun n => ((d.note c).after _ n).map d.files
    rcases hcases k with hold | hnew
    · rw [hold]
      exact h.holds k
    · rw [hnew]
      exact hP
  · rcases hcases k with hold | hnew
    · exact h.below k n i (hold ▸ hn)
    · exact hbelow n i (hnew ▸ hn)
  · rcases hcases k with hold | hnew
    · exact h.inj k m n i (hold ▸ hm) (hold ▸ hn)
    · exact hinj m n i (hnew ▸ hm) (hnew ▸ hn)
  · rw [dir_note] at hm
    rcases hcases k with hold | hnew
    · exact hapart k m n i hm (hold ▸ hn)
    · exact .inl (hinj n m i (hnew ▸ hn) hm)

/-! ### The rules for the operations -/

theorem now_note (d : Disk N) (change : Change N) :
    (d.note change).now = fun n => (change.apply d.dir n).map d.files := by
  rw [← dir_note]
  rfl

namespace Always

theorem effect_sync (hsteady : Steady temporary P) (h : Always temporary P d)
    (hn : d.now n = some f) : ∃ d', d.effect (.sync n) = some ((), d') ∧ Always temporary P d' ∧
      d'.now = Function.update d.now n (some (.synced f.data)) ∧ d'.pending = d.pending := by
  obtain ⟨i, hi, rfl⟩ := dir_of_now hn
  refine ⟨d.put i (.synced (d.files i).data), by rw [effect, hi]; rfl, ?_, now_put h hi _, rfl⟩
  exact h.put hi fun v m hv hm _ => hsteady.sync v m _ hv hm

/-- A file of a name that is not temporary changes. -/
theorem put_real (hsteady : Steady temporary P) (h : Always temporary P d) (hn : d.dir n = some i)
    (hreal : ¬ temporary n)
    (hP : ∀ v, P v → v n = some (d.files i) → P (Function.update v n (some f))) :
    Always temporary P (d.put i f) ∧ (d.put i f).now = Function.update d.now n (some f) := by
  refine ⟨h.put hn fun v m hv hm hname => ?_, now_put h hn f⟩
  rcases hname with rfl | ⟨htemporary, -⟩
  · exact hP v hv hm
  · exact hsteady.overwrite v m _ f htemporary hv hm

/-- Bytes are added to a file. -/
theorem effect_append (hsteady : Steady temporary P) (h : Always temporary P d)
    (hn : d.now n = some f) (hreal : ¬ temporary n) {bytes : List UInt8}
    (hP : ∀ v, P v → v n = some f → P (Function.update v n (some (f.append bytes)))) :
    ∃ d', d.effect (.append n bytes) = some ((), d') ∧ Always temporary P d' ∧
      d'.now = Function.update d.now n (some (f.append bytes)) ∧ d'.pending = d.pending := by
  obtain ⟨i, hi, rfl⟩ := dir_of_now hn
  obtain ⟨halways, hnow⟩ := h.put_real hsteady hi hreal hP
  exact ⟨_, by rw [effect, hi]; rfl, halways, hnow, rfl⟩

/-- A file is cut. -/
theorem effect_truncate (hsteady : Steady temporary P) (h : Always temporary P d)
    (hn : d.now n = some f) (hreal : ¬ temporary n) {len : ℕ}
    (hP : ∀ v, P v → v n = some f → P (Function.update v n (some (f.truncate len)))) :
    ∃ d', d.effect (.truncate n len) = some ((), d') ∧ Always temporary P d' ∧
      d'.now = Function.update d.now n (some (f.truncate len)) ∧ d'.pending = d.pending := by
  obtain ⟨i, hi, rfl⟩ := dir_of_now hn
  obtain ⟨halways, hnow⟩ := h.put_real hsteady hi hreal hP
  exact ⟨_, by rw [effect, hi]; rfl, halways, hnow, rfl⟩

/-- A new file under a name that nothing has. -/
theorem link (h : Always temporary P d) (hn : d.dir n = none) (f : File)
    (hP : P (Function.update d.now n (some f))) :
    Always temporary P { (d.put d.fresh f).note (.link n d.fresh) with fresh := d.fresh + 1 } ∧
      Disk.now { (d.put d.fresh f).note (.link n d.fresh) with fresh := d.fresh + 1 } =
        Function.update d.now n (some f) := by
  have hbelow : ∀ k m i, d.after (d.pending.take k) m = some i → i ≠ d.fresh :=
    fun k m i hm => Nat.ne_of_lt (h.below k m i hm)
  have hlive : ∀ m i, d.dir m = some i → i < d.fresh := fun m i hm => by
    have hall := h.below d.pending.length m i
    rw [List.take_length] at hall
    exact hall hm
  have hview : ∀ k, (d.put d.fresh f).view (d.pending.take k) = d.view (d.pending.take k) := by
    intro k
    funext m
    show (d.after _ m).map _ = (d.after _ m).map _
    cases hm : d.after (d.pending.take k) m with
    | none => rfl
    | some i => rw [Option.map_some, Option.map_some, put_files_of_ne d (hbelow k m i hm)]
  have happly : ∀ m i, (Change.link n d.fresh).apply d.dir m = some i →
      m = n ∧ i = d.fresh ∨ m ≠ n ∧ d.dir m = some i := by
    intro m i hm
    by_cases hname : m = n
    · subst hname
      rw [Change.apply, Function.update_self] at hm
      exact .inl ⟨rfl, (Option.some.inj hm).symm⟩
    · rw [Change.apply, Function.update_of_ne hname] at hm
      exact .inr ⟨hname, hm⟩
  have hnow : (fun m => ((Change.link n d.fresh).apply d.dir m).map (d.put d.fresh f).files) =
      Function.update d.now n (some f) := by
    funext m
    by_cases hname : m = n
    · subst hname
      rw [Change.apply, Function.update_self, Function.update_self, Option.map_some,
        put_files_self]
    · rw [Change.apply, Function.update_of_ne hname, Function.update_of_ne hname]
      have hall := congrFun (hview d.pending.length) m
      rw [List.take_length] at hall
      exact hall
  -- the file is put first, under no name, and then it gets one
  have hput : Always temporary P { d.put d.fresh f with fresh := d.fresh + 1 } :=
    ⟨fun k => (hview k).symm ▸ h.holds k, fun k m i hm => Nat.lt_succ_of_lt (h.below k m i hm),
      h.inj, h.apart⟩
  refine ⟨hput.note (c := .link n d.fresh) ?_ ?_ ?_ ?_, ?_⟩
  · exact hnow.symm ▸ hP
  · intro m i hm
    rcases happly m i hm with ⟨-, rfl⟩ | ⟨-, hm⟩
    · exact Nat.lt_succ_self _
    · exact Nat.lt_succ_of_lt (hlive m i hm)
  · intro m m' i hm hm'
    rcases happly m i hm with ⟨hname, hi⟩ | ⟨-, hold⟩ <;>
      rcases happly m' i hm' with ⟨hname', hi'⟩ | ⟨-, hold'⟩
    · exact hname.trans hname'.symm
    · exact absurd hi (Nat.ne_of_lt (hlive _ _ hold'))
    · exact absurd hi' (Nat.ne_of_lt (hlive _ _ hold))
    · exact h.dir_inj hold hold'
  · intro k m m' i hm hm'
    rcases happly m i hm with ⟨rfl, rfl⟩ | ⟨-, hm⟩
    · exact absurd rfl (hbelow k m' _ hm')
    · exact h.apart k m m' i hm hm'
  · exact (now_note _ _).trans hnow

/-- A whole file is written. -/
theorem effect_create (hsteady : Steady temporary P) (h : Always temporary P d)
    (htemporary : temporary n) {bytes : List UInt8}
    (hP : P (Function.update d.now n (some (.written bytes)))) :
    ∃ d', d.effect (.create n bytes) = some ((), d') ∧ Always temporary P d' ∧
      d'.now = Function.update d.now n (some (.written bytes)) := by
  cases hn : d.dir n with
  | none =>
    obtain ⟨halways, hnow⟩ := h.link hn _ hP
    exact ⟨_, by rw [effect, hn]; rfl, halways, hnow⟩
  | some i =>
    refine ⟨_, by rw [effect, hn]; rfl, h.put hn fun v m hv hm hname => ?_, now_put h hn _⟩
    rcases hname with rfl | ⟨-, hreal⟩
    · exact hsteady.overwrite v m _ _ htemporary hv hm
    · exact absurd htemporary hreal

/-- A file of a temporary name gets one that is not. -/
theorem effect_rename (h : Always temporary P d) (hm : d.now m = some f) (htemporary : temporary m)
    (hreal : ¬ temporary n)
    (hP : P (Function.update (Function.update d.now m none) n (some f))) :
    ∃ d', d.effect (.rename m n) = some ((), d') ∧ Always temporary P d' ∧
      d'.now = Function.update (Function.update d.now m none) n (some f) := by
  obtain ⟨i, hi, rfl⟩ := dir_of_now hm
  have happly : ∀ other j, (Change.rename m n).apply d.dir other = some j →
      other = n ∧ j = i ∨ other ≠ n ∧ other ≠ m ∧ d.dir other = some j := by
    intro other j hother
    rw [Change.apply, hi] at hother
    by_cases hname : other = n
    · subst hname
      rw [Function.update_self] at hother
      exact .inl ⟨rfl, (Option.some.inj hother).symm⟩
    · rw [Function.update_of_ne hname] at hother
      by_cases hsource : other = m
      · subst hsource
        rw [Function.update_self] at hother
        cases hother
      · rw [Function.update_of_ne hsource] at hother
        exact .inr ⟨hname, hsource, hother⟩
  have hnow : (fun other => ((Change.rename m n).apply d.dir other).map d.files) =
      Function.update (Function.update d.now m none) n (some (d.files i)) := by
    funext other
    rw [Change.apply, hi]
    by_cases hname : other = n
    · subst hname
      rw [Function.update_self, Function.update_self, Option.map_some]
    · rw [Function.update_of_ne hname, Function.update_of_ne hname]
      by_cases hsource : other = m
      · subst hsource
        rw [Function.update_self, Function.update_self, Option.map_none]
      · rw [Function.update_of_ne hsource, Function.update_of_ne hsource]
        rfl
  refine ⟨d.note (.rename m n), by rw [effect, hi]; rfl, h.note (hnow ▸ hP) ?_ ?_ ?_,
    (now_note _ _).trans hnow⟩
  · intro other j hother
    have hall := h.below d.pending.length
    rw [List.take_length] at hall
    rcases happly other j hother with ⟨-, rfl⟩ | ⟨-, -, hother⟩
    · exact hall m _ hi
    · exact hall other j hother
  · intro a b j ha hb
    rcases happly a j ha with ⟨hname, hj⟩ | ⟨-, hne, hold⟩ <;>
      rcases happly b j hb with ⟨hname', hj'⟩ | ⟨-, hne', hold'⟩
    · exact hname.trans hname'.symm
    · exact absurd (h.dir_inj hold' (hj ▸ hi)) hne'
    · exact absurd (h.dir_inj hold (hj' ▸ hi)) hne
    · exact h.dir_inj hold hold'
  · intro k a b j ha hb
    rcases happly a j ha with ⟨rfl, rfl⟩ | ⟨-, -, ha⟩
    · -- before it was renamed the file had the temporary name
      rcases h.apart k m b _ hi hb with rfl | ⟨-, hno⟩
      · exact .inr ⟨htemporary, hreal⟩
      · exact absurd htemporary hno
    · exact h.apart k a b j ha hb

/-- A name is removed. -/
theorem effect_remove (h : Always temporary P d) (hn : d.now n = some f)
    (hP : P (Function.update d.now n none)) :
    ∃ d', d.effect (.remove n) = some ((), d') ∧ Always temporary P d' ∧
      d'.now = Function.update d.now n none := by
  obtain ⟨i, hi, rfl⟩ := dir_of_now hn
  have happly : ∀ other j, (Change.unlink n).apply d.dir other = some j → d.dir other = some j := by
    intro other j hother
    rw [Change.apply] at hother
    by_cases hname : other = n
    · subst hname
      rw [Function.update_self] at hother
      cases hother
    · rwa [Function.update_of_ne hname] at hother
  have hnow : (fun other => ((Change.unlink n).apply d.dir other).map d.files) =
      Function.update d.now n none := by
    funext other
    rw [Change.apply]
    by_cases hname : other = n
    · subst hname
      rw [Function.update_self, Function.update_self, Option.map_none]
    · rw [Function.update_of_ne hname, Function.update_of_ne hname]
      rfl
  refine ⟨d.note (.unlink n), by rw [effect, hi]; rfl, h.note (hnow ▸ hP) ?_ ?_ ?_,
    (now_note _ _).trans hnow⟩
  · intro other j hother
    have hall := h.below d.pending.length
    rw [List.take_length] at hall
    exact hall other j (happly other j hother)
  · exact fun a b j ha hb => h.dir_inj (happly a j ha) (happly b j hb)
  · exact fun k a b j ha hb => h.apart k a b j (happly a j ha) hb

/-- What holds now holds always once the names are synced. -/
theorem of_now (hpending : d.pending = []) (h : Always temporary P' d) (hP : P d.now) :
    Always temporary P d := by
  refine { h with holds := fun k => ?_ }
  rw [hpending, List.take_nil, ← hpending]
  exact hP

/-- **What is said of one file that is where it was when the names were synced** can be said always.
-/
theorem of_settled (h : Always temporary P' d)
    (hsettled : ∀ k, d.after (d.pending.take k) n = d.dir n) (hn : d.now n = some f)
    (hP : ∀ v, P' v → v n = some f → P v) : Always temporary P d := by
  refine { h with holds := fun k => hP _ (h.holds k) ?_ }
  show (d.after _ n).map d.files = _
  rw [hsettled k]
  exact hn

/-- The names are synced. -/
theorem effect_syncDir (h : Always temporary P d) :
    ∃ d', d.effect .syncDir = some ((), d') ∧ Always temporary P d' ∧ d'.now = d.now ∧
      d'.pending = [] := by
  have hall := h.below d.pending.length
  rw [List.take_length] at hall
  refine ⟨_, rfl, ⟨fun k => ?_, fun k n i hn => ?_, fun k m n i hm hn => ?_,
    fun k m n i hm hn => ?_⟩, rfl, rfl⟩
  · rw [List.take_nil]
    exact h.now
  · rw [List.take_nil] at hn
    exact hall n i hn
  · rw [List.take_nil] at hm hn
    exact h.dir_inj hm hn
  · rw [List.take_nil] at hn
    exact .inl (h.dir_inj hn hm)

/-- A file is read. -/
theorem effect_read (hn : d.now n = some f) : d.effect (.read n) = some (f.data, d) := by
  rw [effect, hn]
  rfl

/-- There is no such file. -/
theorem effect_read_missing (hn : d.now n = none) : d.effect (.read n) = none := by
  rw [effect, hn]
  rfl

theorem effect_present (d : Disk N) (n : N) :
    d.effect (.present n) = some ((d.now n).isSome, d) := by
  have hsome : (d.now n).isSome = (d.dir n).isSome := Option.isSome_map
  rw [hsome]
  rfl

theorem effect_touch (hn : d.now n = some f) : d.effect (.touch n) = some ((), d) := by
  obtain ⟨i, hi, -⟩ := dir_of_now hn
  rw [effect, hi]
  rfl

omit [DecidableEq N] in
/-- Every file becomes what a crash may make of it. -/
theorem view_crash {files : ℕ → File} (hfiles : ∀ i, (d.files i).Becomes (files i))
    (dir : N → Option ℕ) (n : N) :
    Option.Rel File.Becomes ((dir n).map d.files) ((dir n).map files) := by
  cases dir n with
  | none => exact .none
  | some i => exact .some (hfiles i)

/-- **The rule for a crash.** -/
theorem crash (hsteady : Steady temporary P) (h : Always temporary P d) (wreck : Wreck) :
    Always temporary P (d.crash wreck) := by
  obtain ⟨kept, left⟩ := wreck
  cases kept with
  | none =>
    refine ⟨fun k => ?_, h.below, h.inj, h.apart⟩
    exact hsteady.crash _ _ (h.holds k)
      (view_crash (fun i => ⟨(left i).1, (left i).2, .inr rfl⟩) (d.after (d.pending.take k)))
  | some kept =>
    refine ⟨fun k => ?_, fun k n i hn => ?_, fun k m n i hm hn => ?_, fun k m n i hm hn => ?_⟩
    · rw [show (d.crash ⟨some kept, left⟩).pending = [] from rfl, List.take_nil]
      exact hsteady.crash _ _ (h.holds kept)
        (view_crash (fun i => ⟨(left i).1, (left i).2, .inl rfl⟩) (d.after (d.pending.take kept)))
    · rw [show (d.crash ⟨some kept, left⟩).pending = [] from rfl, List.take_nil] at hn
      exact h.below kept n i hn
    · rw [show (d.crash ⟨some kept, left⟩).pending = [] from rfl, List.take_nil] at hm hn
      exact h.inj kept m n i hm hn
    · rw [show (d.crash ⟨some kept, left⟩).pending = [] from rfl, List.take_nil] at hn
      exact .inl (h.inj kept n m i hn hm)

end Always

/-! ### Names that stay -/

/-- A name is what it was when the names were synced. -/
def Settled (d : Disk N) (n : N) : Prop := ∀ k, d.after (d.pending.take k) n = d.dir n

theorem settled_of_pending (h : d.pending = []) (n : N) : d.Settled n := by
  intro k
  rw [dir, h, List.take_nil]

end Disk

/-- An operation that leaves a name alone. -/
def DiskOp.Leaves (n : N) : DiskOp N → Prop
  | create name _ => n ≠ name
  | touch name => n ≠ name
  | rename source target => n ≠ source ∧ n ≠ target
  | remove name => n ≠ name
  | _ => True

namespace Disk

variable {d : Disk N} {n : N}

theorem Settled.note (h : d.Settled n) {change : Change N}
    (hchange : ∀ dir : N → Option ℕ, change.apply dir n = dir n) : (d.note change).Settled n := by
  intro k
  rw [dir_note, hchange]
  rcases after_note d change k with hold | hnew
  · rw [hold]
    exact h k
  · rw [hnew, hchange]

/-- **A name stays** when an operation leaves it alone. -/
theorem Settled.effect (h : d.Settled n) {op : DiskOp N} (hop : op.Leaves n) {res : op.Res}
    {d' : Disk N} (heffect : d.effect op = some (res, d')) : d'.Settled n := by
  cases op with
  | read name =>
    obtain ⟨f, -, hf⟩ := Option.map_eq_some_iff.1 heffect
    cases hf
    exact h
  | present name =>
    cases heffect
    exact h
  | create name data =>
    rw [Disk.effect] at heffect
    split at heffect
    · cases heffect
      exact h
    · cases heffect
      have hput : (d.put d.fresh (.written data)).Settled n := h
      exact hput.note fun dir => Function.update_of_ne hop ..
  | touch name =>
    rw [Disk.effect] at heffect
    split at heffect
    · cases heffect
      exact h
    · cases heffect
      have hput : (d.put d.fresh (.written [])).Settled n := h
      exact hput.note fun dir => Function.update_of_ne hop ..
  | append name data =>
    obtain ⟨i, -, hi⟩ := Option.map_eq_some_iff.1 heffect
    cases hi
    exact h
  | truncate name len =>
    obtain ⟨i, -, hi⟩ := Option.map_eq_some_iff.1 heffect
    cases hi
    exact h
  | sync name =>
    obtain ⟨i, -, hi⟩ := Option.map_eq_some_iff.1 heffect
    cases hi
    exact h
  | rename source target =>
    obtain ⟨i, -, hi⟩ := Option.map_eq_some_iff.1 heffect
    cases hi
    refine h.note fun dir => ?_
    rw [Change.apply, Function.update_of_ne hop.2, Function.update_of_ne hop.1]
  | remove name =>
    obtain ⟨i, -, hi⟩ := Option.map_eq_some_iff.1 heffect
    cases hi
    exact h.note fun dir => Function.update_of_ne hop ..
  | syncDir =>
    cases heffect
    exact settled_of_pending rfl n

end Disk

/-! ### Programs on files -/

/-- The directory, where no operation fails. -/
abbrev fine : Device (diskInterface N) (Disk N) {fate // DiskFate.Fine fate} :=
  disks.restrict DiskFate.Fine

variable {μ α : Type}

/-- Ask for an operation and go on with what it gives, or fail with its error. -/
def ask (op : DiskOp N) : Program (diskInterface N) μ IoError op.Res :=
  (Program.perform (I := diskInterface N) op).bind fun r =>
    match r with
    | .ok res => .ret res
    | .error e => .throw e

/-- A whole file. -/
def readFile (name : N) : Program (diskInterface N) μ IoError (List UInt8) := ask (.read name)

/-- Whether there is a file of this name. -/
def present (name : N) : Program (diskInterface N) μ IoError Bool := ask (.present name)

/-- Write a whole file. -/
def writeFile (name : N) (data : List UInt8) : Program (diskInterface N) μ IoError Unit :=
  ask (.create name data)

/-- Cut a file. -/
def truncateFile (name : N) (len : ℕ) : Program (diskInterface N) μ IoError Unit :=
  ask (.truncate name len)

/-- Make sure that there is a file of this name. -/
def touchFile (name : N) : Program (diskInterface N) μ IoError Unit := ask (.touch name)

/-- Force a file to the device. -/
def syncFile (name : N) : Program (diskInterface N) μ IoError Unit := ask (.sync name)

/-- Give a file another name. -/
def renameFile (source target : N) : Program (diskInterface N) μ IoError Unit :=
  ask (.rename source target)

def removeFile (name : N) : Program (diskInterface N) μ IoError Unit := ask (.remove name)

/-- Force the names to the device. -/
def syncDir : Program (diskInterface N) μ IoError Unit := ask .syncDir

/-- **The rule for one operation** that does not fail. -/
theorem wp_ask {op : DiskOp N} {Q : op.Res → μ → Disk N → Prop} {E : IoError → μ → Disk N → Prop}
    {K : Disk N → Prop} {m : μ} {d d' : Disk N} {res : op.Res} (hK : K d)
    (heffect : d.effect op = some (res, d')) (hQ : Q res m d') :
    (ask op : Program (diskInterface N) μ IoError op.Res).wp fine ⟨Q, E, K⟩ m d := by
  refine ⟨hK, fun fate => ?_⟩
  have hfate : fate.1.fails = false := fate.2
  simp only [Device.restrict, disks, heffect, hfate, Bool.false_eq_true, if_false]
  exact hQ

/-- An operation and what comes after it. -/
theorem wp_ask_bind {op : DiskOp N} {k : op.Res → Program (diskInterface N) μ IoError α}
    {Q : α → μ → Disk N → Prop} {E : IoError → μ → Disk N → Prop} {K : Disk N → Prop} {m : μ}
    {d d' : Disk N} {res : op.Res} (hK : K d) (heffect : d.effect op = some (res, d'))
    (hk : (k res).wp fine ⟨Q, E, K⟩ m d') : ((ask op).bind k).wp fine ⟨Q, E, K⟩ m d :=
  (Program.wp_bind _ _ _ _ _).2 (wp_ask hK heffect hk)

/-- The rule for one that finds no file. -/
theorem wp_ask_missing {op : DiskOp N} {Q : op.Res → μ → Disk N → Prop}
    {E : IoError → μ → Disk N → Prop} {K : Disk N → Prop} {m : μ} {d : Disk N} (hK : K d)
    (heffect : d.effect op = none) (hE : E .notFound m d) :
    (ask op : Program (diskInterface N) μ IoError op.Res).wp fine ⟨Q, E, K⟩ m d := by
  refine ⟨hK, fun fate => ?_⟩
  simp only [Device.restrict, disks, heffect]
  exact hE

/-- Write a file under another name, force it to the device, and put it in the place of the one that
is there. -/
def replaceFile (temporary target : N) (data : List UInt8) :
    Program (diskInterface N) μ IoError Unit := do
  writeFile temporary data
  syncFile temporary
  renameFile temporary target
  syncDir

/-- **The rule for replacing a file**: the condition must hold of what was there with the temporary
file beside it, and of what is there in the end. -/
theorem wp_replaceFile {temporary : N → Prop} {P : View N → Prop} (hsteady : Steady temporary P)
    {d : Disk N} (h : d.Always temporary P) {source target : N} {data : List UInt8}
    (hsource : temporary source) (htarget : ¬ temporary target)
    (hbeside : P (Function.update d.now source (some (.written data))))
    (hplace : P (Function.update (Function.update d.now source none) target (some (.synced data))))
    {Q : Unit → μ → Disk N → Prop} {E : IoError → μ → Disk N → Prop} {m : μ}
    (hQ : ∀ d', d'.Always temporary P →
      d'.now = Function.update (Function.update d.now source none) target (some (.synced data)) →
      d'.pending = [] → Q () m d') :
    (replaceFile source target data : Program (diskInterface N) μ IoError Unit).wp fine
      ⟨Q, E, Disk.Always temporary P⟩ m d := by
  obtain ⟨d₁, heffect₁, h₁, hnow₁⟩ := h.effect_create hsteady hsource hbeside
  refine wp_ask_bind h heffect₁ ?_
  have hwritten : d₁.now source = some (.written data) := by rw [hnow₁, Function.update_self]
  obtain ⟨d₂, heffect₂, h₂, hnow₂, -⟩ := h₁.effect_sync hsteady hwritten
  refine wp_ask_bind h₁ heffect₂ ?_
  have hsynced : d₂.now source = some (.synced data) := by
    rw [hnow₂, Function.update_self]
    rfl
  have hview : Function.update (Function.update d₂.now source none) target (some (.synced data)) =
      Function.update (Function.update d.now source none) target (some (.synced data)) := by
    rw [hnow₂, hnow₁, Function.update_idem, Function.update_idem]
  obtain ⟨d₃, heffect₃, h₃, hnow₃⟩ :=
    h₂.effect_rename hsynced hsource htarget (hview ▸ hplace)
  refine wp_ask_bind h₂ heffect₃ ?_
  obtain ⟨d₄, heffect₄, h₄, hnow₄, hpending⟩ := h₃.effect_syncDir
  exact wp_ask h₃ heffect₄ (hQ d₄ h₄ (hnow₄.trans (hnow₃.trans hview)) hpending)

end Machine

end Obsy
