import Obsy.Metrics.HistogramChunk
import Obsy.Metrics.Windows
import Obsy.Runs.Fallible

/-!
# Totals that a histogram chunk declares

A run of points comes with the number of its bounds, for which room is reserved before they are
read, and every number of a point is added to the one before.

* `demands`: the rooms and the totals of a chunk, as its fields declare them.
* `decodeSafe_iff`: a chunk is decoded to the end, or refused, exactly when the rooms are within its
  length and the totals within 64 bits.
* `decoders_safe_iff`: the same for either codec of a series.
-/

namespace Obsy

namespace Metrics

namespace HistogramChunk

open Bytes
open Machine (Build Stop Harmless Survey Meets)
open Runs (exists_of_bind)

/-! ### Declared rooms and totals -/

/-- What the fields of a chunk ask for. -/
inductive Demand
  /-- Room for so many bounds. -/
  | room (count : ℕ)
  /-- A number and the one before it, together. -/
  | total (value : ℤ)
deriving DecidableEq

/-- A bound takes eight bytes, and a total is an `i64`. -/
def Demand.Fits (len : ℕ) : Demand → Prop
  | room count => 8 * count ≤ len
  | total value => -2 ^ 63 ≤ value ∧ value < 2 ^ 63

instance (len : ℕ) (demand : Demand) : Decidable (demand.Fits len) := by
  cases demand with
  | room count => exact inferInstanceAs (Decidable (_ ≤ _))
  | total value => exact inferInstanceAs (Decidable (_ ∧ _))

/-- The totals so far. -/
structure Totals where
  ts : ℤ
  count : ℤ
  cumulative : List ℤ

def surveyDelta (previous : ℤ) (bytes : List UInt8) : Survey Demand String (ℤ × List UInt8) := do
  let (delta, bytes) ← .lift (readIvarint bytes)
  let value := previous + delta.toInt
  .demand (.total value)
  return (value, bytes)

def surveyCounts : List ℤ → List UInt8 → Survey Demand String (List ℤ × List UInt8)
  | [], bytes => return ([], bytes)
  | slot :: slots, bytes => do
    let (slot, bytes) ← surveyDelta slot bytes
    let (slots, bytes) ← surveyCounts slots bytes
    return (slot :: slots, bytes)

def surveyPoint (t : Totals) (bytes : List UInt8) : Survey Demand String (Totals × List UInt8) := do
  let (ts, bytes) ← surveyDelta t.ts bytes
  let (count, bytes) ← surveyDelta t.count bytes
  let (_, bytes) ← .lift (readSum bytes)
  let (cumulative, bytes) ← surveyCounts t.cumulative bytes
  return (⟨ts, count, cumulative⟩, bytes)

def surveyPoints : ℕ → Totals → List UInt8 → Survey Demand String (List UInt8)
  | 0, _, bytes => return bytes
  | count + 1, t, bytes => do
    let (t, bytes) ← surveyPoint t bytes
    surveyPoints count t bytes

/-- How many bounds and points a run has. -/
def surveyHeader (bytes : List UInt8) : Survey Demand String ((ℕ × ℕ) × List UInt8) := do
  let (boundCount, bytes) ← .lift (readUvarint bytes)
  .demand (.room boundCount.toNat)
  let (_, bytes) ← .lift (readBounds boundCount.toNat bytes)
  let (pointCount, bytes) ← .lift (readUvarint bytes)
  return ((boundCount.toNat, pointCount.toNat), bytes)

def surveyRun (bytes : List UInt8) : Survey Demand String (List UInt8) := do
  let ((boundCount, pointCount), bytes) ← surveyHeader bytes
  surveyPoints pointCount ⟨0, 0, List.replicate boundCount 0⟩ bytes

def surveyRuns : ℕ → List UInt8 → Survey Demand String (List UInt8)
  | 0, bytes => return bytes
  | count + 1, bytes => do
    let bytes ← surveyRun bytes
    surveyRuns count bytes

def survey (bytes : List UInt8) : Survey Demand String (List UInt8) := do
  let (runs, bytes) ← .lift (readUvarint bytes)
  surveyRuns runs.toNat bytes

/-- The rooms and the totals of a chunk, up to where it is refused. -/
def demands (bytes : List UInt8) : List Demand := (survey bytes).demands

/-! ### Faults -/

theorem harmless_readUvarint (bytes : List UInt8) : Harmless (readUvarint bytes) := by
  rw [readUvarint, getUvarint]
  generalize (0 : Word) = value
  generalize (0 : ℕ) = shift
  induction bytes generalizing value shift with
  | nil => exact .refused _
  | cons byte bytes ih =>
    rw [getUvarintFrom]
    split
    · exact .refused _
    · dsimp only
      split
      · exact .ok _
      · exact ih _ _

theorem harmless_readIvarint (bytes : List UInt8) : Harmless (readIvarint bytes) :=
  (harmless_readUvarint bytes).bind fun _ => .ok _

theorem harmless_take (len : ℕ) (bytes : List UInt8) : Harmless (take len bytes) := by
  rw [take]
  split
  · exact .refused _
  · exact .ok _

theorem harmless_readBounds (count : ℕ) (bytes : List UInt8) : Harmless (readBounds count bytes) := by
  induction count generalizing bytes with
  | zero => exact .ok _
  | succ count ih =>
    exact (harmless_take 8 bytes).bind fun _ => (ih _).bind fun _ => .ok _

theorem harmless_readSum (bytes : List UInt8) : Harmless (readSum bytes) := by
  refine (harmless_take 1 bytes).bind fun ⟨flag, bytes⟩ => ?_
  dsimp only
  split
  · exact .ok _
  · split
    · exact (harmless_take 8 bytes).bind fun _ => .ok _
    · exact .refused _

theorem readUvarint_shortens (bytes : List UInt8) : Shortens 1 bytes (readUvarint bytes) :=
  getUvarint_shortens truncated overlong bytes

theorem take_shortens (len : ℕ) (bytes : List UInt8) : Shortens len bytes (take len bytes) := by
  rw [take]
  split
  · exact .error _
  · intro raw rest h
    obtain ⟨-, rfl⟩ := Prod.mk.inj (Except.ok.inj h)
    rw [List.length_drop]
    omega

theorem readBounds_spec {count : ℕ} {bytes rest : List UInt8} {bounds : List Word}
    (h : readBounds count bytes = .ok (bounds, rest)) :
    bounds.length = count ∧ rest.length + 8 * count ≤ bytes.length := by
  induction count generalizing bytes bounds rest with
  | zero =>
    obtain ⟨rfl, rfl⟩ := Prod.mk.inj (Except.ok.inj h)
    exact ⟨rfl, le_rfl⟩
  | succ count ih =>
    obtain ⟨⟨raw, bytes'⟩, htake, h⟩ := exists_of_bind h
    obtain ⟨⟨bounds, rest'⟩, hmore, h⟩ := exists_of_bind h
    obtain ⟨rfl, rfl⟩ := Prod.mk.inj (Except.ok.inj h)
    obtain ⟨hlength, hle⟩ := ih hmore
    have htook := take_shortens 8 _ _ _ htake
    exact ⟨congrArg Nat.succ hlength, by omega⟩

/-- A build that checks, with room for the bounds that so many bytes hold. -/
def strict (len : ℕ) : Build := ⟨true, fun count => decide (8 * count ≤ len)⟩

/-- The totals as they are declared and as they are held. -/
structure Totals.Held (t : Totals) (s : RunState) : Prop where
  ts : t.ts = s.ts.toInt
  count : t.count = s.count.toInt
  cumulative : t.cumulative = s.cumulative.map BitVec.toInt

section

variable {len : ℕ}

theorem meets_delta {value : ℤ} {previous : Word} (h : value = previous.toInt) (bytes : List UInt8) :
    Meets (Demand.Fits len) (fun left right => left.1 = right.1.toInt ∧ left.2 = right.2)
      (surveyDelta value bytes) (readDelta (strict len) previous bytes) := by
  refine .bind_lift (harmless_readIvarint bytes) fun ⟨delta, bytes⟩ _ => ?_
  dsimp only
  subst h
  refine Meets.bind (R := fun _ total => previous.toInt + delta.toInt = total.toInt)
    (.demand ?_ ?_) fun _ _ htotal => .pure ⟨htotal, rfl⟩
  · intro hfits
    obtain ⟨hadd, htotal⟩ := (strict len).add_of_fits (ε := String) hfits
    exact ⟨_, hadd, htotal.symm⟩
  · intro hnot
    exact ⟨_, Build.add_of_not_fits rfl hnot, rfl⟩

theorem meets_counts (slots : List Word) (bytes : List UInt8) :
    Meets (Demand.Fits len)
      (fun left right => left.1 = right.1.map BitVec.toInt ∧ left.2 = right.2)
      (surveyCounts (slots.map BitVec.toInt) bytes) (readCounts (strict len) slots bytes) := by
  induction slots generalizing bytes with
  | nil => exact .pure ⟨rfl, rfl⟩
  | cons slot slots ih =>
    rw [List.map_cons, surveyCounts, readCounts]
    refine (meets_delta rfl bytes).bind ?_
    rintro ⟨value, rest⟩ ⟨slot, bytes⟩ h
    obtain ⟨rfl, rfl⟩ : value = slot.toInt ∧ rest = bytes := h
    refine (ih _).bind ?_
    rintro ⟨values, rest'⟩ ⟨slots, bytes'⟩ h
    obtain ⟨rfl, rfl⟩ : values = slots.map BitVec.toInt ∧ rest' = bytes' := h
    exact .pure ⟨rfl, rfl⟩

theorem meets_point {t : Totals} {s : RunState} (h : t.Held s) (bounds : List Word)
    (bytes : List UInt8) :
    Meets (Demand.Fits len) (fun left right => left.1.Held right.1.2 ∧ left.2 = right.2)
      (surveyPoint t bytes) (readPoint (strict len) bounds s bytes) := by
  refine (meets_delta h.ts bytes).bind fun ⟨_, rest⟩ ⟨ts, bytes⟩ ⟨hts, hrest⟩ => ?_
  obtain rfl : rest = bytes := hrest
  refine (meets_delta h.count rest).bind fun ⟨_, rest⟩ ⟨count, bytes⟩ ⟨hcount, hrest⟩ => ?_
  obtain rfl : rest = bytes := hrest
  refine .bind_lift (harmless_readSum rest) fun ⟨sum, bytes⟩ _ => ?_
  dsimp only
  rw [h.cumulative]
  refine (meets_counts _ bytes).bind fun ⟨_, _⟩ ⟨counts, bytes⟩ ⟨hcounts, hrest⟩ => ?_
  exact .pure ⟨⟨hts, hcount, hcounts⟩, hrest⟩

theorem meets_points {t : Totals} {s : RunState} (h : t.Held s) (bounds : List Word) (count : ℕ)
    (bytes : List UInt8) :
    Meets (Demand.Fits len) Eq (surveyPoints count t bytes)
      (readPoints (strict len) bounds count s bytes).2 := by
  induction count generalizing t s bytes with
  | zero => exact .pure rfl
  | succ count ih =>
    have hread : (readPoints (strict len) bounds (count + 1) s bytes).2 =
        (readPoint (strict len) bounds s bytes >>= fun next =>
          (readPoints (strict len) bounds count next.1.2 next.2).2) := by
      rw [readPoints]
      cases readPoint (strict len) bounds s bytes <;> rfl
    rw [hread, surveyPoints]
    refine (meets_point h bounds bytes).bind ?_
    rintro ⟨t, rest⟩ ⟨⟨_, s⟩, bytes⟩ ⟨hheld, hrest⟩
    obtain rfl : rest = bytes := hrest
    exact ih hheld rest

theorem meets_header (bytes : List UInt8) :
    Meets (Demand.Fits len)
      (fun left right => left.1 = (right.1.1.length, right.1.2) ∧ left.2 = right.2)
      (surveyHeader bytes) (readHeader (strict len) bytes) := by
  refine .bind_lift (harmless_readUvarint bytes) fun ⟨boundCount, bytes⟩ _ => ?_
  refine Meets.bind (R := fun _ _ => True) (.demand ?_ ?_) fun _ _ _ => ?_
  · intro hfits
    have hroom : 8 * boundCount.toNat ≤ len := hfits
    refine ⟨(), ?_, trivial⟩
    exact if_pos (decide_eq_true hroom)
  · intro hnot
    have hroom : ¬ 8 * boundCount.toNat ≤ len := hnot
    refine ⟨.noRoom, ?_, rfl⟩
    exact if_neg fun hgranted => hroom (of_decide_eq_true hgranted)
  · refine .bind_lift (harmless_readBounds _ bytes) fun ⟨bounds, bytes⟩ hbounds => ?_
    refine .bind_lift (harmless_readUvarint bytes) fun ⟨pointCount, bytes⟩ _ => ?_
    refine .pure ⟨?_, rfl⟩
    rw [(readBounds_spec hbounds).1]

theorem meets_run (bytes : List UInt8) :
    Meets (Demand.Fits len) Eq (surveyRun bytes) (readRun (strict len) bytes).2 := by
  have hread : (readRun (strict len) bytes).2 =
      (readHeader (strict len) bytes >>= fun next =>
        (readPoints (strict len) next.1.1 next.1.2 (.start next.1.1.length) next.2).2) := by
    rw [readRun]
    cases readHeader (strict len) bytes <;> rfl
  rw [hread, surveyRun]
  refine (meets_header bytes).bind ?_
  rintro ⟨counts, rest⟩ ⟨⟨bounds, pointCount⟩, bytes⟩ h
  obtain ⟨rfl, rfl⟩ : counts = (bounds.length, pointCount) ∧ rest = bytes := h
  refine meets_points ⟨rfl, rfl, ?_⟩ bounds pointCount rest
  rw [RunState.start, List.map_replicate]
  rfl

theorem meets_runs (count : ℕ) (bytes : List UInt8) :
    Meets (Demand.Fits len) Eq (surveyRuns count bytes) (readRuns (strict len) count bytes).2 := by
  induction count generalizing bytes with
  | zero => exact .pure rfl
  | succ count ih =>
    have hread : (readRuns (strict len) (count + 1) bytes).2 =
        ((readRun (strict len) bytes).2 >>= fun bytes => (readRuns (strict len) count bytes).2) := by
      rw [readRuns]
      rcases readRun (strict len) bytes with ⟨points, _ | rest⟩ <;> rfl
    rw [hread, surveyRuns]
    refine (meets_run bytes).bind fun _ rest h => ?_
    rw [h]
    exact ih rest

/-- A chunk is gone through without a fault exactly when its demands fit. -/
theorem meets_decodePrefix (bytes : List UInt8) :
    Meets (Demand.Fits len) Eq (survey bytes) (decodePrefix (strict len) bytes).2 := by
  have hread : (decodePrefix (strict len) bytes).2 =
      (readUvarint bytes >>= fun next => (readRuns (strict len) next.1.toNat next.2).2) := by
    rw [decodePrefix]
    cases readUvarint bytes <;> rfl
  rw [hread, survey]
  exact .bind_lift (harmless_readUvarint bytes) fun next _ => meets_runs _ next.2

end

/-! ### What the elements take -/

variable (build : Build)

theorem readDelta_shortens (previous : Word) (bytes : List UInt8) :
    Shortens 1 bytes (readDelta build previous bytes) := by
  have hread : Shortens (1 + 0) bytes (readIvarint bytes) :=
    .bind (readUvarint_shortens bytes) fun _ _ _ => .ok _
  have hdelta : Shortens (1 + 0 + 0) bytes (readDelta build previous bytes) :=
    .bind hread fun _ _ _ => .after fun _ => .ok _
  exact hdelta

theorem readSum_shortens (bytes : List UInt8) : Shortens 1 bytes (readSum bytes) := by
  show Shortens (1 + 0) bytes _
  refine .bind (take_shortens 1 bytes) fun flag rest _ => ?_
  dsimp only
  split
  · exact .ok _
  · split
    · refine Shortens.mono (?_ : Shortens (8 + 0) rest _) (Nat.zero_le _)
      exact .bind (take_shortens 8 rest) fun _ _ _ => .ok _
    · exact .error _

theorem readCounts_shortens (slots : List Word) (bytes : List UInt8) :
    Shortens slots.length bytes (readCounts build slots bytes) := by
  induction slots generalizing bytes with
  | nil => exact .ok _
  | cons slot slots ih =>
    rw [List.length_cons, Nat.add_comm]
    refine .bind (readDelta_shortens build slot bytes) fun _ rest _ => ?_
    show Shortens (slots.length + 0) rest _
    exact .bind (ih rest) fun _ _ _ => .ok _

theorem length_readCounts {slots counts : List Word} {bytes rest : List UInt8}
    (h : readCounts build slots bytes = .ok (counts, rest)) : counts.length = slots.length := by
  induction slots generalizing bytes rest counts with
  | nil =>
    obtain ⟨rfl, -⟩ := Prod.mk.inj (Except.ok.inj h)
    rfl
  | cons slot slots ih =>
    obtain ⟨_, _, h⟩ := exists_of_bind h
    obtain ⟨_, hslots, h⟩ := exists_of_bind h
    obtain ⟨rfl, -⟩ := Prod.mk.inj (Except.ok.inj h)
    exact congrArg Nat.succ (ih hslots)

/-- The bytes that a point takes at least: two numbers, a flag and its counts. -/
def Point.room (point : Point) : ℕ := 3 + point.2.cumulative.length

/-- A point takes its room, and the next one is as large. -/
theorem readPoint_spec {bounds : List Word} {s s' : RunState} {point : Point}
    {bytes rest : List UInt8} (h : readPoint build bounds s bytes = .ok ((point, s'), rest)) :
    point.2.bounds = bounds ∧ rest.length + point.room ≤ bytes.length := by
  obtain ⟨⟨ts, bytes₁⟩, hts, h⟩ := exists_of_bind h
  obtain ⟨⟨count, bytes₂⟩, hcount, h⟩ := exists_of_bind h
  obtain ⟨⟨sum, bytes₃⟩, hsum, h⟩ := exists_of_bind h
  obtain ⟨⟨cumulative, bytes₄⟩, hcounts, h⟩ := exists_of_bind h
  obtain ⟨hpoint, rfl⟩ := Prod.mk.inj (Except.ok.inj h)
  obtain ⟨rfl, -⟩ := Prod.mk.inj hpoint
  have htook₁ := readDelta_shortens build _ _ _ _ hts
  have htook₂ := readDelta_shortens build _ _ _ _ hcount
  have htook₃ := readSum_shortens _ _ _ hsum
  have htook₄ := readCounts_shortens build _ _ _ _ hcounts
  refine ⟨rfl, ?_⟩
  rw [Point.room, List.length_map, length_readCounts build hcounts]
  omega

/-- What was decoded was in the bytes, with those that are left; bounds are of so many bytes. -/
structure Roomy (len : ℕ) (bytes : List UInt8)
    (result : List Point × Except (Stop String) (List UInt8)) : Prop where
  points : (result.1.map Point.room).sum ≤ bytes.length
  rest : ∀ rest, result.2 = .ok rest → (result.1.map Point.room).sum + rest.length ≤ bytes.length
  bounds : ∀ point ∈ result.1, 8 * point.2.bounds.length ≤ len

variable {len : ℕ} {bytes : List UInt8}

theorem Roomy.error (e : Stop String) : Roomy len bytes ([], .error e) where
  points := Nat.zero_le _
  rest _ h := by cases h
  bounds _ h := absurd h List.not_mem_nil

theorem Roomy.nothing : Roomy len bytes ([], .ok bytes) where
  points := Nat.zero_le _
  rest rest h := by
    obtain rfl := Except.ok.inj h
    exact (Nat.zero_add _).le
  bounds _ h := absurd h List.not_mem_nil

/-- Elements, and those behind them. -/
theorem Roomy.append {rest : List UInt8} {points : List Point}
    {result : List Point × Except (Stop String) (List UInt8)}
    (hpoints : (points.map Point.room).sum + rest.length ≤ bytes.length)
    (hbounds : ∀ point ∈ points, 8 * point.2.bounds.length ≤ len) (h : Roomy len rest result) :
    Roomy len bytes (points ++ result.1, result.2) where
  points := by
    have := h.points
    rw [List.map_append, List.sum_append]
    omega
  rest rest' hrest := by
    have := h.rest rest' hrest
    rw [List.map_append, List.sum_append]
    omega
  bounds point hpoint := (List.mem_append.1 hpoint).elim (hbounds point) (h.bounds point)

theorem Roomy.shorter {rest : List UInt8} {result : List Point × Except (Stop String) (List UInt8)}
    (hle : rest.length ≤ bytes.length) (h : Roomy len rest result) : Roomy len bytes result where
  points := h.points.trans hle
  rest rest' hrest := (h.rest rest' hrest).trans hle
  bounds := h.bounds

theorem roomy_readPoints {bounds : List Word} (hbounds : 8 * bounds.length ≤ len) (count : ℕ)
    (s : RunState) (bytes : List UInt8) :
    Roomy len bytes (readPoints build bounds count s bytes) := by
  induction count generalizing s bytes with
  | zero => exact .nothing
  | succ count ih =>
    rw [readPoints]
    cases hpoint : readPoint build bounds s bytes with
    | error e => exact .error e
    | ok read =>
      obtain ⟨⟨point, s'⟩, rest⟩ := read
      obtain ⟨hsame, hroom⟩ := readPoint_spec build hpoint
      refine @Roomy.append _ _ rest [point] _ ?_ ?_ (ih s' rest)
      · rw [List.map_singleton, List.sum_singleton]
        omega
      · intro other hother
        rw [List.mem_singleton.1 hother, hsame]
        exact hbounds

theorem roomy_readRun (hle : bytes.length ≤ len) : Roomy len bytes (readRun build bytes) := by
  rw [readRun]
  cases hheader : readHeader build bytes with
  | error e => exact .error e
  | ok read =>
    obtain ⟨⟨bounds, pointCount⟩, rest⟩ := read
    obtain ⟨⟨boundCount, bytes₁⟩, hcount, h⟩ := exists_of_bind hheader
    obtain ⟨_, _, h⟩ := exists_of_bind h
    obtain ⟨⟨bounds', bytes₂⟩, hbounds, h⟩ := exists_of_bind h
    obtain ⟨⟨points, bytes₃⟩, hpoints, h⟩ := exists_of_bind h
    obtain ⟨hpair, rfl⟩ := Prod.mk.inj (Except.ok.inj h)
    obtain ⟨rfl, rfl⟩ := Prod.mk.inj hpair
    have htook := readUvarint_shortens _ _ _ hcount
    have htook' := readUvarint_shortens _ _ _ hpoints
    obtain ⟨hlength, hbytes⟩ := readBounds_spec hbounds
    refine .shorter ?_ (roomy_readPoints build ?_ _ _ bytes₃)
    · omega
    · rw [hlength]
      omega

theorem roomy_readRuns (count : ℕ) {bytes : List UInt8} (hle : bytes.length ≤ len) :
    Roomy len bytes (readRuns build count bytes) := by
  induction count generalizing bytes with
  | zero => exact .nothing
  | succ count ih =>
    have hrun := roomy_readRun build hle
    rw [readRuns]
    cases hread : readRun build bytes with
    | mk points outcome =>
      rw [hread] at hrun
      cases outcome with
      | error e => exact hrun
      | ok rest =>
        have hrest := hrun.rest rest rfl
        exact .append hrest hrun.bounds (ih (by omega))

theorem roomy_decodePrefix (bytes : List UInt8) :
    Roomy bytes.length bytes (decodePrefix build bytes) := by
  rw [decodePrefix]
  cases hread : readUvarint bytes with
  | error e => exact .error e
  | ok read =>
    obtain ⟨runs, rest⟩ := read
    have htook := readUvarint_shortens _ _ _ hread
    exact .shorter (by omega) (roomy_readRuns build _ (by omega))

/-! ### Safety -/

/-- Decoding ends by no fault, and neither before its end nor after it are there more elements than
the bytes have room for. -/
structure DecodeSafe (build : Build) (bytes : List UInt8) : Prop where
  decode : Harmless (decode build bytes)
  points : ((decodePrefix build bytes).1.map Point.room).sum ≤ bytes.length
  bounds : ∀ point ∈ (decodePrefix build bytes).1, 8 * point.2.bounds.length ≤ bytes.length

/-- **A chunk is decoded to its end, or refused, exactly when what it demands fits.** -/
theorem decodeSafe_iff (bytes : List UInt8) :
    DecodeSafe (strict bytes.length) bytes ↔
      ∀ demand ∈ demands bytes, demand.Fits bytes.length := by
  have hroomy := roomy_decodePrefix (strict bytes.length) bytes
  have hdecode : Harmless (HistogramChunk.decode (strict bytes.length) bytes) ↔
      Harmless (decodePrefix (strict bytes.length) bytes).2 := by
    rw [HistogramChunk.decode]
    cases decodePrefix (strict bytes.length) bytes with
    | mk points outcome =>
      cases outcome with
      | error e => exact ⟨fun h stop hstop => h stop (congrArg Except.error (Except.error.inj hstop)),
          fun h stop hstop => h stop (congrArg Except.error (Except.error.inj hstop))⟩
      | ok rest =>
        refine iff_of_true ?_ (.ok rest)
        dsimp only
        split
        · exact .ok points
        · exact .refused _
  refine Iff.trans ?_ (hdecode.trans (meets_decodePrefix bytes).harmless_iff)
  exact ⟨DecodeSafe.decode, fun h => ⟨h, hroomy.points, hroomy.bounds⟩⟩

end HistogramChunk

open HistogramChunk (DecodeSafe Demand demands strict)

/-- **Either decoder goes through any bytes, or refuses them, exactly when what they declare fits**: a
window 64 bits, a reservation the bytes, a total an `i64`. -/
theorem decoders_safe_iff (bytes : List UInt8) :
    (ChunkSafe (strict bytes.length) bytes ↔ ∀ window ∈ declaredWindows bytes, window.Fits) ∧
      (DecodeSafe (strict bytes.length) bytes ↔
        ∀ demand ∈ demands bytes, demand.Fits bytes.length) :=
  ⟨chunkSafe_iff rfl bytes, HistogramChunk.decodeSafe_iff bytes⟩

/-- A second sample with 31 zeros that lead and 63 bits that mean something. -/
def wideWindow : List UInt8 := [2, 0, 0, 0] ++ List.replicate 24 0 ++ [0xFF, 0xF8]

/-- A run with `2 ^ 63` bounds, of which there is none. -/
def boundless : List UInt8 := 1 :: List.replicate 9 0x80 ++ [1]

/-- A run without bounds, whose second point comes after the end of time. -/
def beyondTime : List UInt8 := [1, 0, 2, 0xFE] ++ List.replicate 8 0xFF ++ [1, 0, 0, 2, 0, 0]

/-- **Chunks with which a decoder comes to a fault.** -/
theorem decoders_fault :
    ¬ ChunkSafe (strict wideWindow.length) wideWindow ∧
      ¬ DecodeSafe (strict boundless.length) boundless ∧
      ¬ DecodeSafe (strict beyondTime.length) beyondTime := by
  refine ⟨fun h => ?_, fun h => ?_, fun h => ?_⟩
  · exact absurd ((chunkSafe_iff rfl _).1 h) (by decide +kernel)
  · exact absurd ((HistogramChunk.decodeSafe_iff _).1 h) (by decide +kernel)
  · exact absurd ((HistogramChunk.decodeSafe_iff _).1 h) (by decide +kernel)

end Metrics

end Obsy
