import Mathlib.Data.List.TakeWhile
import Obsy.Bytes.Varint
import Obsy.Machine.Build
import Obsy.Metrics.Gorilla
import Obsy.Metrics.Part

/-!
# The histogram codec

The points of a histogram series as runs of one list of bounds: the bounds once, and every number of
a point as its difference to the point before.  The code compares bounds as numbers and writes them
as bits.

* `encode`, `decode`: the codec.
* `decodePrefix_encode`: what is written is read back, and nothing behind it.
* `decode_encode_iff`: the points come back as they were unless bounds that are equal as numbers
  differ in their bits.
-/

namespace Obsy

namespace Metrics

namespace HistogramChunk

open Bytes
open Machine (Build Stop)

/-- A timestamp and the point, its values as bits. -/
abbrev Point := Word × HistogramPoint Word

/-! ### Numbers -/

/-- Whether the bits of an `f64` are not a number. -/
def isNan (bits : Word) : Bool := 0x7FF0000000000000 < bits &&& 0x7FFFFFFFFFFFFFFF

/-- `==` of two `f64`: zeros are equal whatever their sign. -/
def floatEq (a b : Word) : Bool :=
  !isNan a && !isNan b && (a == b || (a ||| b) &&& 0x7FFFFFFFFFFFFFFF == 0)

/-- `==` of two lists of bounds. -/
def sameBounds : List Word → List Word → Bool
  | [], [] => true
  | a :: as, b :: bs => floatEq a b && sameBounds as bs
  | _, _ => false

/-- Whether a point has bounds that are equal to some. -/
def sharesBounds (bounds : List Word) (point : Point) : Bool := sameBounds point.2.bounds bounds

/-! ### Encoding -/

def putIvarint (value : Word) : List UInt8 := putUvarint (zigzag value)

/-- The points that follow one another with the bounds of the first. -/
def runs : List Point → List (List Point)
  | [] => []
  | first :: rest =>
    (first :: rest.takeWhile (sharesBounds first.2.bounds)) ::
      runs (rest.dropWhile (sharesBounds first.2.bounds))
termination_by points => points.length
decreasing_by
  have := (List.dropWhile_sublist (sharesBounds first.2.bounds) (l := rest)).length_le
  rw [List.length_cons]
  omega

/-- What the next point of a run is written against. -/
structure RunState where
  ts : Word
  count : Word
  cumulative : List Word

def RunState.start (boundCount : ℕ) : RunState := ⟨0, 0, List.replicate boundCount 0⟩

/-- The counts against those of the point before, which has none past its bounds. -/
def encodeCounts : List Word → List ℕ → List UInt8 × List Word
  | previous, [] => ([], previous)
  | [], value :: values =>
    let (bytes, previous) := encodeCounts [] values
    (putIvarint (BitVec.ofNat 64 value - 0) ++ bytes, previous)
  | slot :: slots, value :: values =>
    let (bytes, previous) := encodeCounts slots values
    (putIvarint (BitVec.ofNat 64 value - slot) ++ bytes, BitVec.ofNat 64 value :: previous)

def encodeSum : Option Word → List UInt8
  | some sum => 1 :: leBytes 8 sum.toNat
  | none => [0]

def encodePoint (s : RunState) (point : Point) : List UInt8 × RunState :=
  let (ts, histogram) := point
  let count := BitVec.ofNat 64 histogram.count
  let (counts, cumulative) := encodeCounts s.cumulative histogram.cumulative
  (putIvarint (ts - s.ts) ++ putIvarint (count - s.count) ++ encodeSum histogram.sum ++ counts,
    ⟨ts, count, cumulative⟩)

def encodePoints : RunState → List Point → List UInt8
  | _, [] => []
  | s, point :: points =>
    let (bytes, s) := encodePoint s point
    bytes ++ encodePoints s points

def encodeRun : List Point → List UInt8
  | [] => []
  | first :: rest =>
    let bounds := first.2.bounds
    putUvarint (BitVec.ofNat 64 bounds.length) ++ bounds.flatMap (fun bound => leBytes 8 bound.toNat)
      ++ putUvarint (BitVec.ofNat 64 (first :: rest).length)
      ++ encodePoints (.start bounds.length) (first :: rest)

def encode (points : List Point) : List UInt8 :=
  putUvarint (BitVec.ofNat 64 (runs points).length) ++ (runs points).flatMap encodeRun

/-! ### Decoding -/

def truncated : Stop String := .refused "histogram chunk is truncated"

def overlong : Stop String := .refused "histogram chunk has an overlong varint"

def readUvarint (bytes : List UInt8) : Except (Stop String) (Word × List UInt8) := getUvarint truncated overlong bytes

def readIvarint (bytes : List UInt8) : Except (Stop String) (Word × List UInt8) := do
  let (value, bytes) ← readUvarint bytes
  .ok (unzigzag value, bytes)

def take (len : ℕ) (bytes : List UInt8) : Except (Stop String) (List UInt8 × List UInt8) :=
  if bytes.length < len then .error truncated else .ok (bytes.take len, bytes.drop len)

/-- So many bounds. -/
def readBounds : ℕ → List UInt8 → Except (Stop String) (List Word × List UInt8)
  | 0, bytes => .ok ([], bytes)
  | count + 1, bytes => do
    let (raw, bytes) ← take 8 bytes
    let (bounds, bytes) ← readBounds count bytes
    .ok (BitVec.ofNat 64 (leNat raw) :: bounds, bytes)

def readSum (bytes : List UInt8) : Except (Stop String) (Option Word × List UInt8) := do
  let (flag, bytes) ← take 1 bytes
  let flag := flag.headD 0
  if flag = 0 then .ok (none, bytes)
  else if flag = 1 then do
    let (raw, bytes) ← take 8 bytes
    .ok (some (BitVec.ofNat 64 (leNat raw)), bytes)
  else .error (.refused s!"histogram point has sum flag {flag}")

variable (build : Build)

/-- A number as its difference to the one before. -/
def readDelta (previous : Word) (bytes : List UInt8) : Except (Stop String) (Word × List UInt8) := do
  let (delta, bytes) ← readIvarint bytes
  let value ← build.add previous delta
  .ok (value, bytes)

/-- A count for every bound. -/
def readCounts : List Word → List UInt8 → Except (Stop String) (List Word × List UInt8)
  | [], bytes => .ok ([], bytes)
  | slot :: slots, bytes => do
    let (slot, bytes) ← readDelta build slot bytes
    let (slots, bytes) ← readCounts slots bytes
    .ok (slot :: slots, bytes)

/-- One point of a run, against the one before. -/
def readPoint (bounds : List Word) (s : RunState) (bytes : List UInt8) :
    Except (Stop String) ((Point × RunState) × List UInt8) := do
  let (ts, bytes) ← readDelta build s.ts bytes
  let (count, bytes) ← readDelta build s.count bytes
  let (sum, bytes) ← readSum bytes
  let (cumulative, bytes) ← readCounts build s.cumulative bytes
  .ok (((ts, ⟨bounds, cumulative.map BitVec.toNat, sum, count.toNat⟩), ⟨ts, count, cumulative⟩), bytes)

/-- So many points: those that were decoded, and how it went on. -/
def readPoints (bounds : List Word) :
    ℕ → RunState → List UInt8 → List Point × Except (Stop String) (List UInt8)
  | 0, _, bytes => ([], .ok bytes)
  | count + 1, s, bytes =>
    match readPoint build bounds s bytes with
    | .error e => ([], .error e)
    | .ok ((point, s), bytes) =>
      let (points, outcome) := readPoints bounds count s bytes
      (point :: points, outcome)

/-- The bounds of a run, for which room is reserved first, and how many points it has. -/
def readHeader (bytes : List UInt8) :
    Except (Stop String) ((List Word × ℕ) × List UInt8) := do
  let (boundCount, bytes) ← readUvarint bytes
  build.reserve boundCount.toNat
  let (bounds, bytes) ← readBounds boundCount.toNat bytes
  let (pointCount, bytes) ← readUvarint bytes
  .ok ((bounds, pointCount.toNat), bytes)

def readRun (bytes : List UInt8) : List Point × Except (Stop String) (List UInt8) :=
  match readHeader build bytes with
  | .error e => ([], .error e)
  | .ok ((bounds, pointCount), bytes) =>
    readPoints build bounds pointCount (.start bounds.length) bytes

/-- So many runs. -/
def readRuns : ℕ → List UInt8 → List Point × Except (Stop String) (List UInt8)
  | 0, bytes => ([], .ok bytes)
  | count + 1, bytes =>
    match readRun build bytes with
    | (points, .error e) => (points, .error e)
    | (points, .ok bytes) =>
      let (more, outcome) := readRuns count bytes
      (points ++ more, outcome)

/-- The points of a chunk that were decoded, and the bytes behind it. -/
def decodePrefix (bytes : List UInt8) : List Point × Except (Stop String) (List UInt8) :=
  match readUvarint bytes with
  | .error e => ([], .error e)
  | .ok (runs, bytes) => readRuns build runs.toNat bytes

def decode (bytes : List UInt8) : Except (Stop String) (List Point) :=
  match decodePrefix build bytes with
  | (_, .error e) => .error e
  | (points, .ok rest) =>
    if rest = [] then .ok points else .error (.refused "histogram chunk has trailing bytes")

/-! ### Numbers are read back -/

theorem readUvarint_put (value : Word) (rest : List UInt8) :
    readUvarint (putUvarint value ++ rest) = .ok (value, rest) :=
  getUvarint_put truncated overlong value rest

theorem readIvarint_put (value : Word) (rest : List UInt8) :
    readIvarint (putIvarint value ++ rest) = .ok (value, rest) := by
  rw [readIvarint, putIvarint, readUvarint_put]
  exact congrArg (fun v => Except.ok (v, rest)) (unzigzag_zigzag value)

theorem take_append {len : ℕ} {raw : List UInt8} (h : raw.length = len) (rest : List UInt8) :
    take len (raw ++ rest) = .ok (raw, rest) := by
  rw [take, List.length_append, if_neg (by omega), List.take_left' h, List.drop_left' h]

theorem ofNat_leNat (value : Word) : BitVec.ofNat 64 (leNat (leBytes 8 value.toNat)) = value := by
  rw [leNat_leBytes (w := 8) value.isLt, ofNat_toNat_word]

theorem readBounds_put (bounds : List Word) (rest : List UInt8) :
    readBounds bounds.length (bounds.flatMap (fun bound => leBytes 8 bound.toNat) ++ rest) =
      .ok (bounds, rest) := by
  induction bounds with
  | nil => rfl
  | cons bound bounds ih =>
    rw [List.length_cons, readBounds, List.flatMap_cons, List.append_assoc,
      take_append (length_leBytes ..)]
    change (readBounds bounds.length _ >>= _) = _
    rw [ih]
    exact congrArg (fun b => Except.ok (b :: bounds, rest)) (ofNat_leNat bound)

theorem readSum_put (sum : Option Word) (rest : List UInt8) :
    readSum (encodeSum sum ++ rest) = .ok (sum, rest) := by
  cases sum with
  | none => rfl
  | some sum =>
    have hflag : take 1 (encodeSum (some sum) ++ rest) = .ok ([1], leBytes 8 sum.toNat ++ rest) := rfl
    have hsome : readSum (encodeSum (some sum) ++ rest) = (do
        let (raw, bytes) ← take 8 (leBytes 8 sum.toNat ++ rest)
        .ok (some (BitVec.ofNat 64 (leNat raw)), bytes)) := by
      rw [readSum, hflag]
      rfl
    rw [hsome, take_append (length_leBytes ..)]
    exact congrArg (fun v => Except.ok (some v, rest)) (ofNat_leNat sum)

theorem readDelta_put (previous value : Word) (rest : List UInt8) :
    readDelta .release previous (putIvarint (value - previous) ++ rest) = .ok (value, rest) := by
  rw [readDelta, readIvarint_put]
  exact congrArg (fun v => Except.ok (v, rest)) (add_sub_word previous value)

/-- As many counts as there were before are read back. -/
theorem readCounts_put {previous : List Word} {values : List ℕ}
    (h : values.length = previous.length) (rest : List UInt8) :
    readCounts .release previous ((encodeCounts previous values).1 ++ rest) =
      .ok (values.map (BitVec.ofNat 64), rest) := by
  induction previous generalizing values with
  | nil =>
    obtain rfl := List.length_eq_zero_iff.1 h
    rfl
  | cons slot slots ih =>
    cases values with
    | nil => cases h
    | cons value values =>
      rw [encodeCounts, readCounts]
      dsimp only
      rw [List.append_assoc, readDelta_put]
      change (readCounts .release slots _ >>= _) = _
      rw [ih (Nat.succ.inj h)]
      rfl

theorem encodeCounts_snd {previous : List Word} {values : List ℕ}
    (h : values.length = previous.length) :
    (encodeCounts previous values).2 = values.map (BitVec.ofNat 64) := by
  induction previous generalizing values with
  | nil =>
    obtain rfl := List.length_eq_zero_iff.1 h
    rfl
  | cons slot slots ih =>
    cases values with
    | nil => cases h
    | cons value values => exact congrArg (_ :: ·) (ih (Nat.succ.inj h))

/-! ### Points are read back -/

/-- A point of the code: a count for every bound, all of 64 bits. -/
structure Encodable (point : HistogramPoint Word) : Prop where
  aligned : point.cumulative.length = point.bounds.length
  bounds_lt : point.bounds.length < 2 ^ 64
  cumulative_lt : ∀ count ∈ point.cumulative, count < 2 ^ 64
  count_lt : point.count < 2 ^ 64

def withBounds (bounds : List Word) (point : Point) : Point :=
  (point.1, { point.2 with bounds := bounds })

theorem map_toNat_ofNat {counts : List ℕ} (h : ∀ count ∈ counts, count < 2 ^ 64) :
    (counts.map (BitVec.ofNat 64)).map BitVec.toNat = counts := by
  rw [List.map_map]
  refine (List.map_congr_left fun count hcount => ?_).trans (List.map_id counts)
  rw [Function.comp_apply, BitVec.toNat_ofNat, Nat.mod_eq_of_lt (h count hcount)]
  rfl

theorem readPoint_encode {point : Point} (hpoint : Encodable point.2) {s : RunState}
    (hs : s.cumulative.length = point.2.cumulative.length) (bounds : List Word)
    (rest : List UInt8) :
    readPoint .release bounds s ((encodePoint s point).1 ++ rest) =
      .ok ((withBounds bounds point, (encodePoint s point).2), rest) := by
  obtain ⟨ts, histogram⟩ := point
  rw [encodePoint, readPoint]
  dsimp only at hpoint hs ⊢
  rw [List.append_assoc, List.append_assoc, List.append_assoc, readDelta_put]
  change (readDelta .release s.count _ >>= _) = _
  rw [readDelta_put]
  change (readSum _ >>= _) = _
  rw [readSum_put]
  change (readCounts .release s.cumulative _ >>= _) = _
  rw [readCounts_put hs.symm, encodeCounts_snd hs.symm]
  change Except.ok (((ts, (⟨bounds, (histogram.cumulative.map (BitVec.ofNat 64)).map BitVec.toNat,
    histogram.sum, (BitVec.ofNat 64 histogram.count).toNat⟩ : HistogramPoint Word)), _), rest) = _
  rw [map_toNat_ofNat hpoint.cumulative_lt, BitVec.toNat_ofNat, Nat.mod_eq_of_lt hpoint.count_lt]
  rfl

theorem length_cumulative_encodePoint {s : RunState} {point : Point}
    (hs : s.cumulative.length = point.2.cumulative.length) :
    (encodePoint s point).2.cumulative.length = s.cumulative.length := by
  change (encodeCounts s.cumulative point.2.cumulative).2.length = _
  rw [encodeCounts_snd hs.symm, List.length_map, hs]

theorem readPoints_encode {points : List Point} {s : RunState}
    (hpoints : ∀ point ∈ points, Encodable point.2 ∧
      s.cumulative.length = point.2.cumulative.length) (bounds : List Word) (rest : List UInt8) :
    readPoints .release bounds points.length s (encodePoints s points ++ rest) =
      (points.map (withBounds bounds), .ok rest) := by
  induction points generalizing s with
  | nil => rfl
  | cons point points ih =>
    obtain ⟨⟨hpoint, hs⟩, hrest⟩ := List.forall_mem_cons.1 hpoints
    rw [List.length_cons, readPoints, encodePoints]
    dsimp only
    rw [List.append_assoc, readPoint_encode hpoint hs]
    dsimp only
    rw [ih fun other hother => ⟨(hrest other hother).1, by
      rw [length_cumulative_encodePoint hs, (hrest other hother).2]⟩]
    rfl

/-! ### Runs are read back -/

theorem length_of_sameBounds {as bs : List Word} (h : sameBounds as bs = true) :
    as.length = bs.length := by
  induction as generalizing bs with
  | nil =>
    cases bs with
    | nil => rfl
    | cons b bs => cases h
  | cons a as ih =>
    cases bs with
    | nil => cases h
    | cons b bs => exact congrArg Nat.succ (ih (Bool.and_eq_true_iff.1 h).2)

/-- A run as it is read back: with the bounds of its first point. -/
def unifyRun : List Point → List Point
  | [] => []
  | first :: rest => (first :: rest).map (withBounds first.2.bounds)

theorem readRun_encode {first : Point} {rest : List Point}
    (hpoints : ∀ point ∈ first :: rest, Encodable point.2)
    (hsame : ∀ point ∈ rest, sharesBounds first.2.bounds point = true)
    (hfew : (first :: rest).length < 2 ^ 64) (more : List UInt8) :
    readRun .release (encodeRun (first :: rest) ++ more) =
      (unifyRun (first :: rest), .ok more) := by
  have hfirst := hpoints first List.mem_cons_self
  have hlength : ∀ point ∈ first :: rest, Encodable point.2 ∧
      (RunState.start first.2.bounds.length).cumulative.length = point.2.cumulative.length := by
    intro point hpoint
    refine ⟨hpoints point hpoint, ?_⟩
    rw [RunState.start, List.length_replicate, (hpoints point hpoint).aligned]
    rcases List.mem_cons.1 hpoint with rfl | hrest
    · rfl
    · exact (length_of_sameBounds (hsame point hrest)).symm
  have hheader : readHeader .release (encodeRun (first :: rest) ++ more) =
      .ok ((first.2.bounds, (first :: rest).length),
        encodePoints (.start first.2.bounds.length) (first :: rest) ++ more) := by
    rw [readHeader, encodeRun]
    dsimp only
    rw [List.append_assoc, List.append_assoc, List.append_assoc, readUvarint_put]
    change (readBounds (BitVec.ofNat 64 first.2.bounds.length).toNat _ >>= _) = _
    rw [BitVec.toNat_ofNat, Nat.mod_eq_of_lt hfirst.bounds_lt, readBounds_put]
    change (readUvarint _ >>= _) = _
    rw [readUvarint_put]
    change Except.ok ((first.2.bounds, (BitVec.ofNat 64 (first :: rest).length).toNat), _) = _
    rw [BitVec.toNat_ofNat, Nat.mod_eq_of_lt hfew]
  rw [readRun, hheader]
  exact readPoints_encode hlength _ _

/-- The points as they are read back. -/
def unified (points : List Point) : List Point := (runs points).flatMap unifyRun

theorem readRuns_encode {points : List Point} (hpoints : ∀ point ∈ points, Encodable point.2)
    (hfew : points.length < 2 ^ 64) (more : List UInt8) :
    readRuns .release (runs points).length ((runs points).flatMap encodeRun ++ more) =
      (unified points, .ok more) := by
  induction points using runs.induct with
  | case1 =>
    rw [unified, runs]
    rfl
  | case2 first rest ih =>
    set same : Point → Bool := sharesBounds first.2.bounds with hsame
    have hfront := (List.takeWhile_sublist same (l := rest)).length_le
    have hback := (List.dropWhile_sublist same (l := rest)).length_le
    rw [List.length_cons] at hfew
    have hrun := @readRun_encode first (rest.takeWhile same)
      (fun point hpoint => hpoints point (by
        rcases List.mem_cons.1 hpoint with rfl | hmem
        · exact List.mem_cons_self
        · exact List.mem_cons_of_mem _ ((List.takeWhile_sublist same).subset hmem)))
      (fun point hpoint => List.mem_takeWhile_imp (p := same) hpoint)
      (by rw [List.length_cons]; omega)
      ((runs (rest.dropWhile same)).flatMap encodeRun ++ more)
    have hrest := ih (fun point hpoint => hpoints point
      (List.mem_cons_of_mem _ ((List.dropWhile_sublist same).subset hpoint))) (by omega)
    rw [unified, runs, List.length_cons, readRuns, List.flatMap_cons, List.append_assoc, hrun]
    dsimp only
    rw [hrest]
    rfl

theorem length_runs_le (points : List Point) : (runs points).length ≤ points.length := by
  induction points using runs.induct with
  | case1 =>
    rw [runs]
    rfl
  | case2 first rest ih =>
    have hback := (List.dropWhile_sublist (sharesBounds first.2.bounds) (l := rest)).length_le
    rw [runs, List.length_cons, List.length_cons]
    omega

/-- **What is written is read back**, with the bounds of the first point of each run, and nothing
behind it is read. -/
theorem decodePrefix_encode {points : List Point} (hpoints : ∀ point ∈ points, Encodable point.2)
    (hfew : points.length < 2 ^ 64) (more : List UInt8) :
    decodePrefix .release (encode points ++ more) = (unified points, .ok more) := by
  have hruns := (length_runs_le points).trans_lt hfew
  rw [decodePrefix, encode, List.append_assoc, readUvarint_put]
  dsimp only
  rw [BitVec.toNat_ofNat, Nat.mod_eq_of_lt hruns]
  exact readRuns_encode hpoints hfew more

/-! ### When the points come back -/

/-- Points that follow one with some bounds, as they are read back. -/
def unifyFrom (bounds : List Word) : List Point → List Point
  | [] => []
  | point :: points =>
    if sharesBounds bounds point then withBounds bounds point :: unifyFrom bounds points
    else point :: unifyFrom point.2.bounds points

theorem unified_cons_runs (first : Point) (rest : List Point) :
    unified (first :: rest) = first ::
      ((rest.takeWhile (sharesBounds first.2.bounds)).map (withBounds first.2.bounds) ++
        unified (rest.dropWhile (sharesBounds first.2.bounds))) := by
  rw [unified, runs]
  rfl

theorem unifyFrom_eq (bounds : List Word) (points : List Point) :
    unifyFrom bounds points =
      (points.takeWhile (sharesBounds bounds)).map (withBounds bounds) ++
        unified (points.dropWhile (sharesBounds bounds)) := by
  induction points generalizing bounds with
  | nil =>
    rw [unified, List.dropWhile_nil, runs]
    rfl
  | cons point points ih =>
    rw [unifyFrom]
    by_cases hsame : sharesBounds bounds point = true
    · rw [if_pos hsame, ih, List.takeWhile_cons_of_pos hsame, List.dropWhile_cons_of_pos hsame]
      rfl
    · rw [if_neg hsame, ih, List.takeWhile_cons_of_neg hsame, List.dropWhile_cons_of_neg hsame,
        unified_cons_runs]
      rfl

theorem unified_cons (first : Point) (rest : List Point) :
    unified (first :: rest) = first :: unifyFrom first.2.bounds rest := by
  rw [unified_cons_runs, unifyFrom_eq]

/-- Bounds that are equal as numbers and follow one another are equal as bits. -/
def Unmixed (points : List Point) : Prop :=
  points.IsChain fun point next =>
    sharesBounds point.2.bounds next = true → next.2.bounds = point.2.bounds

instance (points : List Point) : Decidable (Unmixed points) :=
  inferInstanceAs (Decidable (List.IsChain _ points))

theorem withBounds_eq_iff {bounds : List Word} {point : Point} :
    withBounds bounds point = point ↔ point.2.bounds = bounds := by
  obtain ⟨ts, histogram⟩ := point
  constructor
  · intro h
    exact (congrArg (fun p : Point => p.2.bounds) h).symm
  · rintro rfl
    rfl

theorem unifyFrom_eq_self_iff {first : Point} {rest : List Point} :
    unifyFrom first.2.bounds rest = rest ↔ Unmixed (first :: rest) := by
  induction rest generalizing first with
  | nil => exact iff_of_true rfl (List.isChain_singleton _)
  | cons next rest ih =>
    rw [unifyFrom, Unmixed, List.isChain_cons_cons, ← Unmixed, ← ih]
    by_cases hsame : sharesBounds first.2.bounds next = true
    · rw [if_pos hsame, List.cons.injEq, withBounds_eq_iff]
      constructor
      · rintro ⟨hbounds, hrest⟩
        exact ⟨fun _ => hbounds, hbounds ▸ hrest⟩
      · rintro ⟨hbounds, hrest⟩
        exact ⟨hbounds hsame, hbounds hsame ▸ hrest⟩
    · rw [if_neg hsame, List.cons.injEq]
      exact ⟨fun h => ⟨fun hpos => absurd hpos hsame, h.2⟩, fun h => ⟨rfl, h.2⟩⟩

theorem unified_eq_self_iff {points : List Point} : unified points = points ↔ Unmixed points := by
  cases points with
  | nil =>
    refine iff_of_true ?_ List.isChain_nil
    rw [unified, runs]
    rfl
  | cons first rest =>
    rw [unified_cons, List.cons.injEq, ← unifyFrom_eq_self_iff]
    exact and_iff_right rfl

theorem decode_encode {points : List Point} (hpoints : ∀ point ∈ points, Encodable point.2)
    (hfew : points.length < 2 ^ 64) : decode .release (encode points) = .ok (unified points) := by
  have h := decodePrefix_encode hpoints hfew []
  rw [List.append_nil] at h
  rw [decode, h]
  rfl

/-- **The points come back bit for bit, and with them every byte that was written, exactly when no
point follows one whose bounds are equal as numbers and other bits.** -/
theorem decode_encode_iff {points : List Point} (hpoints : ∀ point ∈ points, Encodable point.2)
    (hfew : points.length < 2 ^ 64) :
    (decode .release (encode points) = .ok points ∧
      ∀ rest, decodePrefix .release (encode points ++ rest) = (points, .ok rest)) ↔
      Unmixed points := by
  rw [← unified_eq_self_iff]
  constructor
  · rintro ⟨hdecode, -⟩
    exact Except.ok.inj ((decode_encode hpoints hfew).symm.trans hdecode)
  · intro hunified
    refine ⟨?_, fun rest => ?_⟩
    · rw [decode_encode hpoints hfew, hunified]
    · rw [decodePrefix_encode hpoints hfew, hunified]

/-- The bounds of a histogram, one a bound: no number, and a bound that is one. -/
def nanThenOne : List Point :=
  [(3, ⟨[0x7FF8000000000001], [1], none, 1⟩), (1, ⟨[0x3FF0000000000000], [2], some 7, 2 ^ 63⟩)]

theorem decode_encode_iff_sample :
    decode .release (encode nanThenOne) = .ok nanThenOne ∧
      ∀ rest, decodePrefix .release (encode nanThenOne ++ rest) = (nanThenOne, .ok rest) :=
  (decode_encode_iff (by
    intro point hpoint
    rcases List.mem_pair.1 hpoint with rfl | rfl <;> constructor <;> decide) (by decide)).2
    (by decide)

/-- Bounds that are zero, and bounds that are its negative. -/
def zeroThenNegative : List Point :=
  [(1, ⟨[0], [1], none, 1⟩), (2, ⟨[0x8000000000000000], [1], none, 1⟩)]

/-- **The sign of a zero is lost** when bounds that differ in it alone follow one another. -/
theorem decode_encode_loses_sign :
    ¬ ∀ points : List Point, (∀ point ∈ points, Encodable point.2) → points.length < 2 ^ 64 →
      decode .release (encode points) = .ok points := by
  intro h
  have hpoints : ∀ point ∈ zeroThenNegative, Encodable point.2 := by
    intro point hpoint
    rcases List.mem_pair.1 hpoint with rfl | rfl <;> constructor <;> decide
  have hunified := (decode_encode hpoints (by decide)).symm.trans
    (h zeroThenNegative hpoints (by decide))
  exact absurd (unified_eq_self_iff.1 (Except.ok.inj hunified)) (by decide)

end HistogramChunk

end Metrics

end Obsy
