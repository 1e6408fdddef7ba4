import Mathlib.Data.List.Destutter
import Mathlib.Data.List.GetD
import Mathlib.Data.Nat.Digits.Defs
import Mathlib.Tactic.Linarith
import Obsy.Logql.Fields

/-!
# The values a field is compared with

A field filter compares texts, exact decimals or durations.  The index of a part holds every
value in the canonical form of each.

* `Decimal.parse`, `Decimal.cmp`: exact decimals, without trailing zeros.
* `parseDurationNs`: durations.
* `canonicalIndexValues`: the forms of a value in the index.
* `Decimal.eq_of_cmp`: decimals that compare equal are one decimal.
-/

namespace Obsy

namespace Logql

/-! ### Texts of numbers -/

/-- White space of Unicode. -/
def isWhitespace (c : Char) : Bool :=
  let n := c.toNat
  (9 ≤ n && n ≤ 13) || n == 32 || n == 0x85 || n == 0xa0 || n == 0x1680 ||
    (0x2000 ≤ n && n ≤ 0x200a) || n == 0x2028 || n == 0x2029 || n == 0x202f || n == 0x205f ||
    n == 0x3000

/-- `str::trim`. -/
def trim (s : List Char) : List Char :=
  ((s.dropWhile isWhitespace).reverse.dropWhile isWhitespace).reverse

theorem trim_of_plain {s : List Char} (h : ∀ c ∈ s, isWhitespace c = false) : trim s = s := by
  have hdrop : ∀ t : List Char, (∀ c ∈ t, isWhitespace c = false) →
      t.dropWhile isWhitespace = t := by
    intro t ht
    cases t with
    | nil => rfl
    | cons c t => rw [List.dropWhile_cons_of_neg (by rw [ht c List.mem_cons_self]; decide)]
  rw [trim, hdrop s h, hdrop _ fun c hc => h c (List.mem_reverse.1 hc), List.reverse_reverse]

/-- The number decimal digits write. -/
def digitsValue (digits : List Char) : ℕ :=
  digits.foldl (fun n c => 10 * n + (c.toNat - '0'.toNat)) 0

/-- `str::parse::<i64>`. -/
def parseI64 (s : List Char) : Option ℤ :=
  let negative := s.head? = some '-'
  let digits := if negative ∨ s.head? = some '+' then s.tail else s
  if digits.isEmpty || !digits.all Char.isDigit then none
  else
    let value : ℤ := if negative then -digitsValue digits else digitsValue digits
    if -2 ^ 63 ≤ value ∧ value < 2 ^ 63 then some value else none

/-- Around the point, if there is at most one, both sides being digits. -/
def splitFraction (number : List Char) : Option (List Char × List Char) :=
  let integer := number.takeWhile (· != '.')
  let fraction := (number.dropWhile (· != '.')).tail
  if (integer ++ fraction).isEmpty || !(integer ++ fraction).all Char.isDigit then none
  else some (integer, fraction)

/-! ### Decimals -/

/-- `coefficient / 10 ^ scale`, without trailing zeros. -/
structure Decimal where
  coefficient : ℤ
  scale : ℤ
  normal : coefficient = 0 ∧ scale = 0 ∨ coefficient.natAbs % 10 ≠ 0
deriving DecidableEq

def maxDecimalScale : ℤ := 1024

/-- The number without its trailing zeros, and how many those were. -/
def stripZeros (n : ℕ) : ℕ × ℕ :=
  if h : n ≠ 0 ∧ n % 10 = 0 then
    let stripped := stripZeros (n / 10)
    (stripped.1, stripped.2 + 1)
  else (n, 0)
termination_by n
decreasing_by exact Nat.div_lt_self (Nat.pos_of_ne_zero h.1) (by decide)

theorem stripZeros_mod {n : ℕ} (h : n ≠ 0) : (stripZeros n).1 % 10 ≠ 0 := by
  induction n using Nat.strong_induction_on with
  | _ n ih =>
    rw [stripZeros]
    split
    case isTrue hz =>
      exact ih (n / 10) (Nat.div_lt_self (Nat.pos_of_ne_zero hz.1) (by decide)) (by omega)
    case isFalse hz =>
      intro hmod
      exact hz ⟨h, hmod⟩

/-- An exact decimal, or `none` where the text is none or does not fit. -/
def Decimal.parse (input : String) : Option Decimal := do
  let input := trim input.toList
  let isExponent := fun c : Char => c == 'e' || c == 'E'
  let mantissa := input.takeWhile fun c => !isExponent c
  let exponent ← match input.dropWhile fun c => !isExponent c with
    | [] => some 0
    | _ :: exponent => if exponent.any isExponent then none else parseI64 exponent
  let negative := mantissa.head? = some '-'
  let mantissa := if negative ∨ mantissa.head? = some '+' then mantissa.tail else mantissa
  let (integer, fraction) ← splitFraction mantissa
  let magnitude := digitsValue (integer ++ fraction)
  if hz : magnitude = 0 then return ⟨0, 0, .inl ⟨rfl, rfl⟩⟩
  else
    -- an `i128` holds one more negative number than positive ones
    guard (magnitude < 2 ^ 127 ∨ negative ∧ magnitude = 2 ^ 127)
    let scale : ℤ := fraction.length - exponent
    guard (-maxDecimalScale ≤ scale ∧ scale ≤ maxDecimalScale)
    let stripped := stripZeros magnitude
    let scale := scale - stripped.2
    guard (-maxDecimalScale ≤ scale ∧ scale ≤ maxDecimalScale)
    return ⟨if negative then -stripped.1 else stripped.1, scale, .inr (by
      have := stripZeros_mod hz
      split <;> simpa using this)⟩

theorem Decimal.parse_empty : Decimal.parse "" = none := rfl

/-- The digits of a number, the leading one first. -/
def decimalDigits (n : ℕ) : List ℕ := (Nat.digits 10 n).reverse

/-- Compares digits behind the point, the shorter ones continued by zeros. -/
def comparePadded (left right : List ℕ) : Ordering :=
  ((List.range (max left.length right.length)).map fun index =>
    compare (left.getD index 0) (right.getD index 0)).find? (· ≠ .eq) |>.getD .eq

def Decimal.cmp (left right : Decimal) : Ordering :=
  if left.coefficient = 0 ∨ right.coefficient = 0 then
    compare left.coefficient right.coefficient
  else if decide (left.coefficient < 0) ≠ decide (right.coefficient < 0) then
    if left.coefficient < 0 then .lt else .gt
  else
    let leftDigits := decimalDigits left.coefficient.natAbs
    let rightDigits := decimalDigits right.coefficient.natAbs
    let absolute := (compare ((leftDigits.length : ℤ) - left.scale)
      (rightDigits.length - right.scale)).then (comparePadded leftDigits rightDigits)
    if left.coefficient < 0 then absolute.swap else absolute

/-- The decimal as the index writes it. -/
def Decimal.canonicalString (d : Decimal) : String :=
  if d.coefficient = 0 then "0"
  else
    let digits := (toString d.coefficient.natAbs).toList
    let zeros := fun n => List.replicate n '0'
    let output :=
      if d.scale ≤ 0 then digits ++ zeros d.scale.natAbs
      else if digits.length ≤ d.scale.natAbs then
        "0.".toList ++ zeros (d.scale.natAbs - digits.length) ++ digits
      else
        let split := digits.length - d.scale.natAbs
        digits.take split ++ '.' :: digits.drop split
    String.ofList (if d.coefficient < 0 then '-' :: output else output)

theorem getD_eq_of_comparePadded {left right : List ℕ} (h : comparePadded left right = .eq)
    (index : ℕ) : left.getD index 0 = right.getD index 0 := by
  by_cases hlt : index < max left.length right.length
  · have hnone : ((List.range (max left.length right.length)).map fun index =>
        compare (left.getD index 0) (right.getD index 0)).find? (· ≠ .eq) = none := by
      rw [comparePadded] at h
      cases hfind : ((List.range (max left.length right.length)).map fun index =>
          compare (left.getD index 0) (right.getD index 0)).find? (· ≠ .eq) with
      | none => rfl
      | some order =>
        rw [hfind] at h
        have := List.find?_some hfind
        simp_all
    have := List.find?_eq_none.1 hnone _
      (List.mem_map.2 ⟨index, List.mem_range.2 hlt, rfl⟩)
    exact Nat.compare_eq_eq.1 (by simpa using this)
  · rw [List.getD_eq_default _ _ (by omega), List.getD_eq_default _ _ (by omega)]

/-- Digits that end without zeros are told apart by a padded comparison. -/
theorem length_le_of_getD {left right : List ℕ} (h : ∀ index, left.getD index 0 = right.getD index 0)
    (hlast : ∀ hne : right ≠ [], right.getLast hne ≠ 0) : right.length ≤ left.length := by
  by_contra hlt
  have hne : right ≠ [] := by
    rintro rfl
    simp at hlt
  have hget := h (right.length - 1)
  have hpos := List.length_pos_iff.2 hne
  rw [List.getD_eq_default left _ (by omega),
    List.getD_eq_getElem _ _ (show right.length - 1 < right.length by omega)] at hget
  exact hlast hne (by rw [List.getLast_eq_getElem]; exact hget.symm)

theorem getLast_decimalDigits {n : ℕ} (h : n % 10 ≠ 0) (hne : decimalDigits n ≠ []) :
    (decimalDigits n).getLast hne ≠ 0 := by
  have hn : n ≠ 0 := by rintro rfl; simp at h
  have hd : Nat.digits 10 n = n % 10 :: Nat.digits 10 (n / 10) :=
    Nat.digits_def' (by decide) (Nat.pos_of_ne_zero hn)
  have : (decimalDigits n).getLast hne = n % 10 := by
    simp [decimalDigits, hd]
  rw [this]
  exact h

theorem eq_of_comparePadded {m n : ℕ} (hm : m % 10 ≠ 0) (hn : n % 10 ≠ 0)
    (h : comparePadded (decimalDigits m) (decimalDigits n) = .eq) : m = n := by
  have hget := getD_eq_of_comparePadded h
  have hlen : (decimalDigits m).length = (decimalDigits n).length := le_antisymm
    (length_le_of_getD (fun index => (hget index).symm) (getLast_decimalDigits hm))
    (length_le_of_getD hget (getLast_decimalDigits hn))
  have : decimalDigits m = decimalDigits n := by
    refine List.ext_getElem hlen fun index hl hr => ?_
    have := hget index
    rwa [List.getD_eq_getElem _ _ hl, List.getD_eq_getElem _ _ hr] at this
  exact Nat.digits_inj_iff.1 (List.reverse_injective this)

/-- Decimals that compare equal are one decimal. -/
theorem Decimal.eq_of_cmp {left right : Decimal} (h : left.cmp right = .eq) : left = right := by
  obtain ⟨c, s, hc⟩ := left
  obtain ⟨c', s', hc'⟩ := right
  simp only [Decimal.cmp] at h
  split at h
  case isTrue hz =>
    obtain rfl : c = c' := compare_eq_iff_eq.1 h
    have hzero : c = 0 := hz.elim id id
    subst hzero
    have hs : s = 0 := hc.elim (·.2) (by simp)
    have hs' : s' = 0 := hc'.elim (·.2) (by simp)
    simp [hs, hs']
  case isFalse hz =>
    push Not at hz
    have hm : c.natAbs % 10 ≠ 0 := hc.resolve_left fun hzero => hz.1 hzero.1
    have hm' : c'.natAbs % 10 ≠ 0 := hc'.resolve_left fun hzero => hz.2 hzero.1
    split at h
    case isTrue => split at h <;> cases h
    case isFalse hsign =>
      have habs : (compare (((decimalDigits c.natAbs).length : ℤ) - s)
          ((decimalDigits c'.natAbs).length - s')).then
          (comparePadded (decimalDigits c.natAbs) (decimalDigits c'.natAbs)) = .eq := by
        split at h
        · exact Ordering.swap_eq_eq.1 h
        · exact h
      rw [Ordering.then_eq_eq] at habs
      have hnat := eq_of_comparePadded hm hm' habs.2
      have hscale := compare_eq_iff_eq.1 habs.1
      rw [hnat] at hscale
      have hs : s = s' := by omega
      have hcc : c = c' := by
        simp only [ne_eq, decide_eq_decide, not_not] at hsign
        omega
      subst hs hcc
      rfl

/-! ### Durations -/

/-- Why a text is no duration. -/
inductive DurationError where
  | empty
  | invalid
  | outOfRange
deriving DecidableEq

/-- The units with their nanoseconds, in the order in which they are tried. -/
def durationUnits : List (String × ℕ) :=
  [("ns", 1), ("us", 1000), ("µs", 1000), ("ms", 1000000), ("s", 1000000000),
    ("m", 60000000000), ("h", 3600000000000), ("d", 86400000000000), ("w", 604800000000000)]

/-- One component of a duration, rounded down to a nanosecond. -/
def decimalDurationComponentNs (number : List Char) (multiplier : ℕ) : Except DurationError ℤ := do
  let some (integer, fraction) := splitFraction number | throw .invalid
  let significant := (fraction.reverse.dropWhile (· == '0')).reverse
  let divisor := 10 ^ significant.length
  let numerator := digitsValue integer * divisor + digitsValue significant
  let scaled := numerator * multiplier
  -- every intermediate value is a checked `u128`
  if divisor < 2 ^ 128 ∧ scaled < 2 ^ 128 ∧ scaled / divisor < 2 ^ 63 then
    return (scaled / divisor : ℕ)
  else throw .outOfRange

/-- The loop of `parse_duration_ns`. -/
def parseComponents : ℕ → List Char → ℤ → Except DurationError ℤ
  | 0, _, total => .ok total
  | _ + 1, [], total => .ok total
  | fuel + 1, c :: s, total => do
    let isNumber := fun c : Char => c.isDigit || c == '.'
    let number := (c :: s).takeWhile isNumber
    let rest := (c :: s).dropWhile isNumber
    if number.isEmpty then throw .invalid
    let some (unit, multiplier) := durationUnits.find? fun u => u.1.toList.isPrefixOf rest
      | throw .invalid
    let component ← decimalDurationComponentNs number multiplier
    if total + component < 2 ^ 63 then
      parseComponents fuel (rest.drop unit.toList.length) (total + component)
    else throw .outOfRange

def parseDurationNs (input : String) : Except DurationError ℤ :=
  let input := trim input.toList
  if input.isEmpty then .error .empty else parseComponents input.length input 0

theorem parseDurationNs_empty : parseDurationNs "" = .error .empty := rfl

/-! ### The forms of a value in the index -/

/-- The text itself and its canonical forms as a number and as a duration. -/
def canonicalIndexValues (value : String) : List String :=
  let number := (Decimal.parse value).map Decimal.canonicalString
  let duration := (parseDurationNs value).toOption.map toString
  ((value :: (number.toList ++ duration.toList)).mergeSort (· ≤ ·)).destutter (· ≠ ·)

theorem mem_canonicalIndexValues {value form : String} :
    form ∈ canonicalIndexValues value ↔ form = value ∨
      (∃ d, Decimal.parse value = some d ∧ d.canonicalString = form) ∨
      ∃ ns, parseDurationNs value = .ok ns ∧ toString ns = form := by
  have hp := List.pairwise_mergeSort' (· ≤ ·) (value ::
    (((Decimal.parse value).map Decimal.canonicalString).toList ++
      ((parseDurationNs value).toOption.map toString).toList))
  rw [canonicalIndexValues, List.Pairwise.destutter_eq_dedup hp, List.mem_dedup,
    List.mem_mergeSort, List.mem_cons, List.mem_append, Option.mem_toList, Option.mem_toList,
    Option.map_eq_some_iff, Option.map_eq_some_iff]
  cases parseDurationNs value <;> simp [Except.toOption]

end Logql

end Obsy
