import Mathlib.Algebra.Order.Field.Rat
import Mathlib.Data.List.DropRight
import Mathlib.Data.Nat.Digits.Lemmas
import Mathlib.Data.Ordering.Basic
import Mathlib.Order.Compare
import Mathlib.Tactic.IntervalCases
import Mathlib.Tactic.Positivity
import Mathlib.Tactic.Ring
import Obsy.Logql.Values

/-!
# Exact decimals

What a decimal says about the number that its text denotes.

* `Decimal.value`: the number; `Denotes`: the number that a text denotes.
* `Decimal.cmp_compares`: decimals are compared as their numbers.
* `Decimal.denotes_of_parse`: a text that is read denotes the number it is read as.
* `Decimal.parse_canonicalString`: what reading a canonical text gives.
* `decimalSecondsToNs`: seconds in nanoseconds, exactly or not at all.
-/

namespace Obsy

namespace Logql

/-- The number. -/
def Decimal.value (d : Decimal) : ℚ := d.coefficient * 10 ^ (-d.scale)

/-! ### Digits behind the point -/

/-- The number that the first digits of a list write, which zeros continue. -/
def padded : ℕ → List ℕ → ℕ
  | 0, _ => 0
  | count + 1, digits => digits.headD 0 * 10 ^ count + padded count digits.tail

theorem padded_nil (count : ℕ) : padded count [] = 0 := by
  induction count with
  | zero => rfl
  | succ count ih =>
    rw [padded, List.tail_nil, ih]
    simp

theorem padded_lt {digits : List ℕ} (h : ∀ digit ∈ digits, digit < 10) (count : ℕ) :
    padded count digits < 10 ^ count := by
  induction count generalizing digits with
  | zero => simp [padded]
  | succ count ih =>
    have hhead : digits.headD 0 < 10 := by
      cases digits with
      | nil => simp
      | cons digit digits => exact h digit List.mem_cons_self
    have htail := ih fun digit hmem => h digit (List.mem_of_mem_tail hmem)
    rw [padded, pow_succ]
    have hmul : digits.headD 0 * 10 ^ count ≤ 9 * 10 ^ count :=
      Nat.mul_le_mul_right _ (by omega)
    omega

/-- A number with its digits in front. -/
theorem padded_decimalDigits {digits : List ℕ} {count : ℕ} (h : digits.length ≤ count) :
    padded count digits = Nat.ofDigits 10 digits.reverse * 10 ^ (count - digits.length) := by
  induction count generalizing digits with
  | zero =>
    obtain rfl : digits = [] := List.length_eq_zero_iff.1 (Nat.le_zero.1 h)
    simp [padded]
  | succ count ih =>
    cases digits with
    | nil => simp [padded_nil]
    | cons digit digits =>
      have hlength : digits.length ≤ count := by simpa using h
      rw [padded, List.headD_cons, List.tail_cons, ih hlength, List.reverse_cons,
        Nat.ofDigits_append, List.length_reverse, List.length_cons, Nat.add_sub_add_right]
      have hpow : 10 ^ count = 10 ^ digits.length * 10 ^ (count - digits.length) := by
        rw [← pow_add, Nat.add_sub_cancel' hlength]
      rw [hpow, Nat.ofDigits_singleton]
      ring

/-- The comparison of as many digits. -/
def compareDigits (count : ℕ) (left right : List ℕ) : Ordering :=
  (((List.range count).map fun index =>
    compare (left.getD index 0) (right.getD index 0)).find? (· ≠ .eq)).getD .eq

theorem compareDigits_succ (count : ℕ) (left right : List ℕ) :
    compareDigits (count + 1) left right =
      (compare (left.headD 0) (right.headD 0)).then (compareDigits count left.tail right.tail) := by
  have hhead : ∀ digits : List ℕ, digits.getD 0 0 = digits.headD 0 := by
    intro digits
    cases digits <;> rfl
  have htail : ∀ (digits : List ℕ) (index : ℕ),
      digits.getD (index + 1) 0 = digits.tail.getD index 0 := by
    intro digits index
    cases digits <;> simp
  rw [compareDigits, List.range_succ_eq_map, List.map_cons, List.map_map, hhead, hhead]
  simp only [Function.comp_def, Nat.succ_eq_add_one, htail]
  rw [List.find?_cons]
  cases hfirst : compare (left.headD 0) (right.headD 0) <;> rfl

theorem compares_mul_add {a b x y m : ℕ} {order : Ordering} (hx : x < m) (hy : y < m)
    (h : order.Compares x y) :
    ((compare a b).then order).Compares (a * m + x) (b * m + y) := by
  rcases lt_trichotomy a b with hlt | rfl | hgt
  · rw [Nat.compare_eq_lt.2 hlt]
    have hmul : (a + 1) * m ≤ b * m := Nat.mul_le_mul_right _ hlt
    rw [Nat.add_mul] at hmul
    exact show a * m + x < b * m + y by omega
  · rw [Nat.compare_eq_eq.2 rfl]
    cases order with
    | lt => exact Nat.add_lt_add_left h _
    | eq => exact congrArg (a * m + ·) h
    | gt => exact Nat.add_lt_add_left (show y < x from h) _
  · rw [Nat.compare_eq_gt.2 hgt]
    have hmul : (b + 1) * m ≤ a * m := Nat.mul_le_mul_right _ hgt
    rw [Nat.add_mul] at hmul
    exact show b * m + y < a * m + x by omega

/-- Digits are compared as the numbers they write. -/
theorem compareDigits_compares {left right : List ℕ} (hleft : ∀ digit ∈ left, digit < 10)
    (hright : ∀ digit ∈ right, digit < 10) (count : ℕ) :
    (compareDigits count left right).Compares (padded count left) (padded count right) := by
  induction count generalizing left right with
  | zero => rfl
  | succ count ih =>
    have hleft' : ∀ digit ∈ left.tail, digit < 10 := fun digit hmem =>
      hleft digit (List.mem_of_mem_tail hmem)
    have hright' : ∀ digit ∈ right.tail, digit < 10 := fun digit hmem =>
      hright digit (List.mem_of_mem_tail hmem)
    rw [compareDigits_succ, padded, padded]
    exact compares_mul_add (padded_lt hleft' count) (padded_lt hright' count)
      (ih hleft' hright')

theorem decimalDigits_lt {n digit : ℕ} (h : digit ∈ decimalDigits n) : digit < 10 :=
  Nat.digits_lt_base (by decide) (List.mem_reverse.1 h)

theorem ofDigits_decimalDigits (n : ℕ) : Nat.ofDigits 10 (decimalDigits n).reverse = n := by
  rw [decimalDigits, List.reverse_reverse, Nat.ofDigits_digits]

/-! ### Comparison -/

/-- A positive number is between two powers of ten. -/
theorem value_bounds {n : ℕ} (hn : 0 < n) (s : ℤ) :
    (10 : ℚ) ^ (((decimalDigits n).length : ℤ) - s - 1) ≤ n * 10 ^ (-s) ∧
      n * (10 : ℚ) ^ (-s) < 10 ^ (((decimalDigits n).length : ℤ) - s) := by
  have hlength : (decimalDigits n).length = (Nat.digits 10 n).length := List.length_reverse
  have hpos : (0 : ℚ) < 10 ^ (-s) := zpow_pos (by norm_num) _
  constructor
  · have hlow : 10 ^ (decimalDigits n).length ≤ 10 * n := by
      rw [hlength]
      exact Nat.base_pow_length_digits_le 10 n (by decide) hn.ne'
    have hcast : (10 : ℚ) ^ ((decimalDigits n).length : ℤ) ≤ 10 * n := by
      exact_mod_cast hlow
    have hsplit : (10 : ℚ) ^ (((decimalDigits n).length : ℤ) - s - 1) =
        10 ^ ((decimalDigits n).length : ℤ) * 10 ^ (-s) / 10 := by
      rw [sub_sub, sub_eq_add_neg, zpow_add₀ (by norm_num), neg_add, zpow_add₀ (by norm_num)]
      norm_num
      ring
    rw [hsplit, div_le_iff₀ (by norm_num)]
    nlinarith
  · have hhigh : n < 10 ^ (decimalDigits n).length := by
      rw [hlength]
      exact Nat.lt_base_pow_length_digits (by decide)
    have hcast : (n : ℚ) < 10 ^ ((decimalDigits n).length : ℤ) := by
      exact_mod_cast hhigh
    rw [sub_eq_add_neg, zpow_add₀ (by norm_num)]
    exact mul_lt_mul_of_pos_right hcast hpos

/-- Positive numbers are compared by their magnitudes, and then digit by digit. -/
theorem magnitudes_compares {m n : ℕ} (hm : 0 < m) (hn : 0 < n) (s t : ℤ) :
    ((compare (((decimalDigits m).length : ℤ) - s) ((decimalDigits n).length - t)).then
      (comparePadded (decimalDigits m) (decimalDigits n))).Compares
        ((m : ℚ) * 10 ^ (-s)) (n * 10 ^ (-t)) := by
  obtain ⟨hlowm, hhighm⟩ := value_bounds hm s
  obtain ⟨hlown, hhighn⟩ := value_bounds hn t
  have hmono : ∀ {i j : ℤ}, i ≤ j → (10 : ℚ) ^ i ≤ 10 ^ j := fun h =>
    zpow_le_zpow_right₀ (by norm_num) h
  rcases lt_trichotomy (((decimalDigits m).length : ℤ) - s) ((decimalDigits n).length - t) with
    hlt | heq | hgt
  · rw [compare_lt_iff_lt.2 hlt]
    exact hhighm.trans_le ((hmono (by omega)).trans hlown)
  · -- both are as many places behind the same power of ten
    rw [heq, compare_eq_iff_eq.2 rfl]
    set count := max (decimalDigits m).length (decimalDigits n).length with hcount
    have hdigits := compareDigits_compares (@decimalDigits_lt m) (@decimalDigits_lt n) count
    rw [padded_decimalDigits (le_max_left _ _), padded_decimalDigits (le_max_right _ _),
      ofDigits_decimalDigits, ofDigits_decimalDigits] at hdigits
    have hscale : ∀ (k : ℕ) (r : ℤ), k ≤ count → ∀ v : ℕ, (v : ℚ) * 10 ^ (-r) =
        ((v * 10 ^ (count - k) : ℕ) : ℚ) * 10 ^ ((k : ℤ) - r - count) := by
      intro k r hk v
      have hpow : ((10 ^ (count - k) : ℕ) : ℚ) = 10 ^ ((count : ℤ) - k) := by
        rw [Nat.cast_pow, ← Nat.cast_sub hk, zpow_natCast]
        rfl
      rw [Nat.cast_mul, hpow, mul_assoc, ← zpow_add₀ (by norm_num)]
      congr 2
      ring
    rw [hscale _ s (le_max_left _ _) m, hscale _ t (le_max_right _ _) n, heq]
    have hpos : (0 : ℚ) < 10 ^ (((decimalDigits n).length : ℤ) - t - count) :=
      zpow_pos (by norm_num) _
    change (compareDigits count (decimalDigits m) (decimalDigits n)).Compares _ _
    revert hdigits
    cases compareDigits count (decimalDigits m) (decimalDigits n) with
    | lt =>
      intro hdigits
      exact mul_lt_mul_of_pos_right (Nat.cast_lt.2 hdigits) hpos
    | eq =>
      intro hdigits
      exact congrArg (fun v : ℕ => (v : ℚ) * _) hdigits
    | gt =>
      intro hdigits
      exact mul_lt_mul_of_pos_right (Nat.cast_lt.2 hdigits) hpos
  · rw [compare_gt_iff_gt.2 hgt]
    exact hhighn.trans_le ((hmono (by omega)).trans hlowm)

namespace Decimal

theorem value_pos {d : Decimal} (h : 0 < d.coefficient) : 0 < d.value :=
  mul_pos (Int.cast_pos.2 h) (zpow_pos (by norm_num) _)

theorem value_neg {d : Decimal} (h : d.coefficient < 0) : d.value < 0 :=
  mul_neg_of_neg_of_pos (Int.cast_lt_zero.2 h) (zpow_pos (by norm_num) _)

theorem value_zero {d : Decimal} (h : d.coefficient = 0) : d.value = 0 := by
  rw [value, h, Int.cast_zero, zero_mul]

/-- A number and zero. -/
theorem compare_compares_zero (d d' : Decimal)
    (h : d.coefficient = 0 ∨ d'.coefficient = 0) :
    (compare d.coefficient d'.coefficient).Compares d.value d'.value := by
  rcases lt_trichotomy d.coefficient d'.coefficient with hlt | heq | hgt
  · rw [compare_lt_iff_lt.2 hlt]
    rcases h with h | h
    · exact (value_zero h).trans_lt (value_pos (h ▸ hlt))
    · exact (value_neg (h ▸ hlt)).trans_eq (value_zero h).symm
  · rw [compare_eq_iff_eq.2 heq]
    have hzero : d.coefficient = 0 := h.elim id fun h => heq.trans h
    exact (value_zero hzero).trans (value_zero (heq ▸ hzero)).symm
  · rw [compare_gt_iff_gt.2 hgt]
    rcases h with h | h
    · exact (value_neg (h ▸ hgt)).trans_eq (value_zero h).symm
    · exact (value_zero h).trans_lt (value_pos (h ▸ hgt))

/-- What is farther from zero is less. -/
theorem compares_neg {order : Ordering} {a b : ℚ} (h : order.Compares a b) :
    order.swap.Compares (-a) (-b) := by
  cases order with
  | lt => exact neg_lt_neg (show a < b from h)
  | eq => exact congrArg Neg.neg h
  | gt => exact neg_lt_neg (show b < a from h)

/-- The number without its sign. -/
theorem value_natAbs (d : Decimal) :
    d.value = if d.coefficient < 0 then -((d.coefficient.natAbs : ℚ) * 10 ^ (-d.scale))
      else d.coefficient.natAbs * 10 ^ (-d.scale) := by
  split
  case isTrue h =>
    have hcast : ((d.coefficient.natAbs : ℤ) : ℚ) = -d.coefficient := by
      rw [Int.ofNat_natAbs_of_nonpos h.le, Int.cast_neg]
    rw [← Int.cast_natCast, hcast, value]
    ring
  case isFalse h =>
    rw [← Int.cast_natCast, Int.natAbs_of_nonneg (not_lt.1 h), value]

/-- **Decimals are compared as their numbers.** -/
theorem cmp_compares (d d' : Decimal) : (d.cmp d').Compares d.value d'.value := by
  rw [cmp]
  split
  case isTrue hzero => exact compare_compares_zero d d' hzero
  case isFalse hnonzero =>
    obtain ⟨hd, hd'⟩ := not_or.1 hnonzero
    split
    case isTrue hsigns =>
      split
      case isTrue hneg =>
        have hpos : ¬ d'.coefficient < 0 := fun h => hsigns (by simp [hneg, h])
        exact (value_neg hneg).trans (value_pos (by omega))
      case isFalse hpos =>
        have hneg : d'.coefficient < 0 := by
          by_contra h
          exact hsigns (by simp [hpos, h])
        exact (value_neg hneg).trans (value_pos (by omega))
    case isFalse hsigns =>
      have hsame : d.coefficient < 0 ↔ d'.coefficient < 0 := by
        simpa only [ne_eq, decide_eq_decide, not_not] using hsigns
      have habs := magnitudes_compares (Int.natAbs_pos.2 hd) (Int.natAbs_pos.2 hd') d.scale d'.scale
      rw [value_natAbs d, value_natAbs d']
      split
      case isTrue hneg =>
        rw [if_pos (hsame.1 hneg)]
        exact compares_neg habs
      case isFalse hpos =>
        rw [if_neg fun h => hpos (hsame.2 h)]
        exact habs

theorem value_injective : Function.Injective value := fun d d' h =>
  eq_of_cmp ((cmp_compares d d').eq_eq.2 h)

end Decimal

/-! ### Reading -/

/-- What a mantissa writes, with its sign. -/
def signedDigits (negative : Bool) (digits : List Char) : ℤ :=
  if negative then -digitsValue digits else digitsValue digits

/-- **The number that a text denotes**: a sign, digits around a point, and an exponent. -/
def Denotes (input : String) (q : ℚ) : Prop :=
  ∃ sign integer point fraction marker : List Char, ∃ exponent : ℤ,
    trim input.toList = sign ++ integer ++ point ++ fraction ++ marker ∧
      (sign = [] ∨ sign = ['+'] ∨ sign = ['-']) ∧
      (point = [] ∧ fraction = [] ∨ point = ['.']) ∧
      integer ++ fraction ≠ [] ∧ (∀ c ∈ integer ++ fraction, c.isDigit = true) ∧
      (marker = [] ∧ exponent = 0 ∨ ∃ e rest, (e = 'e' ∨ e = 'E') ∧ marker = e :: rest ∧
        parseI64 rest = some exponent) ∧
      q = signedDigits (sign = ['-']) (integer ++ fraction) * 10 ^ (exponent - fraction.length)

theorem stripZeros_mul (n : ℕ) : (stripZeros n).1 * 10 ^ (stripZeros n).2 = n := by
  induction n using Nat.strong_induction_on with
  | _ n ih =>
    rw [stripZeros]
    split
    case isTrue h =>
      have hlt : n / 10 < n := Nat.div_lt_self (Nat.pos_of_ne_zero h.1) (by decide)
      simp only
      rw [pow_succ, ← mul_assoc, ih (n / 10) hlt]
      omega
    case isFalse h => simp

/-- A number without zeros at its end is as it was before they were written. -/
theorem stripZeros_mul_pow {n : ℕ} (h : n % 10 ≠ 0) (zeros : ℕ) :
    stripZeros (n * 10 ^ zeros) = (n, zeros) := by
  induction zeros with
  | zero =>
    rw [pow_zero, mul_one, stripZeros, dif_neg fun hz => h hz.2]
  | succ zeros ih =>
    have hn : n ≠ 0 := by
      rintro rfl
      exact h rfl
    have hmul : n * 10 ^ (zeros + 1) = n * 10 ^ zeros * 10 := by ring
    have hpos : n * 10 ^ (zeros + 1) ≠ 0 := by positivity
    rw [stripZeros, dif_pos ⟨hpos, by omega⟩, hmul, Nat.mul_div_cancel _ (by decide), ih]

/-- Whether an exponent begins. -/
def isExponent (c : Char) : Bool := c == 'e' || c == 'E'

/-- What is behind the mantissa. -/
def readExponent : List Char → Option ℤ
  | [] => some 0
  | _ :: exponent => if exponent.any isExponent then none else parseI64 exponent

/-- The mantissa without its sign. -/
def unsigned (mantissa : List Char) : List Char :=
  if mantissa.head? = some '-' ∨ mantissa.head? = some '+' then mantissa.tail else mantissa

theorem zero_normal : (0 : ℤ) = 0 ∧ (0 : ℤ) = 0 ∨ (0 : ℤ).natAbs % 10 ≠ 0 := .inl ⟨rfl, rfl⟩

/-- The decimal of a sign, the digits around the point and an exponent. -/
def assemble (negative : Prop) [Decidable negative] (parts : List Char × List Char)
    (exponent : ℤ) : Option Decimal := do
  let magnitude := digitsValue (parts.1 ++ parts.2)
  if hz : magnitude = 0 then return ⟨0, 0, zero_normal⟩
  else
    guard (magnitude < 2 ^ 127 ∨ negative ∧ magnitude = 2 ^ 127)
    let scale : ℤ := parts.2.length - exponent
    guard (-maxDecimalScale ≤ scale ∧ scale ≤ maxDecimalScale)
    let stripped := stripZeros magnitude
    let scale := scale - stripped.2
    guard (-maxDecimalScale ≤ scale ∧ scale ≤ maxDecimalScale)
    return ⟨if negative then -stripped.1 else stripped.1, scale, .inr (by
      have := stripZeros_mod hz
      split <;> simpa using this)⟩

/-- What may be put together. -/
structure Assembled (negative : Prop) (parts : List Char × List Char) (exponent : ℤ) : Prop where
  magnitude : digitsValue (parts.1 ++ parts.2) < 2 ^ 127 ∨
    negative ∧ digitsValue (parts.1 ++ parts.2) = 2 ^ 127
  scale : -maxDecimalScale ≤ (parts.2.length : ℤ) - exponent ∧
    (parts.2.length : ℤ) - exponent ≤ maxDecimalScale
  stripped : -maxDecimalScale ≤
      (parts.2.length : ℤ) - exponent - (stripZeros (digitsValue (parts.1 ++ parts.2))).2 ∧
    (parts.2.length : ℤ) - exponent - (stripZeros (digitsValue (parts.1 ++ parts.2))).2 ≤
      maxDecimalScale

theorem assemble_zero {negative : Prop} [Decidable negative] {parts : List Char × List Char}
    {exponent : ℤ} (hz : digitsValue (parts.1 ++ parts.2) = 0) :
    assemble negative parts exponent = some ⟨0, 0, zero_normal⟩ := by
  rw [assemble]
  simp only
  rw [dif_pos hz]
  rfl

theorem guard_eq_some {p : Prop} [Decidable p] {u : Unit} :
    (guard p : Option Unit) = some u ↔ p := by
  by_cases h : p <;> simp [guard, h]

theorem assemble_eq_some {negative : Prop} [Decidable negative] {parts : List Char × List Char}
    {exponent : ℤ} {d : Decimal} (hz : digitsValue (parts.1 ++ parts.2) ≠ 0) :
    assemble negative parts exponent = some d ↔
      Assembled negative parts exponent ∧
        d.coefficient = (if negative then -((stripZeros (digitsValue (parts.1 ++ parts.2))).1 : ℤ)
          else (stripZeros (digitsValue (parts.1 ++ parts.2))).1) ∧
        d.scale =
          parts.2.length - exponent - (stripZeros (digitsValue (parts.1 ++ parts.2))).2 := by
  rw [assemble]
  simp only
  rw [dif_neg hz]
  simp only [Option.bind_eq_bind, Option.bind_eq_some_iff, guard_eq_some, Option.pure_def,
    Option.some.injEq]
  constructor
  · rintro ⟨_, h, _, h', _, h'', rfl⟩
    exact ⟨⟨h, h', h''⟩, rfl, rfl⟩
  · rintro ⟨⟨h, h', h''⟩, hc, hs⟩
    refine ⟨(), h, (), h', (), h'', ?_⟩
    obtain ⟨c, s, hn⟩ := d
    obtain rfl : c = _ := hc
    obtain rfl : s = _ := hs
    rfl

theorem parse_eq (input : String) :
    Decimal.parse input =
      (readExponent ((trim input.toList).dropWhile fun c => !isExponent c)).bind fun exponent =>
        (splitFraction (unsigned ((trim input.toList).takeWhile fun c => !isExponent c))).bind
          fun parts => assemble
            (((trim input.toList).takeWhile fun c => !isExponent c).head? = some '-')
            parts exponent := by
  simp only [Decimal.parse, Option.bind_eq_bind]
  change _ = Option.bind
    (readExponent ((trim input.toList).dropWhile fun c => !(c == 'e' || c == 'E'))) _
  generalize (trim input.toList).dropWhile (fun c => !(c == 'e' || c == 'E')) = rest
  cases rest with
  | nil => rfl
  | cons e rest =>
    by_cases he : (rest.any fun c => c == 'e' || c == 'E') = true
    · have hnone : readExponent (e :: rest) = none := if_pos he
      simp only [hnone, if_pos he]
      rfl
    · have hsome : readExponent (e :: rest) = parseI64 rest := if_neg he
      simp only [hsome, if_neg he]
      rfl


/-- Digits around a point, if there is one. -/
theorem splitFraction_eq_some {number integer fraction : List Char} :
    splitFraction number = some (integer, fraction) ↔
      ∃ point, number = integer ++ point ++ fraction ∧
        (point = [] ∧ fraction = [] ∨ point = ['.']) ∧ integer ++ fraction ≠ [] ∧
          ∀ c ∈ integer ++ fraction, c.isDigit = true := by
  have hcheck : ∀ digits : List Char, (digits.isEmpty || !digits.all Char.isDigit) = true ↔
      ¬ (digits ≠ [] ∧ ∀ c ∈ digits, c.isDigit = true) := by
    intro digits
    rw [Bool.or_eq_true, List.isEmpty_iff, Bool.not_eq_true', Bool.eq_false_iff, Ne,
      List.all_eq_true]
    tauto
  rw [splitFraction]
  simp only [hcheck]
  constructor
  · intro h
    split at h
    case isTrue => cases h
    case isFalse hdigits =>
      obtain ⟨hne, hall⟩ := not_not.1 hdigits
      obtain ⟨rfl, rfl⟩ := Prod.mk.inj (Option.some.inj h)
      have hsplit := List.takeWhile_append_dropWhile (p := fun c : Char => c != '.') (l := number)
      cases hrest : number.dropWhile (· != '.') with
      | nil =>
        rw [hrest] at hsplit hne hall
        refine ⟨[], ?_, .inl ⟨rfl, rfl⟩, hne, hall⟩
        rw [List.tail_nil, List.append_nil]
        exact hsplit.symm
      | cons c rest =>
        have hc : (c != '.') = false := by
          have hhead := List.head?_dropWhile_not (· != '.') number
          rw [hrest] at hhead
          exact hhead
        obtain rfl : c = '.' := by simpa using hc
        rw [hrest] at hsplit hne hall
        exact ⟨['.'], by simpa using hsplit.symm, .inr rfl, hne, hall⟩
  · rintro ⟨point, rfl, hpoint, hne, hall⟩
    have hinteger : ∀ c ∈ integer, (c != '.') = true := by
      intro c hc
      have hdigit := hall c (List.mem_append_left _ hc)
      rw [bne_iff_ne]
      rintro rfl
      exact absurd hdigit (by decide)
    have htake : (integer ++ point ++ fraction).takeWhile (· != '.') = integer := by
      rw [List.append_assoc, List.takeWhile_append_of_pos hinteger]
      rcases hpoint with ⟨rfl, rfl⟩ | rfl <;> simp
    have hdrop : ((integer ++ point ++ fraction).dropWhile (· != '.')).tail = fraction := by
      rw [List.append_assoc, List.dropWhile_append_of_pos hinteger]
      rcases hpoint with ⟨rfl, rfl⟩ | rfl <;> simp
    rw [htake, hdrop, if_neg (not_not.2 ⟨hne, hall⟩)]

/-- What a reading was put together from. -/
theorem exists_of_parse {input : String} {d : Decimal} (h : Decimal.parse input = some d) :
    ∃ exponent parts,
      readExponent ((trim input.toList).dropWhile fun c => !isExponent c) = some exponent ∧
        splitFraction (unsigned ((trim input.toList).takeWhile fun c => !isExponent c)) =
          some parts ∧
        assemble (((trim input.toList).takeWhile fun c => !isExponent c).head? = some '-')
          parts exponent = some d := by
  rw [parse_eq] at h
  obtain ⟨exponent, hexponent, h⟩ := Option.bind_eq_some_iff.1 h
  obtain ⟨parts, hparts, h⟩ := Option.bind_eq_some_iff.1 h
  exact ⟨exponent, parts, hexponent, hparts, h⟩

/-- The number that was put together. -/
theorem value_of_assemble {negative : Prop} [Decidable negative] {parts : List Char × List Char}
    {exponent : ℤ} {d : Decimal} (h : assemble negative parts exponent = some d) :
    d.value = signedDigits negative (parts.1 ++ parts.2) * 10 ^ (exponent - parts.2.length) := by
  by_cases hz : digitsValue (parts.1 ++ parts.2) = 0
  · rw [assemble_zero hz] at h
    obtain rfl := Option.some.inj h
    rw [Decimal.value_zero rfl, signedDigits, hz]
    simp
  · obtain ⟨-, hcoefficient, hscale⟩ := (assemble_eq_some hz).1 h
    have hmul := stripZeros_mul (digitsValue (parts.1 ++ parts.2))
    have hcast : (digitsValue (parts.1 ++ parts.2) : ℚ) =
        (stripZeros (digitsValue (parts.1 ++ parts.2))).1 *
          10 ^ ((stripZeros (digitsValue (parts.1 ++ parts.2))).2 : ℤ) := by
      rw [zpow_natCast]
      exact_mod_cast hmul.symm
    rw [Decimal.value, hcoefficient, hscale, signedDigits]
    have hsum : -((parts.2.length : ℤ) - exponent -
        (stripZeros (digitsValue (parts.1 ++ parts.2))).2) =
        (stripZeros (digitsValue (parts.1 ++ parts.2))).2 + (exponent - parts.2.length) := by
      ring
    rw [hsum, zpow_add₀ (by norm_num), ← mul_assoc]
    congr 1
    by_cases hneg : negative
    · simp only [hneg, if_true, decide_true, Int.cast_neg, Int.cast_natCast, hcast]
      ring
    · simp only [hneg, if_false, decide_false, Bool.false_eq_true, Int.cast_natCast, hcast]

/-- **A text denotes the number that it is read as.** -/
theorem Decimal.denotes_of_parse {input : String} {d : Decimal}
    (h : Decimal.parse input = some d) : Denotes input d.value := by
  obtain ⟨exponent, parts, hexponent, hparts, hassemble⟩ := exists_of_parse h
  obtain ⟨point, hnumber, hpoint, hne, hdigits⟩ := splitFraction_eq_some.1 hparts
  have hvalue := value_of_assemble hassemble
  have htext := List.takeWhile_append_dropWhile (p := fun c => !isExponent c)
    (l := trim input.toList)
  have hhead := List.head?_dropWhile_not (fun c => !isExponent c) (trim input.toList)
  generalize (trim input.toList).takeWhile (fun c => !isExponent c) = mantissa at *
  generalize (trim input.toList).dropWhile (fun c => !isExponent c) = marker at *
  -- the exponent
  have hmarker : marker = [] ∧ exponent = 0 ∨ ∃ e rest, (e = 'e' ∨ e = 'E') ∧
      marker = e :: rest ∧ parseI64 rest = some exponent := by
    cases marker with
    | nil => exact .inl ⟨rfl, (Option.some.inj hexponent).symm⟩
    | cons e rest =>
      rw [readExponent] at hexponent
      split at hexponent
      case isTrue => cases hexponent
      case isFalse =>
        have he : isExponent e = true := by simpa using hhead
        rw [isExponent, Bool.or_eq_true, beq_iff_eq, beq_iff_eq] at he
        exact .inr ⟨e, rest, he, rfl, hexponent⟩
  -- the sign
  have hsign : ∃ sign : List Char, mantissa = sign ++ unsigned mantissa ∧
      (sign = [] ∨ sign = ['+'] ∨ sign = ['-']) ∧
      (sign = ['-'] ↔ mantissa.head? = some '-') := by
    cases mantissa with
    | nil => exact ⟨[], rfl, .inl rfl, by simp⟩
    | cons c rest =>
      by_cases hminus : c = '-'
      · subst hminus
        exact ⟨['-'], rfl, .inr (.inr rfl), by simp⟩
      · by_cases hplus : c = '+'
        · subst hplus
          exact ⟨['+'], rfl, .inr (.inl rfl), by simp⟩
        · have hunsigned : unsigned (c :: rest) = c :: rest := by
            rw [unsigned, if_neg]
            simp [hminus, hplus]
          exact ⟨[], by rw [hunsigned]; rfl, .inl rfl, by simp [hminus]⟩
  obtain ⟨sign, hmantissa, hsigns, hminus⟩ := hsign
  refine ⟨sign, parts.1, point, parts.2, marker, exponent, ?_, hsigns, hpoint, hne, hdigits,
    hmarker, ?_⟩
  · rw [← htext]
    conv_lhs => rw [hmantissa, hnumber]
    simp only [List.append_assoc]
  · rw [hvalue, decide_eq_decide.2 hminus.symm]

/-! ### Bounds -/

/-- What a decimal that was read holds: the coefficient fits an `i128`, and the scale is bounded. -/
structure Decimal.Bounded (d : Decimal) : Prop where
  coefficient : -2 ^ 127 ≤ d.coefficient ∧ d.coefficient < 2 ^ 127
  scale : -maxDecimalScale ≤ d.scale ∧ d.scale ≤ maxDecimalScale

theorem Decimal.bounded_of_parse {input : String} {d : Decimal}
    (h : Decimal.parse input = some d) : d.Bounded := by
  obtain ⟨exponent, parts, -, -, hassemble⟩ := exists_of_parse h
  by_cases hz : digitsValue (parts.1 ++ parts.2) = 0
  · rw [assemble_zero hz] at hassemble
    obtain rfl := Option.some.inj hassemble
    exact ⟨by decide, by decide⟩
  · obtain ⟨hassembled, hcoefficient, hscale⟩ := (assemble_eq_some hz).1 hassemble
    have hle : (stripZeros (digitsValue (parts.1 ++ parts.2))).1 ≤
        digitsValue (parts.1 ++ parts.2) := by
      conv_rhs => rw [← stripZeros_mul (digitsValue (parts.1 ++ parts.2))]
      exact Nat.le_mul_of_pos_right _ (by positivity)
    have hmagnitude := hassembled.magnitude
    refine ⟨?_, by rw [hscale]; exact hassembled.stripped⟩
    rw [hcoefficient]
    split
    case isTrue => omega
    case isFalse hpos =>
      have hlt := hmagnitude.resolve_right fun h => hpos h.1
      omega

/-! ### Canonical texts -/

theorem digitsValue_eq (digits : List Char) : digitsValue digits = Nat.ofDigitChars 10 digits 0 :=
  rfl

theorem digitsValue_zeros_append (count : ℕ) (digits : List Char) :
    digitsValue (List.replicate count '0' ++ digits) = digitsValue digits := by
  rw [digitsValue_eq, Nat.ofDigitChars_append, Nat.ofDigitChars_replicate_zero, mul_zero,
    digitsValue_eq]

theorem digitsValue_append_zeros (digits : List Char) (count : ℕ) :
    digitsValue (digits ++ List.replicate count '0') = digitsValue digits * 10 ^ count := by
  rw [digitsValue_eq, Nat.ofDigitChars_append, Nat.ofDigitChars_replicate_zero, mul_comm,
    digitsValue_eq]

theorem digitsValue_toString (n : ℕ) : digitsValue (toString n).toList = n := by
  rw [digitsValue_eq, Nat.toString_eq_repr, Nat.toList_repr, Nat.ofDigitChars_ten_toDigits]

/-- The sign of a canonical text. -/
def Decimal.sign (d : Decimal) : List Char := if d.coefficient < 0 then ['-'] else []

/-- The digits of a canonical text around its point. -/
structure Decimal.Text (d : Decimal) (integer point fraction : List Char) : Prop where
  text : d.canonicalString.toList = d.sign ++ (integer ++ point ++ fraction)
  pointed : point = [] ∧ fraction = [] ∨ point = ['.']
  nonempty : integer ≠ []
  digits : ∀ c ∈ integer ++ fraction, c.isDigit = true
  places : fraction.length = d.scale.toNat
  value : digitsValue (integer ++ fraction) = d.coefficient.natAbs * 10 ^ (-d.scale).toNat

theorem Decimal.exists_text (d : Decimal) : ∃ integer point fraction,
    d.Text integer point fraction := by
  have hdigits : ∀ c ∈ (toString d.coefficient.natAbs).toList, c.isDigit = true :=
    fun c hc => isDigit_of_mem_toString hc
  have hzeros : ∀ count, ∀ c ∈ List.replicate count '0', c.isDigit = true := by
    intro count c hc
    rw [List.eq_of_mem_replicate hc]
    rfl
  have hne : (toString d.coefficient.natAbs).toList ≠ [] := by
    rw [Nat.toString_eq_repr, Nat.toList_repr]
    exact Nat.toDigits_ne_nil
  have hnumber := digitsValue_toString d.coefficient.natAbs
  by_cases hzero : d.coefficient = 0
  · have hscale : d.scale = 0 := d.normal.elim (·.2) (by simp [hzero])
    refine ⟨['0'], [], [], ?_, .inl ⟨rfl, rfl⟩, by simp, ?_, ?_, ?_⟩
    · rw [Decimal.canonicalString, if_pos hzero, Decimal.sign, if_neg (by omega)]
      rfl
    · intro c hc
      rw [List.mem_singleton.1 hc]
      rfl
    · rw [hscale]
      rfl
    · rw [hzero, Int.natAbs_zero, zero_mul]
      rfl
  · generalize hgeneral : (toString d.coefficient.natAbs).toList = digits at *
    have hsign : ∀ output : List Char,
        (String.ofList (if d.coefficient < 0 then '-' :: output else output)).toList =
          d.sign ++ output := by
      intro output
      rw [String.toList_ofList, Decimal.sign]
      split <;> rfl
    have hcanonical : d.canonicalString.toList = d.sign ++
        if d.scale ≤ 0 then digits ++ List.replicate d.scale.natAbs '0'
        else if digits.length ≤ d.scale.natAbs then
          "0.".toList ++ List.replicate (d.scale.natAbs - digits.length) '0' ++ digits
        else digits.take (digits.length - d.scale.natAbs) ++
          '.' :: digits.drop (digits.length - d.scale.natAbs) := by
      rw [Decimal.canonicalString, if_neg hzero]
      simp only [hgeneral]
      exact hsign _
    by_cases hwhole : d.scale ≤ 0
    · rw [if_pos hwhole] at hcanonical
      refine ⟨digits ++ List.replicate d.scale.natAbs '0', [], [], ?_, .inl ⟨rfl, rfl⟩, ?_, ?_,
        ?_, ?_⟩
      · rw [hcanonical, List.append_nil, List.append_nil]
      · simp [hne]
      · rw [List.append_nil]
        exact fun c hc => (List.mem_append.1 hc).elim (hdigits c) (hzeros _ c)
      · rw [Int.toNat_of_nonpos hwhole]
        rfl
      · rw [List.append_nil, digitsValue_append_zeros, hnumber]
        congr 2
        omega
    · rw [if_neg hwhole] at hcanonical
      have hnone : (-d.scale).toNat = 0 := by omega
      have hsame : d.coefficient.natAbs * 10 ^ (-d.scale).toNat = d.coefficient.natAbs := by
        rw [hnone, pow_zero, mul_one]
      by_cases hsmall : digits.length ≤ d.scale.natAbs
      · rw [if_pos hsmall] at hcanonical
        refine ⟨['0'], ['.'], List.replicate (d.scale.natAbs - digits.length) '0' ++ digits, ?_,
          .inr rfl, by simp, ?_, ?_, ?_⟩
        · rw [hcanonical]
          simp
        · intro c hc
          rcases List.mem_append.1 hc with hc | hc
          · obtain rfl := List.mem_singleton.1 hc
            rfl
          · exact (List.mem_append.1 hc).elim (hzeros _ c) (hdigits c)
        · rw [List.length_append, List.length_replicate]
          omega
        · have hzero : (['0'] : List Char) = List.replicate 1 '0' := rfl
          rw [hzero, digitsValue_zeros_append, digitsValue_zeros_append, hnumber, hsame]
      · rw [if_neg hsmall] at hcanonical
        refine ⟨digits.take (digits.length - d.scale.natAbs), ['.'],
          digits.drop (digits.length - d.scale.natAbs), ?_, .inr rfl, ?_, ?_, ?_, ?_⟩
        · rw [hcanonical]
          simp
        · rw [Ne, List.take_eq_nil_iff]
          rintro (h | h)
          · omega
          · exact hne h
        · rw [List.take_append_drop]
          exact hdigits
        · rw [List.length_drop]
          omega
        · rw [List.take_append_drop, hnumber, hsame]

namespace Decimal

variable {d : Decimal} {integer point fraction : List Char}

/-- The number that a canonical text writes. -/
theorem Text.value_eq (h : d.Text integer point fraction) :
    d.value = signedDigits (d.coefficient < 0) (integer ++ fraction) *
      10 ^ (-(fraction.length : ℤ)) := by
  have hpow : (10 : ℚ) ^ (-d.scale) =
      ((10 ^ (-d.scale).toNat : ℕ) : ℚ) * 10 ^ (-(d.scale.toNat : ℤ)) := by
    rw [Nat.cast_pow, ← zpow_natCast, Nat.cast_ofNat, ← zpow_add₀ (by norm_num)]
    congr 1
    omega
  rw [value_natAbs, hpow, ← h.places, signedDigits, h.value]
  generalize d.coefficient.natAbs = n
  by_cases hneg : d.coefficient < 0
  · simp only [hneg, if_true, decide_true]
    push_cast
    ring
  · simp only [hneg, if_false, decide_false, Bool.false_eq_true]
    push_cast
    ring

theorem Text.mem_text (h : d.Text integer point fraction) {c : Char}
    (hc : c ∈ d.canonicalString.toList) : c.isDigit = true ∨ c = '.' ∨ c = '-' := by
  rw [h.text] at hc
  rcases List.mem_append.1 hc with hc | hc
  · rw [sign] at hc
    split at hc
    · exact .inr (.inr (List.mem_singleton.1 hc))
    · cases hc
  · rcases List.mem_append.1 hc with hc | hc
    · rcases List.mem_append.1 hc with hc | hc
      · exact .inl (h.digits c (List.mem_append_left _ hc))
      · rcases h.pointed with ⟨rfl, -⟩ | rfl
        · cases hc
        · exact .inr (.inl (List.mem_singleton.1 hc))
    · exact .inl (h.digits c (List.mem_append_right _ hc))

theorem isWhitespace_of_isDigit {c : Char} (h : c.isDigit = true) : isWhitespace c = false := by
  rw [Char.isDigit, Bool.and_eq_true, decide_eq_true_eq, decide_eq_true_eq] at h
  have hlow : 48 ≤ c.toNat := UInt32.le_iff_toNat_le.1 h.1
  have hhigh : c.toNat ≤ 57 := UInt32.le_iff_toNat_le.1 h.2
  unfold isWhitespace
  generalize c.toNat = n at *
  interval_cases n <;> rfl

theorem isExponent_of_isDigit {c : Char} (h : c.isDigit = true) : isExponent c = false := by
  rw [isExponent, Bool.or_eq_false_iff, beq_eq_false_iff_ne, beq_eq_false_iff_ne]
  constructor <;> (rintro rfl; exact absurd h (by decide))

/-- The characters of a canonical text are neither blanks nor the mark of an exponent. -/
theorem Text.plain (h : d.Text integer point fraction) {c : Char}
    (hc : c ∈ d.canonicalString.toList) : isWhitespace c = false ∧ isExponent c = false := by
  rcases h.mem_text hc with hdigit | rfl | rfl
  · exact ⟨isWhitespace_of_isDigit hdigit, isExponent_of_isDigit hdigit⟩
  · decide
  · decide

/-- A canonical text starts with a digit, or with a minus sign when the number is negative. -/
theorem Text.head (h : d.Text integer point fraction) :
    (d.canonicalString.toList.head? = some '-' ↔ d.coefficient < 0) ∧
      unsigned d.canonicalString.toList = integer ++ point ++ fraction := by
  have hfirst : ∃ c rest, integer ++ point ++ fraction = c :: rest ∧ c.isDigit = true := by
    cases integer with
    | nil => exact absurd rfl h.nonempty
    | cons c rest => exact ⟨c, rest ++ point ++ fraction, rfl, h.digits c List.mem_cons_self⟩
  obtain ⟨c, rest, hrest, hc⟩ := hfirst
  rw [h.text, hrest, sign]
  by_cases hneg : d.coefficient < 0
  · rw [if_pos hneg]
    exact ⟨by simp [hneg], by rw [unsigned, if_pos (.inl rfl)]; rfl⟩
  · rw [if_neg hneg]
    have hminus : c ≠ '-' := by
      rintro rfl
      exact absurd hc (by decide)
    have hplus : c ≠ '+' := by
      rintro rfl
      exact absurd hc (by decide)
    exact ⟨by simp [hneg, hminus], by rw [unsigned, if_neg (by simp [hminus, hplus])]; rfl⟩

theorem Text.split (h : d.Text integer point fraction) :
    splitFraction (unsigned d.canonicalString.toList) = some (integer, fraction) :=
  splitFraction_eq_some.2 ⟨point, h.head.2, h.pointed,
    fun hnil => h.nonempty (List.append_eq_nil_iff.1 hnil).1, h.digits⟩

/-- **A number has one canonical text.** -/
theorem canonicalString_inj {d d' : Decimal} (h : d.canonicalString = d'.canonicalString) :
    d = d' := by
  obtain ⟨integer, point, fraction, htext⟩ := d.exists_text
  obtain ⟨integer', point', fraction', htext'⟩ := d'.exists_text
  have hsplit := htext.split
  rw [h, htext'.split] at hsplit
  obtain ⟨rfl, rfl⟩ := Prod.mk.inj (Option.some.inj hsplit)
  have hsign : d.coefficient < 0 ↔ d'.coefficient < 0 := by
    rw [← htext.head.1, ← htext'.head.1, h]
  refine value_injective ?_
  rw [htext.value_eq, htext'.value_eq, decide_eq_decide.2 hsign]

/-- The digits of the canonical text fit where digits are read. -/
def CanonicalFits (d : Decimal) : Prop :=
  d.coefficient.natAbs * 10 ^ (-d.scale).toNat < 2 ^ 127 ∨
    d.coefficient < 0 ∧ d.coefficient.natAbs * 10 ^ (-d.scale).toNat = 2 ^ 127

instance (d : Decimal) : Decidable d.CanonicalFits := inferInstanceAs (Decidable (_ ∨ _))

/-- **A canonical text is read as the number it was written for**, if its digits fit. -/
theorem parse_canonicalString (hbounded : d.Bounded) :
    parse d.canonicalString = if d.CanonicalFits then some d else none := by
  obtain ⟨integer, point, fraction, htext⟩ := d.exists_text
  have htrim : trim d.canonicalString.toList = d.canonicalString.toList :=
    trim_of_plain fun c hc => (htext.plain hc).1
  have htake : d.canonicalString.toList.takeWhile (fun c => !isExponent c) =
      d.canonicalString.toList :=
    List.takeWhile_eq_self_iff.2 fun c hc => by rw [(htext.plain hc).2]; rfl
  have hdrop : d.canonicalString.toList.dropWhile (fun c => !isExponent c) = [] :=
    List.dropWhile_eq_nil_iff.2 fun c hc => by rw [(htext.plain hc).2]; rfl
  rw [parse_eq, htrim, htake, hdrop, htext.split]
  change assemble _ (integer, fraction) 0 = _
  have hscale := hbounded.scale
  by_cases hzero : d.coefficient = 0
  · have hdigits : digitsValue (integer ++ fraction) = 0 := by
      rw [htext.value, hzero, Int.natAbs_zero, zero_mul]
    have hd : d = ⟨0, 0, zero_normal⟩ := value_injective (by
      rw [value_zero hzero, value_zero rfl])
    rw [assemble_zero hdigits, ← hd, if_pos]
    left
    rw [hzero, Int.natAbs_zero, zero_mul]
    decide
  · have hmod : d.coefficient.natAbs % 10 ≠ 0 := d.normal.resolve_left fun h => hzero h.1
    have hstrip : stripZeros (digitsValue (integer ++ fraction)) =
        (d.coefficient.natAbs, (-d.scale).toNat) := by
      rw [htext.value, stripZeros_mul_pow hmod]
    have hdigits : digitsValue (integer ++ fraction) ≠ 0 := by
      rw [htext.value]
      have hpos := Int.natAbs_pos.2 hzero
      positivity
    have hplaces := htext.places
    have hsum : (fraction.length : ℤ) - 0 - (-d.scale).toNat = d.scale := by omega
    split
    case isTrue hfits =>
      refine (assemble_eq_some hdigits).2 ⟨⟨?_, ?_, ?_⟩, ?_, ?_⟩
      · rw [htext.value, htext.head.1]
        exact hfits
      · simp only
        omega
      · rw [hstrip, hsum]
        exact hscale
      · rw [hstrip]
        simp only [htext.head.1]
        split <;> omega
      · rw [hstrip, hsum]
    case isFalse hfits =>
      rw [Option.eq_none_iff_forall_not_mem]
      intro other hother
      have hmagnitude := ((assemble_eq_some hdigits).1 hother).1.magnitude
      rw [htext.value, htext.head.1] at hmagnitude
      exact hfits hmagnitude

end Decimal

/-! ### Seconds -/

/-- A product or a power of `i128`, where it fits. -/
def checked128 (x : ℤ) : Option ℤ := if -2 ^ 127 ≤ x ∧ x < 2 ^ 127 then some x else none

/-- The nanoseconds of a number of seconds. -/
def Decimal.nanoseconds (decimal : Decimal) : Option ℤ :=
  let shift := 9 - decimal.scale
  if 0 ≤ shift then
    (checked128 (10 ^ shift.toNat)).bind fun multiplier =>
      checked128 (decimal.coefficient * multiplier)
  else
    (checked128 (10 ^ shift.natAbs)).bind fun divisor =>
      if decimal.coefficient.tmod divisor ≠ 0 then none
      else some (decimal.coefficient.tdiv divisor)

/-- `decimal_seconds_to_ns`. -/
def decimalSecondsToNs (input : String) : Option ℤ := do
  let decimal ← Decimal.parse input
  let nanoseconds ← decimal.nanoseconds
  if -2 ^ 63 ≤ nanoseconds ∧ nanoseconds < 2 ^ 63 then some nanoseconds else none

theorem checked128_eq_some {x y : ℤ} :
    checked128 x = some y ↔ (-2 ^ 127 ≤ x ∧ x < 2 ^ 127) ∧ x = y := by
  rw [checked128]
  split
  case isTrue h => exact ⟨fun heq => ⟨h, Option.some.inj heq⟩, fun heq => congrArg some heq.2⟩
  case isFalse h => exact ⟨fun heq => (by cases heq), fun heq => absurd heq.1 h⟩

/-- What is not a whole number of tens is not one of any greater power. -/
theorem not_dvd_pow {c : ℤ} (h : c.natAbs % 10 ≠ 0) {k : ℕ} (hk : 0 < k) : ¬ (10 ^ k : ℤ) ∣ c := by
  intro hdvd
  have hten : (10 : ℤ) ∣ c := (dvd_pow_self 10 hk.ne').trans hdvd
  omega

/-- **Seconds in nanoseconds**, when those are a whole number that fits. -/
theorem decimalSecondsToNs_eq_some {input : String} {d : Decimal}
    (hparse : Decimal.parse input = some d) (n : ℤ) :
    decimalSecondsToNs input = some n ↔ d.value * 10 ^ 9 = n ∧ -2 ^ 63 ≤ n ∧ n < 2 ^ 63 := by
  have hfinish : ∀ result : Option ℤ,
      (result.bind fun nanoseconds =>
        if -2 ^ 63 ≤ nanoseconds ∧ nanoseconds < 2 ^ 63 then some nanoseconds else none) =
        some n ↔ result = some n ∧ -2 ^ 63 ≤ n ∧ n < 2 ^ 63 := by
    intro result
    cases result with
    | none => simp
    | some x =>
      rw [Option.bind_some]
      constructor
      · intro h
        split at h
        case isTrue hx =>
          obtain rfl := Option.some.inj h
          exact ⟨rfl, hx⟩
        case isFalse => cases h
      · rintro ⟨h, hn⟩
        obtain rfl := Option.some.inj h
        rw [if_pos hn]
  rw [decimalSecondsToNs, hparse]
  change (d.nanoseconds.bind _) = some n ↔ _
  rw [hfinish, Decimal.nanoseconds]
  refine and_congr_left fun hn => ?_
  by_cases hshift : 0 ≤ 9 - d.scale
  · rw [if_pos hshift]
    have hpow : d.value * 10 ^ 9 = ((d.coefficient * 10 ^ (9 - d.scale).toNat : ℤ) : ℚ) := by
      have hnat : (10 : ℚ) ^ (9 - d.scale).toNat = 10 ^ (9 - d.scale) := by
        rw [← zpow_natCast, Int.toNat_of_nonneg hshift]
      rw [Int.cast_mul, Int.cast_pow, Int.cast_ofNat, hnat, Decimal.value, mul_assoc,
        sub_eq_add_neg, add_comm, zpow_add₀ (by norm_num)]
      rfl
    rw [hpow, Int.cast_inj, Option.bind_eq_some_iff]
    generalize hk : (9 - d.scale).toNat = k
    simp only [checked128_eq_some]
    constructor
    · rintro ⟨_, ⟨-, rfl⟩, -, hproduct⟩
      exact hproduct
    · intro hproduct
      have hnonneg : (0 : ℤ) ≤ 10 ^ k := by positivity
      refine ⟨_, ⟨⟨by omega, ?_⟩, rfl⟩, ⟨by omega, by omega⟩, hproduct⟩
      -- a power that does not fit leaves no product that does
      by_contra hlarge
      have hzero : d.coefficient ≠ 0 := by
        intro hzero
        have hscale : d.scale = 0 := d.normal.elim (·.2) (by simp [hzero])
        rw [hscale] at hk
        obtain rfl : k = 9 := by omega
        norm_num at hlarge
      have habs : (1 : ℤ) ≤ |d.coefficient| := Int.one_le_abs hzero
      have hle : (2 : ℤ) ^ 127 ≤ |n| := by
        rw [← hproduct, abs_mul, abs_of_nonneg hnonneg]
        calc (2 : ℤ) ^ 127 ≤ 10 ^ k := not_lt.1 hlarge
          _ = 1 * 10 ^ k := (one_mul _).symm
          _ ≤ |d.coefficient| * 10 ^ k := mul_le_mul_of_nonneg_right habs hnonneg
      have hn' : |n| ≤ 2 ^ 63 := abs_le.2 ⟨hn.1, hn.2.le⟩
      omega
  · rw [if_neg hshift]
    have hzero : d.coefficient ≠ 0 := fun hzero => by
      have hscale : d.scale = 0 := d.normal.elim (·.2) (by simp [hzero])
      omega
    have hmod : d.coefficient.natAbs % 10 ≠ 0 := d.normal.resolve_left fun h => hzero h.1
    have hnot := not_dvd_pow hmod (show 0 < (9 - d.scale).natAbs by omega)
    constructor
    · intro h
      obtain ⟨divisor, hdivisor, h⟩ := Option.bind_eq_some_iff.1 h
      obtain ⟨-, rfl⟩ := checked128_eq_some.1 hdivisor
      rw [if_pos fun hdvd => hnot (Int.dvd_of_tmod_eq_zero hdvd)] at h
      cases h
    · intro hvalue
      -- the number has more places than nanoseconds have
      refine absurd ⟨n, ?_⟩ hnot
      have hsplit : (10 : ℚ) ^ (-d.scale) * 10 ^ (9 : ℕ) * 10 ^ (9 - d.scale).natAbs = 1 := by
        rw [← zpow_natCast, ← zpow_natCast, ← zpow_add₀ (by norm_num), ← zpow_add₀ (by norm_num)]
        rw [show -d.scale + ((9 : ℕ) : ℤ) + ((9 - d.scale).natAbs : ℤ) = 0 by omega, zpow_zero]
      have hcast : (d.coefficient : ℚ) = ((10 ^ (9 - d.scale).natAbs * n : ℤ) : ℚ) := by
        rw [Int.cast_mul, Int.cast_pow, Int.cast_ofNat, ← hvalue, Decimal.value]
        calc (d.coefficient : ℚ) = d.coefficient * 1 := (mul_one _).symm
          _ = _ := by
            rw [← hsplit]
            ring
      exact_mod_cast hcast

/-! ### Pairs of texts -/

/-- The plain operations on a decimal have results that fit. -/
structure Decimal.NoOverflow (d : Decimal) : Prop where
  coefficient : -2 ^ 127 ≤ d.coefficient ∧ d.coefficient < 2 ^ 127
  magnitude : -2 ^ 63 ≤ ((decimalDigits d.coefficient.natAbs).length : ℤ) - d.scale ∧
    ((decimalDigits d.coefficient.natAbs).length : ℤ) - d.scale < 2 ^ 63
  shift : -2 ^ 31 ≤ 9 - d.scale ∧ 9 - d.scale < 2 ^ 31

theorem Decimal.Bounded.noOverflow {d : Decimal} (h : d.Bounded) : d.NoOverflow := by
  have hscale := h.scale
  have hcoefficient := h.coefficient
  rw [maxDecimalScale] at hscale
  refine ⟨hcoefficient, ?_, by omega⟩
  have hlength : (decimalDigits d.coefficient.natAbs).length < 40 := by
    rw [decimalDigits, List.length_reverse]
    by_cases hzero : d.coefficient.natAbs = 0
    · rw [hzero]
      decide
    · have hle := Nat.base_pow_length_digits_le 10 d.coefficient.natAbs (by decide) hzero
      have hlt : 10 * d.coefficient.natAbs < 10 ^ 40 := by omega
      exact (Nat.pow_lt_pow_iff_right (by decide)).1 (hle.trans_lt hlt)
  omega

/-- What holds of two texts that are read as decimals. -/
structure ExactDecimals (left right : String) (d d' : Decimal) : Prop where
  denoted : Denotes left d.value ∧ Denotes right d'.value
  compared : (d.cmp d').Compares d.value d'.value
  equal : d = d' ↔ d.canonicalString = d'.canonicalString
  reread : Decimal.parse d.canonicalString = if d.CanonicalFits then some d else none
  seconds : ∀ n, decimalSecondsToNs left = some n ↔
    d.value * 10 ^ 9 = n ∧ -2 ^ 63 ≤ n ∧ n < 2 ^ 63
  noOverflow : d.NoOverflow ∧ d'.NoOverflow

/-- **Decimal fields are exact.** -/
theorem decimals_exact (left right : String) (d d' : Decimal)
    (hleft : Decimal.parse left = some d) (hright : Decimal.parse right = some d') :
    ExactDecimals left right d d' where
  denoted := ⟨Decimal.denotes_of_parse hleft, Decimal.denotes_of_parse hright⟩
  compared := d.cmp_compares d'
  equal := ⟨congrArg _, Decimal.canonicalString_inj⟩
  reread := Decimal.parse_canonicalString (Decimal.bounded_of_parse hleft)
  seconds := decimalSecondsToNs_eq_some hleft
  noOverflow := ⟨(Decimal.bounded_of_parse hleft).noOverflow,
    (Decimal.bounded_of_parse hright).noOverflow⟩

theorem decimals_exact_two_halves :
    ExactDecimals "1.50" "+15e-1" ⟨15, 1, by decide⟩ ⟨15, 1, by decide⟩ :=
  decimals_exact _ _ _ _ (by decide +kernel) (by decide +kernel)

end Logql

end Obsy
