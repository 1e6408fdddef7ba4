import Mathlib.Algebra.Order.Field.Basic
import Mathlib.Algebra.Order.Field.Rat
import Mathlib.Data.List.Sort
import Mathlib.Order.WithBot
import Mathlib.Tactic.Linarith

/-!
# Brackets of a cumulative count

The quantile of a list of buckets, which is in the order of their bounds: counts are cumulated by a
running maximum, and the answer is interpolated in the first bucket that has the rank.  Bounds are
rational, or `⊤`.

* `quantileAt`: what the fold answers.
* `Answer`: what it answers in terms of the greatest count up to a bound, in which neither the order
  nor the number of the buckets of a bound plays a part.
* `exists_answer`: buckets that are level are answered so.
* `Answer.mono`, `Answer.le_of_peak_lt`, `Answer.le_of_lt_peak`: how an answer grows with its rank.
-/

namespace Obsy

namespace Metrics

/-- A bound of a bucket: `⊤` is that of `+Inf`. -/
abbrev Bound := WithTop ℚ

/-- A bucket and what it has counted. -/
abbrev Counted := Bound × ℚ

/-! ### The fold -/

/-- The monotone fix: cumulative counts cannot decrease. -/
def cumulative (running : ℚ) : List Counted → List Counted
  | [] => []
  | (bound, increase) :: rest =>
    (bound, max running increase) :: cumulative (max running increase) rest

/-- A part of the way from one bound to another, which is finite; so is a bound before it. -/
def interpolate : Bound → Bound → ℚ → Bound
  | some previous, some bound, part => ((previous + (bound - previous) * part : ℚ) : Bound)
  | _, _, _ => ⊤

/-- The answer in a bucket: in that of `+Inf` there is no width to interpolate in. -/
def inBracket (rank : ℚ) (previousBound : Bound) (previousCount : ℚ) (bound : Bound) (count : ℚ) :
    Bound :=
  if bound = ⊤ then previousBound
  else if previousCount < count then
    interpolate previousBound bound ((rank - previousCount) / (count - previousCount))
  else bound

/-- The answer in the first bucket that has the rank. -/
def bracket (rank : ℚ) : Bound → ℚ → List Counted → Option Bound
  | _, _, [] => none
  | previousBound, previousCount, (bound, count) :: rest =>
    if rank ≤ count then some (inBracket rank previousBound previousCount bound count)
    else bracket rank bound count rest

/-- The quantile of buckets in the order of their bounds, if they have counted anything. -/
def quantileAt (q : ℚ) (counts : List Counted) : Option Bound :=
  match (cumulative 0 counts).getLast? with
  | none => none
  | some (_, total) => if total ≤ 0 then none else bracket (q * total) 0 0 (cumulative 0 counts)

/-! ### Peaks -/

/-- The greatest count of a list, from a count on. -/
def high (running : ℚ) (counts : List Counted) : ℚ :=
  counts.foldl (fun highest bucket => max highest bucket.2) running

/-- The greatest count up to a bound. -/
def peak (counts : List Counted) (bound : Bound) : ℚ :=
  high 0 (counts.filter fun bucket => bucket.1 ≤ bound)

/-- The greatest count below a bound. -/
def peakBelow (counts : List Counted) (bound : Bound) : ℚ :=
  high 0 (counts.filter fun bucket => bucket.1 < bound)

variable {counts others : List Counted} {running rank : ℚ} {b p v : Bound}

theorem high_le_iff {limit : ℚ} :
    high running counts ≤ limit ↔ running ≤ limit ∧ ∀ bucket ∈ counts, bucket.2 ≤ limit := by
  induction counts generalizing running with
  | nil => simp [high]
  | cons bucket rest ih =>
    have h := @ih (max running bucket.2)
    rw [high, List.foldl_cons, ← high, h, max_le_iff, List.forall_mem_cons, and_assoc]

theorem le_high : running ≤ high running counts := (high_le_iff.1 le_rfl).1

theorem le_high_of_mem {bucket : Counted} (h : bucket ∈ counts) : bucket.2 ≤ high running counts :=
  (high_le_iff.1 le_rfl).2 bucket h

theorem high_append (counts others : List Counted) :
    high running (counts ++ others) = high (high running counts) others :=
  List.foldl_append

theorem high_congr (h : ∀ bucket, bucket ∈ counts ↔ bucket ∈ others) :
    high running counts = high running others := by
  refine le_antisymm (high_le_iff.2 ⟨le_high, fun bucket hmem => ?_⟩)
    (high_le_iff.2 ⟨le_high, fun bucket hmem => ?_⟩)
  · exact le_high_of_mem ((h bucket).1 hmem)
  · exact le_high_of_mem ((h bucket).2 hmem)

theorem peak_le_iff {limit : ℚ} :
    peak counts b ≤ limit ↔ 0 ≤ limit ∧ ∀ bucket ∈ counts, bucket.1 ≤ b → bucket.2 ≤ limit := by
  rw [peak, high_le_iff]
  simp [List.mem_filter]

theorem peakBelow_le_iff {limit : ℚ} :
    peakBelow counts b ≤ limit ↔
      0 ≤ limit ∧ ∀ bucket ∈ counts, bucket.1 < b → bucket.2 ≤ limit := by
  rw [peakBelow, high_le_iff]
  simp [List.mem_filter]

theorem peak_nonneg : 0 ≤ peak counts b := le_high

theorem peakBelow_nonneg : 0 ≤ peakBelow counts b := le_high

theorem le_peak {bucket : Counted} (h : bucket ∈ counts) (hle : bucket.1 ≤ b) :
    bucket.2 ≤ peak counts b :=
  (peak_le_iff.1 le_rfl).2 bucket h hle

theorem peakBelow_le_peak : peakBelow counts b ≤ peak counts b :=
  peakBelow_le_iff.2 ⟨peak_nonneg, fun _ hmem hlt => le_peak hmem hlt.le⟩

theorem peak_mono {b' : Bound} (h : b ≤ b') : peak counts b ≤ peak counts b' :=
  peak_le_iff.2 ⟨peak_nonneg, fun _ hmem hle => le_peak hmem (hle.trans h)⟩

theorem peak_le_high : peak counts b ≤ high 0 counts :=
  peak_le_iff.2 ⟨le_high, fun _ hmem _ => le_high_of_mem hmem⟩

/-! ### Answers -/

/-- The bound before another, which is 0 before the first. -/
def Previous (counts : List Counted) (b p : Bound) : Prop :=
  (∃ bucket ∈ counts, bucket.1 = p ∧ p < b ∧ ∀ other ∈ counts, other.1 < b → other.1 ≤ p) ∨
    (∀ bucket ∈ counts, b ≤ bucket.1) ∧ p = 0

/-- An answer for a rank: in the bracket of the first bound that has reached it. -/
def Answer (counts : List Counted) (rank : ℚ) (v : Bound) : Prop :=
  ∃ b p, (∃ bucket ∈ counts, bucket.1 = b) ∧ Previous counts b p ∧ rank ≤ peak counts b ∧
    (∀ bucket ∈ counts, bucket.1 < b → peak counts bucket.1 < rank) ∧
      v = inBracket rank p (peakBelow counts b) b (peak counts b)

/-- Every bucket of a bound has its peak, or all are at the one below. -/
def Level (counts : List Counted) (b : Bound) : Prop :=
  ∀ bucket ∈ counts, bucket.1 = b → max (peakBelow counts b) bucket.2 = peak counts b

/-- A bound of 0 that is the first has no width. -/
def Flat (counts : List Counted) (b : Bound) : Prop :=
  b = 0 ∧ ∀ bucket ∈ counts, 0 ≤ bucket.1

def lastBound (previousBound : Bound) (counts : List Counted) : Bound :=
  (counts.getLast?.map Prod.fst).getD previousBound

/-- **The search** stops at the first bucket that has brought the count up to the rank. -/
theorem exists_bracket (rank : ℚ) (previousBound : Bound) (hne : counts ≠ [])
    (hrank : rank ≤ high running counts) :
    ∃ before b x after, counts = before ++ (b, x) :: after ∧
      (before = [] ∨ high running before < rank) ∧ rank ≤ max (high running before) x ∧
      bracket rank previousBound running (cumulative running counts) =
        some (inBracket rank (lastBound previousBound before) (high running before) b
          (max (high running before) x)) := by
  induction counts generalizing running previousBound with
  | nil => exact absurd rfl hne
  | cons bucket rest ih =>
    obtain ⟨b, x⟩ := bucket
    rw [cumulative, bracket]
    by_cases h : rank ≤ max running x
    · rw [if_pos h]
      exact ⟨[], b, x, rest, rfl, .inl rfl, h, rfl⟩
    · rw [if_neg h]
      have hrest : rest ≠ [] := by
        rintro rfl
        exact h hrank
      obtain ⟨before, b', x', after, rfl, hbefore, hreach, hvalue⟩ := ih b hrest hrank
      refine ⟨(b, x) :: before, b', x', after, rfl, .inr ?_, hreach, ?_⟩
      · rcases hbefore with rfl | hbefore
        · exact not_le.1 h
        · exact hbefore
      · rw [hvalue]
        rcases List.eq_nil_or_concat before with rfl | ⟨front, last, rfl⟩
        · rfl
        · rw [List.concat_eq_append, lastBound, lastBound, ← List.cons_append,
            List.getLast?_concat, List.getLast?_concat]
          rfl

theorem inBracket_zero (rank previousCount count : ℚ) :
    inBracket rank 0 previousCount 0 count = 0 := by
  unfold inBracket
  rw [if_neg WithTop.zero_ne_top]
  split
  · change ((0 + (0 - 0) * _ : ℚ) : Bound) = 0
    rw [sub_zero, zero_mul, add_zero]
    rfl
  · rfl

theorem lastBound_of_ne_nil {before : List Counted} (h : before ≠ []) :
    lastBound b before = (before.getLast h).1 := by
  rw [lastBound, List.getLast?_eq_some_getLast h]
  rfl

/-- **The fold answers** a list whose bounds are in order, if each is level or flat. -/
theorem exists_answer (hsorted : counts.Pairwise fun a b => a.1 ≤ b.1)
    (htidy : ∀ bucket ∈ counts, Flat counts bucket.1 ∨ Level counts bucket.1) (hne : counts ≠ [])
    (hrank : rank ≤ high 0 counts) :
    ∃ v, bracket rank 0 0 (cumulative 0 counts) = some v ∧ Answer counts rank v := by
  obtain ⟨before, b, x, after, hcounts, hbefore, hreach, hvalue⟩ := exists_bracket rank 0 hne hrank
  refine ⟨_, hvalue, ?_⟩
  have hmem : (b, x) ∈ counts := by
    rw [hcounts]
    exact List.mem_append_right _ List.mem_cons_self
  rw [hcounts] at hsorted
  obtain ⟨hfront, hback, hcross⟩ := List.pairwise_append.1 hsorted
  have hle : ∀ bucket ∈ before, bucket.1 ≤ b := fun bucket h =>
    hcross bucket h (b, x) List.mem_cons_self
  -- what is below the bound has been passed
  have hpassed : ∀ bucket ∈ counts, bucket.1 < b → bucket ∈ before := by
    intro bucket h hlt
    rw [hcounts] at h
    rcases List.mem_append.1 h with h | h
    · exact h
    · rcases List.mem_cons.1 h with rfl | h
      · exact absurd hlt (lt_irrefl _)
      · exact absurd hlt (not_lt.2 ((List.pairwise_cons.1 hback).1 bucket h))
  have hsub : ∀ bucket ∈ before, bucket ∈ counts := by
    intro bucket h
    rw [hcounts]
    exact List.mem_append_left _ h
  have hpeak : rank ≤ peak counts b := by
    refine hreach.trans (max_le ?_ (le_peak hmem le_rfl))
    exact high_le_iff.2 ⟨peak_nonneg, fun bucket h => le_peak (hsub bucket h) (hle bucket h)⟩
  rcases htidy _ hmem with ⟨hzero, hfirst⟩ | hlevel
  · -- all that has been passed is at 0, and so is the answer
    obtain rfl : b = 0 := hzero
    have hlast : lastBound 0 before = 0 := by
      by_cases hnil : before = []
      · rw [hnil]
        rfl
      · have hgetLast := List.getLast_mem hnil
        rw [lastBound_of_ne_nil hnil]
        exact le_antisymm (hle _ hgetLast) (hfirst _ (hsub _ hgetLast))
    refine ⟨0, 0, ⟨_, hmem, rfl⟩, .inr ⟨hfirst, rfl⟩, hpeak, fun bucket h hlt => ?_, ?_⟩
    · exact absurd hlt (not_lt.2 (hfirst bucket h))
    · rw [hlast, inBracket_zero, inBracket_zero]
  · -- the bucket is the first of its bound: one before it would have the rank
    have hbelow : peakBelow counts b ≤ high 0 before :=
      peakBelow_le_iff.2 ⟨le_high, fun bucket h hlt => le_high_of_mem (hpassed bucket h hlt)⟩
    have hlt : ∀ bucket ∈ before, bucket.1 < b := by
      intro bucket h
      refine lt_of_le_of_ne (hle bucket h) fun heq => ?_
      have hhigh := hbefore.resolve_left (List.ne_nil_of_mem h)
      refine absurd (hpeak.trans_lt' hhigh) (not_lt.2 ?_)
      rw [← hlevel bucket (hsub bucket h) heq]
      exact max_le hbelow (le_high_of_mem h)
    have hcount : high 0 before = peakBelow counts b := by
      refine high_congr fun bucket => ⟨fun h => ?_, fun h => ?_⟩
      · exact List.mem_filter.2 ⟨hsub bucket h, decide_eq_true (hlt bucket h)⟩
      · obtain ⟨h, hltb⟩ := List.mem_filter.1 h
        exact hpassed bucket h (of_decide_eq_true hltb)
    refine ⟨b, lastBound 0 before, ⟨_, hmem, rfl⟩, ?_, hpeak, fun bucket h hltb => ?_, ?_⟩
    · by_cases hnil : before = []
      · refine .inr ⟨fun bucket h => not_lt.1 fun hltb => ?_, by rw [hnil]; rfl⟩
        have hin := hpassed bucket h hltb
        rw [hnil] at hin
        cases hin
      · have hgetLast := List.getLast_mem hnil
        refine .inl ⟨_, hsub _ hgetLast, (lastBound_of_ne_nil hnil).symm, ?_,
          fun other h hltb => ?_⟩
        · rw [lastBound_of_ne_nil hnil]
          exact hlt _ hgetLast
        · rw [lastBound_of_ne_nil hnil]
          have hother := hpassed other h hltb
          rw [← List.dropLast_append_getLast hnil] at hfront hother
          rcases List.mem_append.1 hother with hother | hother
          · exact (List.pairwise_append.1 hfront).2.2 other hother _ List.mem_cons_self
          · rw [List.mem_singleton.1 hother]
    · have hin := hpassed bucket h hltb
      refine lt_of_le_of_lt (peak_le_iff.2 ⟨le_high, fun other hother hle => ?_⟩)
        (hbefore.resolve_left (List.ne_nil_of_mem hin))
      exact le_high_of_mem (hpassed other hother (hle.trans_lt hltb))
    · rw [hcount, hlevel _ hmem rfl]

/-! ### Between bounds -/

section Between

variable {pc c : ℚ}

/-- A bracket of finite bounds. -/
theorem inBracket_coe (rank pc c p b : ℚ) :
    inBracket rank (p : Bound) pc (b : Bound) c =
      ((if pc < c then p + (b - p) * ((rank - pc) / (c - pc)) else b : ℚ) : Bound) := by
  unfold inBracket
  rw [if_neg (WithTop.coe_ne_top)]
  split <;> rfl

theorem inBracket_top : inBracket rank p pc ⊤ c = p := if_pos rfl

theorem part_nonneg (h0 : pc ≤ rank) (hlt : pc < c) : 0 ≤ (rank - pc) / (c - pc) :=
  div_nonneg (sub_nonneg.2 h0) (sub_pos.2 hlt).le

theorem part_le_one (h1 : rank ≤ c) (hlt : pc < c) : (rank - pc) / (c - pc) ≤ 1 :=
  (div_le_one (sub_pos.2 hlt)).2 (by linarith)

theorem le_inBracket (hpb : p ≤ b) (h0 : pc ≤ rank) : p ≤ inBracket rank p pc b c := by
  induction b using WithTop.recTopCoe with
  | top => rw [inBracket_top]
  | coe b =>
    lift p to ℚ using (hpb.trans_lt (WithTop.coe_lt_top b)).ne
    rw [inBracket_coe, WithTop.coe_le_coe]
    have hpb := WithTop.coe_le_coe.1 hpb
    split
    case isTrue hlt =>
      have := mul_nonneg (sub_nonneg.2 hpb) (part_nonneg h0 hlt)
      linarith
    case isFalse => exact hpb

theorem lt_inBracket (hpb : p < b) (hb : b ≠ ⊤) (h0 : pc < rank) :
    p < inBracket rank p pc b c := by
  lift b to ℚ using hb
  lift p to ℚ using hpb.ne_top
  rw [inBracket_coe, WithTop.coe_lt_coe]
  have hpb := WithTop.coe_lt_coe.1 hpb
  split
  case isTrue hlt =>
    have := mul_pos (sub_pos.2 hpb) (div_pos (sub_pos.2 h0) (sub_pos.2 hlt))
    linarith
  case isFalse => exact hpb

theorem inBracket_le (hpb : p ≤ b) (h1 : rank ≤ c) : inBracket rank p pc b c ≤ b := by
  induction b using WithTop.recTopCoe with
  | top => exact le_top
  | coe b =>
    lift p to ℚ using (hpb.trans_lt (WithTop.coe_lt_top b)).ne
    rw [inBracket_coe, WithTop.coe_le_coe]
    have hpb := WithTop.coe_le_coe.1 hpb
    split
    case isTrue hlt =>
      have := mul_le_mul_of_nonneg_left (part_le_one h1 hlt) (sub_nonneg.2 hpb)
      linarith
    case isFalse => exact le_rfl

theorem inBracket_lt (hpb : p < b) (hb : b ≠ ⊤) (h0 : pc ≤ rank) (h1 : rank < c) :
    inBracket rank p pc b c < b := by
  lift b to ℚ using hb
  lift p to ℚ using hpb.ne_top
  have hlt : pc < c := h0.trans_lt h1
  rw [inBracket_coe, WithTop.coe_lt_coe, if_pos hlt]
  have hpb := WithTop.coe_lt_coe.1 hpb
  have hpart : (rank - pc) / (c - pc) < 1 := (div_lt_one (sub_pos.2 hlt)).2 (by linarith)
  have := mul_lt_mul_of_pos_left hpart (sub_pos.2 hpb)
  linarith

theorem inBracket_mono {rank' : ℚ} (hpb : p ≤ b) (h : rank ≤ rank') :
    inBracket rank p pc b c ≤ inBracket rank' p pc b c := by
  induction b using WithTop.recTopCoe with
  | top => rw [inBracket_top, inBracket_top]
  | coe b =>
    lift p to ℚ using (hpb.trans_lt (WithTop.coe_lt_top b)).ne
    rw [inBracket_coe, inBracket_coe, WithTop.coe_le_coe]
    have hpb := WithTop.coe_le_coe.1 hpb
    split
    case isTrue hlt =>
      have hpart : (rank - pc) / (c - pc) ≤ (rank' - pc) / (c - pc) :=
        div_le_div_of_nonneg_right (by linarith) (sub_pos.2 hlt).le
      have := mul_le_mul_of_nonneg_left hpart (sub_nonneg.2 hpb)
      linarith
    case isFalse => exact le_rfl

/-- Counts of another unit. -/
theorem inBracket_scale {k : ℚ} (hk : 0 < k) :
    inBracket (k * rank) p (k * pc) b (k * c) = inBracket rank p pc b c := by
  unfold inBracket
  rw [← mul_sub, ← mul_sub, mul_div_mul_left _ _ hk.ne']
  congr 1
  exact if_congr (mul_lt_mul_iff_right₀ hk) rfl rfl

end Between

/-! ### How answers grow -/

theorem Previous.unique {p' : Bound} (h : Previous counts b p) (h' : Previous counts b p') :
    p = p' := by
  rcases h with ⟨bucket, hmem, hp, hlt, hmax⟩ | ⟨hfirst, hp⟩ <;>
    rcases h' with ⟨bucket', hmem', hp', hlt', hmax'⟩ | ⟨hfirst', hp'⟩
  · refine le_antisymm ?_ ?_
    · rw [← hp]
      exact hmax' bucket hmem (by rwa [hp])
    · rw [← hp']
      exact hmax bucket' hmem' (by rwa [hp'])
  · rw [← hp] at hlt
    exact absurd hlt (not_lt.2 (hfirst' bucket hmem))
  · rw [← hp'] at hlt'
    exact absurd hlt' (not_lt.2 (hfirst bucket' hmem'))
  · rw [hp, hp']

/-- The count below a bound is that at the bound before it. -/
theorem Previous.peakBelow_eq (h : Previous counts b p) :
    (∃ bucket ∈ counts, bucket.1 = p ∧ p < b ∧ peakBelow counts b = peak counts p) ∨
      (∀ bucket ∈ counts, b ≤ bucket.1) ∧ p = 0 ∧ peakBelow counts b = 0 := by
  rcases h with ⟨bucket, hmem, hp, hlt, hmax⟩ | ⟨hfirst, hp⟩
  · refine .inl ⟨bucket, hmem, hp, hlt, le_antisymm ?_ ?_⟩
    · exact peakBelow_le_iff.2
        ⟨peak_nonneg, fun other hother hltb => le_peak hother (hmax other hother hltb)⟩
    · exact peak_le_iff.2 ⟨peakBelow_nonneg, fun other hother hle =>
        (peakBelow_le_iff.1 le_rfl).2 other hother (hle.trans_lt hlt)⟩
  · refine .inr ⟨hfirst, hp, le_antisymm ?_ peakBelow_nonneg⟩
    exact peakBelow_le_iff.2
      ⟨le_rfl, fun other hother hlt => absurd hlt (not_lt.2 (hfirst other hother))⟩

/-- A negative first bound has no count. -/
def Signs (counts : List Counted) : Prop :=
  ∀ bucket ∈ counts, bucket.1 < 0 → (∀ other ∈ counts, bucket.1 ≤ other.1) →
    peak counts bucket.1 = 0

theorem Answer.elim (h : Answer counts rank v) (h0 : 0 ≤ rank) :
    ∃ b p, (∃ bucket ∈ counts, bucket.1 = b) ∧ Previous counts b p ∧ rank ≤ peak counts b ∧
      (∀ bucket ∈ counts, bucket.1 < b → peak counts bucket.1 < rank) ∧
        v = inBracket rank p (peakBelow counts b) b (peak counts b) ∧
          peakBelow counts b ≤ rank ∧ (Signs counts → v ≤ b) ∧
            ∀ bucket ∈ counts, bucket.1 < b → bucket.1 ≤ p ∧ p < b ∧ peakBelow counts b < rank := by
  obtain ⟨b, p, hb, hprev, hreach, hmin, hv⟩ := h
  refine ⟨b, p, hb, hprev, hreach, hmin, hv, ?_⟩
  rcases hprev.peakBelow_eq with ⟨bucket, hmem, hp, hlt, hbelow⟩ | ⟨hfirst, hp, hbelow⟩
  · have hrank : peakBelow counts b < rank := by
      rw [hbelow, ← hp]
      exact hmin bucket hmem (by rwa [hp])
    refine ⟨hrank.le, fun _ => ?_, fun other hother hltb => ⟨?_, hlt, hrank⟩⟩
    · rw [hv]
      exact inBracket_le hlt.le hreach
    · rcases hprev with ⟨_, _, _, _, hmax⟩ | ⟨hfirst, _⟩
      · exact hmax other hother hltb
      · exact absurd hltb (not_lt.2 (hfirst other hother))
  · refine ⟨by rwa [hbelow], fun hsigns => ?_, fun other hother hltb => ?_⟩
    · rw [hv, hp, hbelow]
      rcases le_or_gt 0 b with hpos | hneg
      · exact inBracket_le hpos hreach
      · obtain ⟨bucket, hmem, rfl⟩ := hb
        rw [hsigns bucket hmem hneg hfirst]
        unfold inBracket
        rw [if_neg hneg.ne_top, if_neg (lt_irrefl _)]
    · exact absurd hltb (not_lt.2 (hfirst other hother))

theorem Answer.unique {v' : Bound} (h : Answer counts rank v) (h' : Answer counts rank v') :
    v = v' := by
  obtain ⟨b, p, ⟨bucket, hmem, rfl⟩, hprev, hreach, hmin, hv⟩ := h
  obtain ⟨b', p', ⟨bucket', hmem', rfl⟩, hprev', hreach', hmin', hv'⟩ := h'
  have hb : bucket.1 = bucket'.1 := by
    refine le_antisymm (not_lt.1 fun hlt => ?_) (not_lt.1 fun hlt => ?_)
    · exact absurd hreach' (not_le.2 (hmin bucket' hmem' hlt))
    · exact absurd hreach (not_le.2 (hmin' bucket hmem hlt))
  rw [hv, hv', ← hb]
  rw [← hb] at hprev'
  rw [hprev.unique hprev']

/-- **A greater rank has no smaller answer.** -/
theorem Answer.mono {rank' : ℚ} {v' : Bound} (hsigns : Signs counts) (h0 : 0 ≤ rank)
    (hle : rank ≤ rank') (h : Answer counts rank v) (h' : Answer counts rank' v') : v ≤ v' := by
  obtain ⟨b, p, ⟨bucket, hmem, rfl⟩, hprev, hreach, hmin, hv, hbelow, hvb, _⟩ := h.elim h0
  obtain ⟨b', p', ⟨bucket', hmem', rfl⟩, hprev', hreach', hmin', hv', hbelow', _, hbefore⟩ :=
    h'.elim (h0.trans hle)
  rcases lt_trichotomy bucket.1 bucket'.1 with hlt | heq | hgt
  · obtain ⟨hp', hpb, _⟩ := hbefore bucket hmem hlt
    rw [hv']
    exact ((hvb hsigns).trans hp').trans (le_inBracket hpb.le hbelow')
  · rw [← heq] at hprev' hv'
    rw [← hprev.unique hprev'] at hv'
    rw [hv, hv']
    rcases hprev.peakBelow_eq with ⟨_, _, _, hlt, _⟩ | ⟨hfirst, hp, hzero⟩
    · exact inBracket_mono hlt.le hle
    · rcases le_or_gt 0 bucket.1 with hpos | hneg
      · rw [hp]
        exact inBracket_mono hpos hle
      · -- nothing is interpolated before a negative bound
        rw [hzero, hsigns bucket hmem hneg hfirst]
        unfold inBracket
        rw [if_neg hneg.ne_top, if_neg (lt_irrefl _), if_neg hneg.ne_top, if_neg (lt_irrefl _)]
  · exact absurd (hle.trans hreach') (not_le.2 (hmin bucket' hmem' hgt))

/-- **No answer is above the largest finite bound.** -/
theorem Answer.le_largest (hsigns : Signs counts) (h0 : 0 ≤ rank) (h : Answer counts rank v)
    {largest : Counted} (hmem : largest ∈ counts) (hfinite : largest.1 ≠ ⊤)
    (hmax : ∀ bucket ∈ counts, bucket.1 ≠ ⊤ → bucket.1 ≤ largest.1) : v ≤ largest.1 := by
  obtain ⟨b, p, ⟨bucket, hbucket, rfl⟩, hprev, _, _, hv, _, hvb, _⟩ := h.elim h0
  by_cases htop : bucket.1 = ⊤
  · rw [hv, htop, inBracket_top]
    rw [htop] at hprev
    rcases hprev with ⟨before, hbefore, hp, hlt, _⟩ | ⟨hfirst, _⟩
    · rw [← hp] at hlt ⊢
      exact hmax before hbefore hlt.ne
    · exact absurd (top_le_iff.1 (hfirst largest hmem)) hfinite
  · exact (hvb hsigns).trans (hmax bucket hbucket htop)

/-- A rank that a bound has not reached has an answer from there on. -/
theorem Answer.le_of_peak_lt (h : Answer counts rank v) {bucket : Counted} (hmem : bucket ∈ counts)
    (hlt : peak counts bucket.1 < rank) :
    bucket.1 ≤ v ∧
      ((∃ later ∈ counts, later.1 ≠ ⊤ ∧ bucket.1 < later.1) → bucket.1 < v) := by
  obtain ⟨b, p, hb, hprev, hreach, hmin, hv, hbelow, _, hbefore⟩ :=
    h.elim (peak_nonneg.trans hlt.le)
  have hltb : bucket.1 < b :=
    not_le.1 fun hle => absurd (hreach.trans (peak_mono hle)) (not_le.2 hlt)
  obtain ⟨hp, hpb, hrank⟩ := hbefore bucket hmem hltb
  refine ⟨?_, ?_⟩
  · rw [hv]
    exact hp.trans (le_inBracket hpb.le hbelow)
  · rintro ⟨later, hlater, hfinite, hlt'⟩
    by_cases htop : b = ⊤
    · obtain ⟨hp', _⟩ := hbefore later hlater (by rw [htop]; exact lt_top_iff_ne_top.2 hfinite)
      rw [hv, htop, inBracket_top]
      exact hlt'.trans_le hp'
    · rw [hv]
      exact hp.trans_lt (lt_inBracket hpb htop hrank)

/-- A rank that is below the count at a bound has an answer up to there. -/
theorem Answer.le_of_lt_peak (hsigns : Signs counts) (h : Answer counts rank v) (h0 : 0 ≤ rank)
    {bucket : Counted} (hmem : bucket ∈ counts) (hfinite : bucket.1 ≠ ⊤)
    (hlt : rank < peak counts bucket.1) :
    v ≤ bucket.1 ∧ (¬ Flat counts bucket.1 → v < bucket.1) := by
  obtain ⟨b, p, hb, hprev, hreach, hmin, hv, hbelow, hvb, _⟩ := h.elim h0
  have hle : b ≤ bucket.1 := not_lt.1 fun hgt => absurd hlt (not_lt.2 (hmin bucket hmem hgt).le)
  refine ⟨(hvb hsigns).trans hle, fun hflat => ?_⟩
  rcases hle.lt_or_eq with hltb | rfl
  · exact (hvb hsigns).trans_lt hltb
  · rw [hv]
    refine inBracket_lt ?_ hfinite hbelow hlt
    rcases hprev.peakBelow_eq with ⟨_, _, _, hpb, _⟩ | ⟨hfirst, hp, _⟩
    · exact hpb
    · rw [hp]
      rcases lt_trichotomy 0 bucket.1 with hpos | hzero | hneg
      · exact hpos
      · exact absurd ⟨hzero.symm, fun other hother => hzero.le.trans (hfirst other hother)⟩ hflat
      · rw [hsigns bucket hmem hneg hfirst] at hlt
        exact absurd hlt (not_lt.2 h0)

/-- If answers do not decrease, a negative first bound has no count. -/
theorem signs_of_mono {total : ℚ} (hreach : ∀ bucket ∈ counts, peak counts bucket.1 ≤ total)
    {answers : ℚ → Bound} (hanswers : ∀ rank, 0 ≤ rank → rank ≤ total →
      Answer counts rank (answers rank))
    (hmono : ∀ rank, 0 ≤ rank → rank ≤ total → answers 0 ≤ answers rank) : Signs counts := by
  intro bucket hmem hneg hfirst
  by_contra hne
  have hpos : 0 < peak counts bucket.1 := lt_of_le_of_ne peak_nonneg (Ne.symm hne)
  have hbracket : ∀ rank, 0 ≤ rank → rank ≤ peak counts bucket.1 →
      answers rank = inBracket rank 0 0 bucket.1 (peak counts bucket.1) := by
    intro rank h0 hrank
    obtain ⟨b, p, ⟨other, hother, rfl⟩, hprev, _, hmin, hv⟩ :=
      hanswers rank h0 (hrank.trans (hreach bucket hmem))
    have hb : other.1 = bucket.1 := le_antisymm
      (not_lt.1 fun hlt => absurd hrank (not_le.2 (hmin bucket hmem hlt))) (hfirst other hother)
    rw [hb] at hprev hv
    rcases hprev.peakBelow_eq with ⟨before, hbefore, hp, hlt, _⟩ | ⟨_, hp, hbelow⟩
    · rw [← hp] at hlt
      exact absurd hlt (not_lt.2 (hfirst before hbefore))
    · rw [hv, hp, hbelow]
  have hvalues := hmono _ hpos.le (hreach bucket hmem)
  rw [hbracket 0 le_rfl hpos.le, hbracket _ hpos.le le_rfl] at hvalues
  obtain ⟨b, hb⟩ := WithTop.ne_top_iff_exists.1 hneg.ne_top
  rw [← hb] at hvalues hneg hpos
  rw [← WithTop.coe_zero] at hvalues hneg
  rw [inBracket_coe, inBracket_coe, if_pos hpos, if_pos hpos, WithTop.coe_le_coe, sub_self,
    zero_div, mul_zero, sub_zero, sub_zero, div_self hpos.ne', mul_one] at hvalues
  have hneg := WithTop.coe_lt_coe.1 hneg
  linarith

/-! ### Other counts of the same bounds -/

/-- Counts in proportion have the same answers. -/
theorem Answer.scale {k : ℚ} (hk : 0 < k)
    (hbounds : ∀ b, (∃ bucket ∈ counts, bucket.1 = b) ↔ ∃ bucket ∈ others, bucket.1 = b)
    (hpeak : ∀ bucket ∈ counts, peak others bucket.1 = k * peak counts bucket.1)
    (h : Answer counts rank v) : Answer others (k * rank) v := by
  obtain ⟨b, p, ⟨bucket, hmem, rfl⟩, hprev, hreach, hmin, hv⟩ := h
  have hall : ∀ P : Bound → Prop, (∀ other ∈ counts, P other.1) → ∀ other ∈ others, P other.1 := by
    intro P hP other hother
    obtain ⟨same, hsame, heq⟩ := (hbounds other.1).2 ⟨other, hother, rfl⟩
    rw [← heq]
    exact hP same hsame
  have hprev' : Previous others bucket.1 p := by
    rcases hprev with ⟨before, hbefore, hp, hlt, hmax⟩ | ⟨hfirst, hp⟩
    · obtain ⟨same, hsame, heq⟩ := (hbounds before.1).1 ⟨before, hbefore, rfl⟩
      exact .inl ⟨same, hsame, heq.trans hp, hlt,
        hall (fun bound => bound < bucket.1 → bound ≤ p) hmax⟩
    · exact .inr ⟨hall (fun bound => bucket.1 ≤ bound) hfirst, hp⟩
  have hbelow : peakBelow others bucket.1 = k * peakBelow counts bucket.1 := by
    rcases hprev.peakBelow_eq with ⟨before, hbefore, hp, hlt, heq⟩ | ⟨hfirst, hp, heq⟩ <;>
      rcases hprev'.peakBelow_eq with ⟨before', hbefore', hp', hlt', heq'⟩ | ⟨hfirst', hp', heq'⟩
    · rw [heq, heq', ← hp, hpeak before hbefore]
    · obtain ⟨same, hsame, hsame'⟩ := (hbounds before.1).1 ⟨before, hbefore, rfl⟩
      rw [← hp, ← hsame'] at hlt
      exact absurd hlt (not_lt.2 (hfirst' same hsame))
    · obtain ⟨same, hsame, hsame'⟩ := (hbounds before'.1).2 ⟨before', hbefore', rfl⟩
      rw [← hp', ← hsame'] at hlt'
      exact absurd hlt' (not_lt.2 (hfirst same hsame))
    · rw [heq, heq', mul_zero]
  refine ⟨bucket.1, p, (hbounds _).1 ⟨bucket, hmem, rfl⟩, hprev', ?_,
    hall (fun bound => bound < bucket.1 → peak others bound < k * rank)
      fun other hother hlt => ?_, ?_⟩
  · rw [hpeak bucket hmem]
    exact mul_le_mul_of_nonneg_left hreach hk.le
  · rw [hpeak other hother]
    exact mul_lt_mul_of_pos_left (hmin other hother hlt) hk
  · rw [hv, hbelow, hpeak bucket hmem, inBracket_scale hk]

/-- Buckets that are the same in another order have the same answers. -/
theorem Answer.congr (hsame : ∀ bucket, bucket ∈ counts ↔ bucket ∈ others)
    (h : Answer counts rank v) : Answer others rank v := by
  have hpeak : ∀ b, peak others b = peak counts b := fun b => high_congr fun bucket => by
    rw [List.mem_filter, List.mem_filter, hsame]
  rw [← one_mul rank]
  refine h.scale one_pos (fun b => exists_congr fun bucket => by rw [hsame]) fun bucket _ => ?_
  rw [hpeak, one_mul]

/-- Without a finite bound but 0 every answer is 0. -/
theorem Answer.eq_zero (hzero : ∀ bucket ∈ counts, bucket.1 = 0 ∨ bucket.1 = ⊤)
    (h : Answer counts rank v) : v = 0 := by
  obtain ⟨b, p, ⟨bucket, hmem, rfl⟩, hprev, _, _, hv⟩ := h
  have hp : p = 0 := by
    rcases hprev with ⟨before, hbefore, hp, hlt, _⟩ | ⟨_, hp⟩
    · rw [← hp]
      refine (hzero before hbefore).resolve_right fun htop => ?_
      rw [← hp, htop] at hlt
      exact absurd hlt not_top_lt
    · exact hp
  rw [hv, hp]
  rcases hzero bucket hmem with h | h
  · rw [h]
    exact inBracket_zero _ _ _
  · rw [h]
    exact inBracket_top

end Metrics

end Obsy
