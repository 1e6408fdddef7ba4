import Obsy.Metrics.Brackets
import Obsy.Runs.Stable
import Mathlib.Algebra.Order.BigOperators.Group.List
import Mathlib.Data.List.Dedup

/-!
# Quantiles of several series

The buckets of several series go into one list.  The fold does not add the counts of a bound, it goes
on with the greatest of them; and where the buckets of a bound bring the count up in several steps, a
rank between these has the bound for its answer.

* `summed`: one bucket for each bound, with the sum of what its buckets have counted.
* `Aggregates`: the fold answers the quantile of the sums, in every order of the buckets.
* `Aggregable`: when it does.
* `aggregates_iff`: the two are the same.
-/

namespace Obsy

namespace Metrics

/-! ### Definitions -/

/-- The quantile of buckets in any order. -/
def quantileOf (q : ℚ) (counts : List Counted) : Option Bound :=
  quantileAt q (counts.mergeSort fun a b => a.1 ≤ b.1)

def sumAt (counts : List Counted) (b : Bound) : ℚ :=
  ((counts.filter fun bucket => bucket.1 = b).map Prod.snd).sum

/-- The bounds of a list of buckets, in order. -/
def boundsOf (counts : List Counted) : List Bound :=
  (counts.map Prod.fst).dedup.mergeSort fun a b => a ≤ b

/-- One bucket for each bound, in order. -/
def summed (counts : List Counted) : List Counted :=
  (boundsOf counts).map fun b => (b, sumAt counts b)

/-- **The quantile of the sums**, for buckets in every order. -/
structure Aggregates (counts : List Counted) : Prop where
  exact : ∀ others : List Counted, others.Perm counts → ∀ q, 0 ≤ q → q ≤ 1 →
    quantileOf q others = quantileAt q (summed counts)
  mono : ∀ q q' v v', 0 ≤ q → q ≤ q' → q' ≤ 1 → quantileOf q counts = some v →
    quantileOf q' counts = some v' → v ≤ v'
  le_largest : ∀ q v, 0 ≤ q → q ≤ 1 → quantileOf q counts = some v → ∀ largest ∈ counts,
    largest.1 ≠ ⊤ → (∀ bucket ∈ counts, bucket.1 ≠ ⊤ → bucket.1 ≤ largest.1) → v ≤ largest.1

/-- Nothing is counted; or the buckets are level, a negative first bound has no count, and the
greatest counts up to the bounds are in proportion to those of the sums, unless no finite bound but 0
makes a difference. -/
def Aggregable (counts : List Counted) : Prop :=
  (∀ bucket ∈ counts, bucket.2 ≤ 0) ∨
    (∃ bucket ∈ counts, 0 < sumAt counts bucket.1) ∧ Signs counts ∧
      (∀ bucket ∈ counts, Flat counts bucket.1 ∨ Level counts bucket.1) ∧
        ((∀ bucket ∈ counts, bucket.1 = 0 ∨ bucket.1 = ⊤) ∨
          ∀ bucket ∈ counts, peak (summed counts) bucket.1 * high 0 counts =
            peak counts bucket.1 * high 0 (summed counts))

variable {counts others : List Counted} {running rank q : ℚ} {b p v : Bound}

/-! ### The fold of a sorted list -/

theorem getLast?_cumulative (running : ℚ) (counts : List Counted) :
    (cumulative running counts).getLast?.map Prod.snd =
      if counts = [] then none else some (high running counts) := by
  induction counts generalizing running with
  | nil => rfl
  | cons bucket rest ih =>
    obtain ⟨b, x⟩ := bucket
    rw [cumulative, if_neg (List.cons_ne_nil _ _)]
    cases rest with
    | nil => rfl
    | cons second rest =>
      have h := ih (max running x)
      rw [if_neg (List.cons_ne_nil _ _)] at h
      rw [cumulative] at h ⊢
      exact h

/-- The fold, in terms of the greatest count. -/
theorem quantileAt_eq (q : ℚ) (counts : List Counted) :
    quantileAt q counts =
      if high 0 counts ≤ 0 then none
      else bracket (q * high 0 counts) 0 0 (cumulative 0 counts) := by
  have hlast := getLast?_cumulative 0 counts
  unfold quantileAt
  by_cases hnil : counts = []
  · rw [hnil]
    rfl
  · rw [if_neg hnil] at hlast
    obtain ⟨⟨b, total⟩, hsome, htotal⟩ := Option.map_eq_some_iff.1 hlast
    rw [hsome, ← htotal]

/-- A list in order, cut at a bound. -/
theorem cut_bound (hsorted : counts.Pairwise fun a b => a.1 ≤ b.1) (b : Bound) :
    counts = (counts.filter fun bucket => bucket.1 < b) ++
      ((counts.filter fun bucket => bucket.1 = b) ++ counts.filter fun bucket => b < bucket.1) := by
  have hbelow := Runs.filter_append_filter (p := fun bucket : Counted => decide (bucket.1 < b))
    hsorted fun x _ y _ hxy hy => decide_eq_true (hxy.trans_lt (of_decide_eq_true hy))
  have hrest := hsorted.filter fun bucket => !decide (bucket.1 < b)
  have hat := Runs.filter_append_filter (p := fun bucket : Counted => decide (bucket.1 ≤ b))
    hrest fun x _ y _ hxy hy => decide_eq_true (hxy.trans (of_decide_eq_true hy))
  rw [List.filter_filter, List.filter_filter] at hat
  calc counts
    _ = _ := hbelow.symm
    _ = _ := by
      rw [← hat]
      congr 2
      · refine List.filter_congr fun x _ => ?_
        rw [← decide_not, ← Bool.decide_and, decide_eq_decide, not_lt, le_antisymm_iff]
      · refine List.filter_congr fun x _ => ?_
        rw [← decide_not, ← decide_not, ← Bool.decide_and, decide_eq_decide, not_lt, not_le]
        exact ⟨fun h => h.1, fun h => ⟨h, h.le⟩⟩

theorem bracket_append_of_lt {before : List Counted} (h : before = [] ∨ high running before < rank)
    (previousBound : Bound) (after : List Counted) :
    bracket rank previousBound running (cumulative running (before ++ after)) =
      bracket rank (lastBound previousBound before) (high running before)
        (cumulative (high running before) after) := by
  induction before generalizing running previousBound with
  | nil => rfl
  | cons bucket rest ih =>
    obtain ⟨b, x⟩ := bucket
    have hlt : high (max running x) rest < rank := h.resolve_left (List.cons_ne_nil _ _)
    rw [List.cons_append, cumulative, bracket, if_neg (not_le.2 (le_high.trans_lt hlt)),
      ih (.inr hlt)]
    congr 1
    rcases List.eq_nil_or_concat rest with rfl | ⟨front, last, rfl⟩
    · rfl
    · rw [List.concat_eq_append, lastBound, lastBound, ← List.cons_append, List.getLast?_concat,
        List.getLast?_concat]
      rfl

theorem bracket_append_of_le {before : List Counted} (hne : before ≠ [])
    (h : rank ≤ high running before) (previousBound : Bound) (after : List Counted) :
    bracket rank previousBound running (cumulative running (before ++ after)) =
      bracket rank previousBound running (cumulative running before) := by
  induction before generalizing running previousBound with
  | nil => exact absurd rfl hne
  | cons bucket rest ih =>
    obtain ⟨b, x⟩ := bucket
    rw [List.cons_append, cumulative, cumulative, bracket, bracket]
    by_cases hreach : rank ≤ max running x
    · rw [if_pos hreach, if_pos hreach]
    · rw [if_neg hreach, if_neg hreach]
      refine ih ?_ h b
      rintro rfl
      exact hreach h

/-- In a bracket without width the answer is the bound. -/
theorem inBracket_self (rank previousCount count : ℚ) (b : Bound) :
    inBracket rank b previousCount b count = b := by
  induction b using WithTop.recTopCoe with
  | top => exact inBracket_top
  | coe b =>
    rw [inBracket_coe, sub_self, zero_mul, add_zero, ite_self]

/-- In any other it is not, before the count is reached. -/
theorem inBracket_ne (hpb : p ≠ b) (hp : p ≠ ⊤) {pc c : ℚ} (h0 : pc ≤ rank) (h1 : rank < c) :
    inBracket rank p pc b c ≠ b := by
  induction b using WithTop.recTopCoe with
  | top => rwa [inBracket_top]
  | coe b =>
    lift p to ℚ using hp
    have hlt : pc < c := h0.trans_lt h1
    have hpart : (rank - pc) / (c - pc) < 1 := (div_lt_one (sub_pos.2 hlt)).2 (by linarith)
    rw [inBracket_coe, if_pos hlt, Ne, WithTop.coe_inj]
    intro heq
    have hzero : (b - p) * (1 - (rank - pc) / (c - pc)) = 0 := by linarith
    rcases mul_eq_zero.1 hzero with h | h
    · exact hpb (congrArg _ (by linarith))
    · linarith

/-! ### Orders of a bound -/

theorem mem_sorted {bucket : Counted} :
    bucket ∈ (counts.mergeSort fun a b => a.1 ≤ b.1) ↔ bucket ∈ counts := List.mem_mergeSort

/-- The bucket that comes first among those of its bound stays there. -/
theorem sorted_cons (first : Counted) (rest : List Counted) :
    ∃ before same after, ((first :: rest).mergeSort fun a b => a.1 ≤ b.1) =
        before ++ (first :: same ++ after) ∧
      (∀ bucket ∈ before, bucket.1 < first.1) ∧ (∀ bucket ∈ same, bucket.1 = first.1) ∧
      high 0 before = peakBelow (first :: rest) first.1 ∧
      high 0 (before ++ first :: same) = peak (first :: rest) first.1 ∧
      (before = [] → ∀ bucket ∈ first :: rest, first.1 ≤ bucket.1) := by
  have hsorted := @Runs.pairwise_mergeSort Counted Bound _ Prod.fst (first :: rest)
  have hcut := cut_bound hsorted first.1
  have hsame : (((first :: rest).mergeSort fun a b => a.1 ≤ b.1).filter fun bucket =>
      bucket.1 = first.1) = first :: rest.filter fun bucket => bucket.1 = first.1 := by
    rw [@Runs.filter_mergeSort Counted Bound _ Prod.fst, @List.filter_cons_of_pos _
      (fun bucket : Counted => decide (bucket.1 = first.1)) first rest (decide_eq_true rfl)]
    refine List.mergeSort_of_pairwise (List.pairwise_of_forall_mem_list fun x hx y hy => ?_)
    have hat : ∀ z ∈ first :: rest.filter (fun bucket => decide (bucket.1 = first.1)),
        z.1 = first.1 := by
      intro z hz
      rcases List.mem_cons.1 hz with rfl | hz
      · rfl
      · exact of_decide_eq_true (List.mem_filter.1 hz).2
    rw [hat x hx, hat y hy]
    exact decide_eq_true le_rfl
  rw [hsame] at hcut
  have hbefore : ∀ bucket, bucket ∈ (((first :: rest).mergeSort fun a b => a.1 ≤ b.1).filter
      fun bucket => bucket.1 < first.1) ↔ bucket ∈ first :: rest ∧ bucket.1 < first.1 := by
    intro bucket
    rw [List.mem_filter, mem_sorted, decide_eq_true_eq]
  refine ⟨_, _, _, hcut, fun bucket h => ((hbefore bucket).1 h).2, fun bucket h => ?_, ?_, ?_,
    fun hnil bucket h => not_lt.1 fun hlt => ?_⟩
  · exact of_decide_eq_true (List.mem_filter.1 h).2
  · refine high_congr fun bucket => ?_
    rw [hbefore, List.mem_filter, decide_eq_true_eq]
  · refine high_congr fun bucket => ?_
    rw [← hsame, List.mem_append, hbefore, List.mem_filter, List.mem_filter, mem_sorted,
      decide_eq_true_eq, decide_eq_true_eq, ← and_or_left, ← le_iff_lt_or_eq]
  · have hin := (hbefore bucket).2 ⟨h, hlt⟩
    rw [hnil] at hin
    cases hin

/-- **A rank between two steps of a bound** has the bound for its answer. -/
theorem bracket_between {first : Counted} {rest : List Counted}
    (hlt : max (peakBelow (first :: rest) first.1) first.2 < rank)
    (hle : rank ≤ peak (first :: rest) first.1) :
    bracket rank 0 0 (cumulative 0 ((first :: rest).mergeSort fun a b => a.1 ≤ b.1)) =
      some first.1 := by
  obtain ⟨before, same, after, hsort, _, hsame, hbelow, hpeak, _⟩ := sorted_cons first rest
  have hstep : high 0 (before ++ [first]) = max (peakBelow (first :: rest) first.1) first.2 := by
    rw [high_append, hbelow]
    rfl
  have hhigh : high (high 0 (before ++ [first])) same = peak (first :: rest) first.1 := by
    rw [← hpeak, ← high_append, List.append_assoc, List.singleton_append]
  have hlast : lastBound 0 (before ++ [first]) = first.1 := by
    rw [lastBound, List.getLast?_concat]
    rfl
  have hne : same ≠ [] := by
    rintro rfl
    rw [← hhigh, hstep] at hle
    exact absurd hlt (not_lt.2 hle)
  rw [← hhigh] at hle
  rw [hsort, List.cons_append, ← List.singleton_append, ← List.append_assoc,
    bracket_append_of_lt (.inr (by rwa [hstep])), bracket_append_of_le hne hle, hlast]
  obtain ⟨passed, b, x, left, hsplit, _, _, hvalue⟩ := exists_bracket rank first.1 hne hle
  have hb : b = first.1 := hsame (b, x) (by rw [hsplit]; simp)
  have hpassed : lastBound first.1 passed = first.1 := by
    by_cases hnil : passed = []
    · rw [hnil]
      rfl
    · rw [lastBound_of_ne_nil hnil]
      refine hsame _ ?_
      rw [hsplit]
      exact List.mem_append_left _ (List.getLast_mem hnil)
  rw [hvalue, hpassed, hb, inBracket_self]

/-- With the greatest bucket first, it has another. -/
theorem bracket_first {first : Counted} {rest : List Counted}
    (hlt : peakBelow (first :: rest) first.1 < rank) (hrank : rank < first.2)
    (hflat : ¬ Flat (first :: rest) first.1) :
    ∃ v, bracket rank 0 0 (cumulative 0 ((first :: rest).mergeSort fun a b => a.1 ≤ b.1)) =
      some v ∧ v ≠ first.1 := by
  obtain ⟨before, same, after, hsort, hbefore, _, hbelow, _, hfirst⟩ := sorted_cons first rest
  have hreach : rank < max (peakBelow (first :: rest) first.1) first.2 := lt_max_of_lt_right hrank
  rw [hsort, bracket_append_of_lt (.inr (by rwa [hbelow])), hbelow, List.cons_append, cumulative,
    bracket, if_pos hreach.le]
  refine ⟨_, rfl, inBracket_ne ?_ ?_ hlt.le hreach⟩ <;> by_cases hnil : before = []
  · rw [hnil]
    exact fun h => hflat ⟨h.symm, fun bucket hmem => h.trans_le (hfirst hnil bucket hmem)⟩
  · rw [lastBound_of_ne_nil hnil]
    exact (hbefore _ (List.getLast_mem hnil)).ne
  · rw [hnil]
    exact WithTop.zero_ne_top
  · rw [lastBound_of_ne_nil hnil]
    exact (hbefore _ (List.getLast_mem hnil)).ne_top

theorem high_mem (running : ℚ) (counts : List Counted) :
    high running counts = running ∨ ∃ bucket ∈ counts, high running counts = bucket.2 := by
  induction counts generalizing running with
  | nil => exact .inl rfl
  | cons bucket rest ih =>
    rcases ih (max running bucket.2) with h | ⟨other, hmem, h⟩
    · rcases max_choice running bucket.2 with hmax | hmax
      · exact .inl (h.trans hmax)
      · exact .inr ⟨bucket, List.mem_cons_self, h.trans hmax⟩
    · exact .inr ⟨other, List.mem_cons_of_mem _ hmem, h⟩

section Congr

variable (hsame : ∀ bucket, bucket ∈ counts ↔ bucket ∈ others)
include hsame

theorem peak_congr (b : Bound) : peak counts b = peak others b :=
  high_congr fun bucket => by rw [List.mem_filter, List.mem_filter, hsame]

theorem peakBelow_congr (b : Bound) : peakBelow counts b = peakBelow others b :=
  high_congr fun bucket => by rw [List.mem_filter, List.mem_filter, hsame]

theorem flat_congr (b : Bound) : Flat counts b ↔ Flat others b :=
  and_congr_right fun _ => forall_congr' fun bucket => by rw [hsame]

theorem level_congr (b : Bound) : Level counts b ↔ Level others b :=
  forall_congr' fun bucket => by rw [hsame, peak_congr hsame, peakBelow_congr hsame]

end Congr

theorem quantileOf_eq (q : ℚ) (counts : List Counted) :
    quantileOf q counts =
      if high 0 counts ≤ 0 then none
      else bracket (q * high 0 counts) 0 0
        (cumulative 0 (counts.mergeSort fun a b => a.1 ≤ b.1)) := by
  rw [quantileOf, quantileAt_eq, high_congr fun _ => mem_sorted]

/-- A rank within what is counted. -/
theorem rank_of_le {x total : ℚ} (htotal : 0 < total) (h0 : 0 ≤ x) (h1 : x ≤ total) :
    0 ≤ x / total ∧ x / total ≤ 1 ∧ x / total * total = x :=
  ⟨div_nonneg h0 htotal.le, (div_le_one htotal).2 h1, div_mul_cancel₀ x htotal.ne'⟩

/-- **If the order of the buckets plays no part**, they are level. -/
theorem tidy_of_exact (hpos : 0 < high 0 counts)
    (hexact : ∀ others : List Counted, others.Perm counts → ∀ q, 0 ≤ q → q ≤ 1 →
      quantileOf q others = quantileOf q counts) :
    ∀ bucket ∈ counts, Flat counts bucket.1 ∨ Level counts bucket.1 := by
  intro bucket _
  refine or_iff_not_imp_left.2 fun hflat step hstep hb => ?_
  rw [← hb] at hflat ⊢
  by_contra hne
  have hlt : max (peakBelow counts step.1) step.2 < peak counts step.1 :=
    lt_of_le_of_ne (max_le peakBelow_le_peak (le_peak hstep le_rfl)) hne
  -- a bucket that has the peak
  obtain ⟨top, htop, htopb, hcount⟩ :
      ∃ top ∈ counts, top.1 = step.1 ∧ top.2 = peak counts step.1 := by
    rcases high_mem 0 (counts.filter fun bucket => bucket.1 ≤ step.1) with h | ⟨top, htop, h⟩
    · exact absurd (hlt.trans_eq h)
        (not_lt.2 (peakBelow_nonneg.trans (le_max_left _ _)))
    · obtain ⟨hmem, hle⟩ := List.mem_filter.1 htop
      refine ⟨top, hmem, ?_, h.symm⟩
      refine (of_decide_eq_true hle).eq_of_not_lt fun hbelow => ?_
      have hsmall : top.2 ≤ peakBelow counts step.1 :=
        (peakBelow_le_iff.1 le_rfl).2 top hmem hbelow
      exact absurd ((le_max_left _ _).trans_lt hlt) (not_lt.2 (h.trans_le hsmall))
  obtain ⟨rank, hrank, hrank'⟩ := exists_between hlt
  obtain ⟨hq0, hq1, hq⟩ := rank_of_le hpos
    ((peakBelow_nonneg.trans (le_max_left _ _)).trans hrank.le) (hrank'.le.trans peak_le_high)
  have hfirst : (step :: counts.erase step).Perm counts := (List.perm_cons_erase hstep).symm
  have hother : (top :: counts.erase top).Perm counts := (List.perm_cons_erase htop).symm
  have hvalues := (hexact _ hfirst _ hq0 hq1).trans (hexact _ hother _ hq0 hq1).symm
  rw [quantileOf_eq, quantileOf_eq, high_congr fun _ => hfirst.mem_iff,
    high_congr fun _ => hother.mem_iff, if_neg (not_le.2 hpos), if_neg (not_le.2 hpos),
    hq] at hvalues
  rw [← peakBelow_congr fun _ => hfirst.mem_iff] at hrank
  have hbetween := bracket_between hrank
    (by rw [peak_congr fun _ => hfirst.mem_iff]; exact hrank'.le)
  rw [peakBelow_congr fun _ => hfirst.mem_iff] at hrank
  obtain ⟨v, hv, hvne⟩ := @bracket_first rank top (counts.erase top)
    (by
      rw [peakBelow_congr fun _ => hother.mem_iff, htopb]
      exact (le_max_left _ _).trans_lt hrank) (by rwa [hcount])
    (by rwa [flat_congr fun _ => hother.mem_iff, htopb])
  rw [hbetween, hv, Option.some_inj] at hvalues
  exact hvne (hvalues.symm.trans htopb.symm)

/-! ### Sums -/

theorem mem_boundsOf : b ∈ boundsOf counts ↔ ∃ bucket ∈ counts, bucket.1 = b := by
  rw [boundsOf, List.mem_mergeSort, List.mem_dedup, List.mem_map]

/-- The sums are of the same bounds. -/
theorem exists_summed_iff (b : Bound) :
    (∃ bucket ∈ counts, bucket.1 = b) ↔ ∃ bucket ∈ summed counts, bucket.1 = b := by
  rw [← mem_boundsOf, summed]
  constructor
  · intro h
    exact ⟨_, List.mem_map_of_mem h, rfl⟩
  · rintro ⟨_, hmem, rfl⟩
    obtain ⟨b, hb, rfl⟩ := List.mem_map.1 hmem
    exact hb

theorem pairwise_summed (counts : List Counted) :
    (summed counts).Pairwise fun a b => a.1 ≤ b.1 := by
  rw [summed, List.pairwise_map]
  exact @Runs.pairwise_mergeSort Bound Bound _ id _

theorem level_summed (counts : List Counted) (b : Bound) : Level (summed counts) b := by
  intro bucket hmem hb
  refine le_antisymm (max_le peakBelow_le_peak (le_peak hmem hb.le)) (peak_le_iff.2 ?_)
  refine ⟨peakBelow_nonneg.trans (le_max_left _ _), fun other hother hle => ?_⟩
  rcases hle.lt_or_eq with hlt | heq
  · exact ((peakBelow_le_iff.1 le_rfl).2 other hother hlt).trans (le_max_left _ _)
  · obtain ⟨b₁, _, rfl⟩ := List.mem_map.1 hmem
    obtain ⟨b₂, _, rfl⟩ := List.mem_map.1 hother
    rw [show b₂ = b₁ from heq.trans hb.symm]
    exact le_max_right _ _

theorem high_nonpos_iff : high 0 counts ≤ 0 ↔ ∀ bucket ∈ counts, bucket.2 ≤ 0 := by
  rw [high_le_iff]
  exact and_iff_right le_rfl

theorem sumAt_nonpos (h : ∀ bucket ∈ counts, bucket.2 ≤ 0) (b : Bound) : sumAt counts b ≤ 0 := by
  refine (List.sum_le_card_nsmul _ 0 fun x hx => ?_).trans_eq (nsmul_zero _)
  obtain ⟨bucket, hmem, rfl⟩ := List.mem_map.1 hx
  exact h bucket (List.mem_filter.1 hmem).1

/-- A sum is positive if and only if one of the greatest sums is. -/
theorem high_summed_pos :
    0 < high 0 (summed counts) ↔ ∃ bucket ∈ counts, 0 < sumAt counts bucket.1 := by
  rw [← not_le, high_nonpos_iff]
  push Not
  constructor
  · rintro ⟨_, hmem, hpos⟩
    obtain ⟨b, hb, rfl⟩ := List.mem_map.1 hmem
    obtain ⟨bucket, hbucket, rfl⟩ := mem_boundsOf.1 hb
    exact ⟨bucket, hbucket, hpos⟩
  · rintro ⟨bucket, hmem, hpos⟩
    exact ⟨_, List.mem_map_of_mem (mem_boundsOf.2 ⟨bucket, hmem, rfl⟩), hpos⟩

/-! ### Answers of both -/

theorem exists_quantileAt (hsorted : counts.Pairwise fun a b => a.1 ≤ b.1)
    (htidy : ∀ bucket ∈ counts, Flat counts bucket.1 ∨ Level counts bucket.1)
    (hpos : 0 < high 0 counts) (h1 : q ≤ 1) :
    ∃ v, quantileAt q counts = some v ∧ Answer counts (q * high 0 counts) v := by
  have hne : counts ≠ [] := by
    rintro rfl
    exact lt_irrefl _ hpos
  rw [quantileAt_eq, if_neg (not_le.2 hpos)]
  exact exists_answer hsorted htidy hne (mul_le_of_le_one_left hpos.le h1)

theorem exists_quantileOf
    (htidy : ∀ bucket ∈ counts, Flat counts bucket.1 ∨ Level counts bucket.1)
    (hpos : 0 < high 0 counts) (h1 : q ≤ 1) :
    ∃ v, quantileOf q counts = some v ∧ Answer counts (q * high 0 counts) v := by
  have hsame : ∀ bucket, bucket ∈ (counts.mergeSort fun a b => a.1 ≤ b.1) ↔ bucket ∈ counts :=
    fun _ => mem_sorted
  have hhigh : high 0 (counts.mergeSort fun a b => a.1 ≤ b.1) = high 0 counts := high_congr hsame
  obtain ⟨v, hv, hanswer⟩ := exists_quantileAt
    (@Runs.pairwise_mergeSort Counted Bound _ Prod.fst counts) (fun bucket hmem => by
      rw [flat_congr hsame, level_congr hsame]
      exact htidy bucket ((hsame bucket).1 hmem)) (by rwa [hhigh]) h1
  rw [hhigh] at hanswer
  exact ⟨v, hv, hanswer.congr hsame⟩

theorem exists_quantileAt_summed (hpos : 0 < high 0 (summed counts)) (h1 : q ≤ 1) :
    ∃ v, quantileAt q (summed counts) = some v ∧
      Answer (summed counts) (q * high 0 (summed counts)) v :=
  exists_quantileAt (pairwise_summed counts) (fun bucket _ => .inr (level_summed counts bucket.1))
    hpos h1

/-- One list of counts has not reached a bound at a part of all at which the other has: they have
the same answers only if that bound has no width and no other follows. -/
theorem flat_of_answers (hbounds : ∀ b, (∃ bucket ∈ counts, bucket.1 = b) ↔
      ∃ bucket ∈ others, bucket.1 = b) (hsigns : Signs others) {rank' : ℚ} (h0 : 0 ≤ rank')
    (h : Answer counts rank v) (h' : Answer others rank' v) {bucket : Counted}
    (hmem : bucket ∈ counts) (hfinite : bucket.1 ≠ ⊤) (hlt : peak counts bucket.1 < rank)
    (hlt' : rank' < peak others bucket.1) :
    ∀ other ∈ counts, other.1 = 0 ∨ other.1 = ⊤ := by
  obtain ⟨same, hsame, heq⟩ := (hbounds bucket.1).1 ⟨bucket, hmem, rfl⟩
  obtain ⟨hle, hless⟩ := h.le_of_peak_lt hmem hlt
  rw [← heq] at hlt'
  obtain ⟨hle', hless'⟩ := h'.le_of_lt_peak hsigns h0 hsame (by rwa [heq]) hlt'
  rw [heq] at hle' hless'
  have hflat : Flat others bucket.1 := by
    by_contra hflat
    exact absurd hle (not_le.2 (hless' hflat))
  intro other hother
  refine or_iff_not_imp_right.2 fun htop => ?_
  obtain ⟨there, hthere, hthere'⟩ := (hbounds other.1).1 ⟨other, hother, rfl⟩
  have hpos : 0 ≤ other.1 := by
    rw [← hthere']
    exact hflat.2 there hthere
  refine (hpos.eq_of_not_lt fun hgt => ?_).symm
  exact absurd hle' (not_le.2 (hless ⟨other, hother, htop, hflat.1.trans_lt hgt⟩))

/-- Parts of all that are not the same have one between them. -/
theorem exists_part {x total y total' : ℚ} (htotal : 0 < total) (htotal' : 0 < total')
    (hx : 0 ≤ x) (hy : y ≤ total') (hlt : x * total' < y * total) :
    ∃ q, 0 ≤ q ∧ q ≤ 1 ∧ x < q * total ∧ q * total' < y := by
  obtain ⟨q, hq, hq'⟩ := exists_between
    (show x / total < y / total' from (div_lt_div_iff₀ htotal htotal').2 hlt)
  refine ⟨q, (div_nonneg hx htotal.le).trans hq.le, hq'.le.trans ((div_le_one htotal').2 hy), ?_,
    ?_⟩
  · exact (div_lt_iff₀ htotal).1 hq
  · exact (lt_div_iff₀ htotal').1 hq'

/-- **The fold aggregates** if and only if the counts are as told. -/
theorem aggregates_iff (counts : List Counted) : Aggregates counts ↔ Aggregable counts := by
  have hbounds := @exists_summed_iff counts
  constructor
  · intro h
    refine or_iff_not_imp_left.2 fun hsome => ?_
    rw [← high_nonpos_iff, not_le] at hsome
    have htidy := tidy_of_exact hsome fun others hperm q h0 h1 => by
      rw [h.exact others hperm q h0 h1, h.exact counts (List.Perm.refl _) q h0 h1]
    -- both have an answer, and the same one
    have hanswers : ∀ q, q ≤ 1 → ∃ v, quantileOf q counts = some v ∧
        Answer counts (q * high 0 counts) v := fun q h1 => exists_quantileOf htidy hsome h1
    have hpos : 0 < high 0 (summed counts) := by
      obtain ⟨v, hv, _⟩ := hanswers 1 le_rfl
      rw [h.exact counts (List.Perm.refl _) 1 zero_le_one le_rfl, quantileAt_eq] at hv
      by_contra hnot
      rw [if_pos (not_lt.1 hnot)] at hv
      cases hv
    have hboth : ∀ q, 0 ≤ q → q ≤ 1 → ∃ v, quantileOf q counts = some v ∧
        Answer counts (q * high 0 counts) v ∧
          Answer (summed counts) (q * high 0 (summed counts)) v := by
      intro q h0 h1
      obtain ⟨v, hv, hanswer⟩ := hanswers q h1
      obtain ⟨v', hv', hanswer'⟩ := exists_quantileAt_summed hpos h1
      rw [← h.exact counts (List.Perm.refl _) q h0 h1, hv, Option.some_inj] at hv'
      exact ⟨v, hv, hanswer, hv' ▸ hanswer'⟩
    have hgrows : ∀ total, 0 < total → ∀ rank, 0 ≤ rank → rank ≤ total →
        ((quantileOf (0 / total) counts).getD 0 ≤ (quantileOf (rank / total) counts).getD 0) := by
      intro total htotal rank h0 h1
      obtain ⟨hq0, hq1, _⟩ := rank_of_le htotal h0 h1
      rw [zero_div]
      obtain ⟨v, hv, _⟩ := hanswers 0 zero_le_one
      obtain ⟨v', hv', _⟩ := hanswers _ hq1
      rw [hv, hv']
      exact h.mono 0 _ v v' le_rfl hq0 hq1 hv hv'
    have hsigns : Signs counts :=
      signs_of_mono (fun bucket _ => peak_le_high) (fun rank h0 h1 => by
        obtain ⟨hq0, hq1, hq⟩ := rank_of_le hsome h0 h1
        obtain ⟨v, hv, hanswer, _⟩ := hboth _ hq0 hq1
        rw [hv]
        rwa [hq] at hanswer) (hgrows _ hsome)
    have hsigns' : Signs (summed counts) :=
      signs_of_mono (fun bucket _ => peak_le_high) (fun rank h0 h1 => by
        obtain ⟨hq0, hq1, hq⟩ := rank_of_le hpos h0 h1
        obtain ⟨v, hv, _, hanswer⟩ := hboth _ hq0 hq1
        rw [hv]
        rwa [hq] at hanswer) (hgrows _ hpos)
    refine ⟨high_summed_pos.1 hpos, hsigns, htidy, or_iff_not_imp_left.2 fun hzero => ?_⟩
    intro bucket hmem
    by_cases htop : bucket.1 = ⊤
    · have hall : ∀ list : List Counted, peak list ⊤ = high 0 list := fun list =>
        high_congr fun bucket => by rw [List.mem_filter, and_iff_left (decide_eq_true le_top)]
      rw [htop, hall, hall, mul_comm]
    · obtain ⟨same, hsame, heq⟩ := (hbounds bucket.1).1 ⟨bucket, hmem, rfl⟩
      rcases lt_trichotomy (peak (summed counts) bucket.1 * high 0 counts)
        (peak counts bucket.1 * high 0 (summed counts)) with hlt | hsame | hgt
      · obtain ⟨q, h0, h1, hbelow, habove⟩ := exists_part hpos hsome peak_nonneg peak_le_high hlt
        obtain ⟨v, _, hanswer, hanswer'⟩ := hboth q h0 h1
        rw [← heq] at hbelow habove
        have hflat := flat_of_answers (fun b => (hbounds b).symm) hsigns
          (mul_nonneg h0 hsome.le) hanswer' hanswer hsame (by rwa [heq]) hbelow habove
        refine absurd (fun other hother => ?_) hzero
        obtain ⟨there, hthere, hthere'⟩ := (hbounds other.1).1 ⟨other, hother, rfl⟩
        rw [← hthere']
        exact hflat there hthere
      · exact hsame
      · obtain ⟨q, h0, h1, hbelow, habove⟩ := exists_part hsome hpos peak_nonneg peak_le_high hgt
        obtain ⟨v, _, hanswer, hanswer'⟩ := hboth q h0 h1
        exact absurd (flat_of_answers hbounds hsigns' (mul_nonneg h0 hpos.le) hanswer hanswer' hmem
          htop hbelow habove) hzero
  · rintro (hnone | ⟨hsum, hsigns, htidy, hparts⟩)
    · have hnever : ∀ others : List Counted, others.Perm counts → ∀ q,
          quantileOf q others = none := by
        intro others hperm q
        rw [quantileOf_eq, if_pos]
        exact high_nonpos_iff.2 fun bucket hmem => hnone bucket (hperm.mem_iff.1 hmem)
      have hnever' := fun q => hnever counts (List.Perm.refl _) q
      refine ⟨fun others hperm q _ _ => ?_, fun q q' v v' _ _ _ hv => ?_, fun q v _ _ hv => ?_⟩
      · rw [hnever others hperm, quantileAt_eq, if_pos]
        rw [← not_lt, high_summed_pos]
        rintro ⟨bucket, _, hpos⟩
        exact absurd hpos (not_lt.2 (sumAt_nonpos hnone _))
      · rw [hnever'] at hv
        cases hv
      · rw [hnever'] at hv
        cases hv
    · have hpos := high_summed_pos.2 hsum
      have hsome : 0 < high 0 counts := by
        obtain ⟨bucket, _, hbucket⟩ := hsum
        rw [← not_le, high_nonpos_iff]
        exact fun hnone => absurd hbucket (not_lt.2 (sumAt_nonpos hnone _))
      refine ⟨fun others hperm q h0 h1 => ?_, fun q q' v v' h0 hle h1 hv hv' => ?_,
        fun q v h0 h1 hv => ?_⟩
      · have hsame : ∀ bucket, bucket ∈ others ↔ bucket ∈ counts := fun _ => hperm.mem_iff
        have hhigh : high 0 others = high 0 counts := high_congr hsame
        obtain ⟨v, hv, hanswer⟩ := exists_quantileOf (fun bucket hmem => by
          rw [flat_congr hsame, level_congr hsame]
          exact htidy bucket ((hsame bucket).1 hmem)) (by rwa [hhigh]) h1
        obtain ⟨v', hv', hanswer'⟩ := exists_quantileAt_summed hpos h1
        rw [hhigh] at hanswer
        have hanswer := hanswer.congr hsame
        rw [hv, hv', Option.some_inj]
        rcases hparts with hzero | hparts
        · rw [hanswer.eq_zero hzero, hanswer'.eq_zero fun other hother => ?_]
          obtain ⟨there, hthere, heq⟩ := (hbounds other.1).2 ⟨other, hother, rfl⟩
          rw [← heq]
          exact hzero there hthere
        · have hscaled := hanswer.scale (div_pos hpos hsome) hbounds fun bucket hmem => by
            rw [div_mul_eq_mul_div, eq_div_iff hsome.ne', hparts bucket hmem, mul_comm]
          rw [mul_comm q, ← mul_assoc, div_mul_cancel₀ _ hsome.ne', mul_comm] at hscaled
          exact hscaled.unique hanswer'
      · obtain ⟨w, hw, hanswer⟩ := exists_quantileOf htidy hsome (hle.trans h1)
        obtain ⟨w', hw', hanswer'⟩ := exists_quantileOf htidy hsome h1
        rw [hv, Option.some_inj] at hw
        rw [hv', Option.some_inj] at hw'
        rw [hw, hw']
        exact hanswer.mono hsigns (mul_nonneg h0 hsome.le)
          (mul_le_mul_of_nonneg_right hle hsome.le) hanswer'
      · intro largest hmem hfinite hmax
        obtain ⟨w, hw, hanswer⟩ := exists_quantileOf htidy hsome h1
        rw [hv, Option.some_inj] at hw
        rw [hw]
        exact hanswer.le_largest hsigns (mul_nonneg h0 hsome.le) hmem hfinite hmax

end Metrics

end Obsy
