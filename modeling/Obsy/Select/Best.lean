import Mathlib.Data.List.Perm.Subperm
import Mathlib.Data.List.Sort
import Mathlib.Data.Multiset.Count
import Mathlib.Order.Basic

/-!
# The best of a list

A bounded selection keeps the best items of those it has seen, by a key.  Which of several items
with one key it keeps is left open.

* `Best`: what a selection has kept.
* `Best.add`, `Best.skip`, `Best.replace`: the three ways a selection takes an item.
* `Best.keys`: the keys kept are the first of all keys in order.
* `Best.iff_of_rejected`: when a selection that never saw some items is still the best of all.
-/

namespace Obsy

namespace Select

variable {α κ : Type*} [LinearOrder κ]

/-- The kept items are `limit` of the best items seen, or all of them. -/
def Best (key : α → κ) (limit : ℕ) (kept seen : List α) : Prop :=
  ∃ left, (kept ++ left).Perm seen ∧ kept.length = min limit seen.length ∧
    ∀ a ∈ kept, ∀ b ∈ left, key a ≤ key b

namespace Best

variable {key : α → κ} {limit : ℕ} {kept seen : List α}

theorem nil : Best key limit [] [] := ⟨[], .refl _, by simp, by simp⟩

theorem length_eq (h : Best key limit kept seen) : kept.length = min limit seen.length :=
  h.choose_spec.2.1

theorem perm_kept (h : Best key limit kept seen) {kept' : List α} (hp : kept'.Perm kept) :
    Best key limit kept' seen := by
  obtain ⟨left, hperm, hlen, hle⟩ := h
  exact ⟨left, (hp.append_right _).trans hperm, hp.length_eq.trans hlen,
    fun a ha => hle a (hp.mem_iff.1 ha)⟩

theorem perm_seen (h : Best key limit kept seen) {seen' : List α} (hp : seen.Perm seen') :
    Best key limit kept seen' := by
  obtain ⟨left, hperm, hlen, hle⟩ := h
  exact ⟨left, hperm.trans hp, by rw [hlen, hp.length_eq], hle⟩

/-- With room left nothing was left out. -/
theorem perm_of_room (h : Best key limit kept seen) (hroom : kept.length < limit) :
    kept.Perm seen := by
  obtain ⟨left, hperm, hlen, -⟩ := h
  have hlength := hperm.length_eq
  rw [List.length_append] at hlength
  obtain rfl : left = [] := List.length_eq_zero_iff.1 (by omega)
  simpa using hperm

/-- All items are kept while there is room. -/
theorem of_perm (h : kept.Perm seen) (hroom : kept.length ≤ limit) : Best key limit kept seen :=
  ⟨[], by simpa using h, by have := h.length_eq; omega, by simp⟩

theorem add (h : Best key limit kept seen) (hroom : kept.length < limit) (item : α) :
    Best key limit (kept ++ [item]) (seen ++ [item]) := by
  refine of_perm ((h.perm_of_room hroom).append_right _) ?_
  rw [List.length_append, List.length_singleton]
  exact hroom

/-- A full selection leaves out an item that is no better than any it keeps. -/
theorem skip (h : Best key limit kept seen) (hfull : limit ≤ kept.length) {item : α}
    (hworse : ∀ a ∈ kept, key a ≤ key item) : Best key limit kept (seen ++ [item]) := by
  obtain ⟨left, hperm, hlen, hle⟩ := h
  refine ⟨left ++ [item], ?_, ?_, fun a ha b hb => ?_⟩
  · rw [← List.append_assoc]
    exact hperm.append_right _
  · rw [List.length_append, List.length_singleton]
    omega
  · rcases List.mem_append.1 hb with hb | hb
    · exact hle a ha b hb
    · obtain rfl := List.mem_singleton.1 hb
      exact hworse a ha

/-- A full selection takes an item in place of its worst. -/
theorem replace {worst : α} {rest : List α} (h : Best key limit (worst :: rest) seen)
    (hfull : limit ≤ rest.length + 1) (hworst : ∀ a ∈ rest, key a ≤ key worst) {item : α}
    (hbetter : key item ≤ key worst) : Best key limit (item :: rest) (seen ++ [item]) := by
  obtain ⟨left, hperm, hlen, hle⟩ := h
  have hone : (item :: rest ++ worst :: left).Perm (worst :: rest ++ left ++ [item]) := by
    have hmoved : (rest ++ worst :: left).Perm (worst :: rest ++ left) :=
      List.perm_middle
    exact (hmoved.cons item).trans (List.perm_append_singleton item _).symm
  refine ⟨worst :: left, hone.trans (hperm.append_right _), ?_, fun a ha b hb => ?_⟩
  · rw [List.length_cons] at hlen ⊢
    rw [List.length_append, List.length_singleton]
    omega
  · rcases List.mem_cons.1 ha with rfl | ha
    · rcases List.mem_cons.1 hb with rfl | hb
      · exact hbetter
      · exact hbetter.trans (hle worst List.mem_cons_self b hb)
    · rcases List.mem_cons.1 hb with rfl | hb
      · exact hworst a ha
      · exact hle a (List.mem_cons_of_mem _ ha) b hb

/-- The keys kept, in order, are the first keys of all. -/
theorem keys (h : Best key limit kept seen) (hsorted : (kept.map key).Pairwise (· ≤ ·)) :
    kept.map key = ((seen.map key).mergeSort (· ≤ ·)).take limit := by
  obtain ⟨left, hperm, hlen, hle⟩ := h
  have hall : ((seen.map key).mergeSort (· ≤ ·)) =
      kept.map key ++ (left.map key).mergeSort (· ≤ ·) := by
    have hmerged : ((left.map key).mergeSort (· ≤ ·)).Perm (left.map key) :=
      List.mergeSort_perm ..
    refine List.Perm.eq_of_pairwise' (List.pairwise_mergeSort' (· ≤ ·) _) ?_ ?_
    · refine List.pairwise_append.2 ⟨hsorted, List.pairwise_mergeSort' (· ≤ ·) _, ?_⟩
      intro k hk k' hk'
      obtain ⟨a, ha, rfl⟩ := List.mem_map.1 hk
      obtain ⟨b, hb, rfl⟩ := List.mem_map.1 (hmerged.mem_iff.1 hk')
      exact hle a ha b hb
    · refine (List.mergeSort_perm ..).trans ?_
      have hkeys := hperm.map key
      rw [List.map_append] at hkeys
      exact hkeys.symm.trans (hmerged.symm.append_left _)
  rw [hall]
  rcases Nat.lt_or_ge kept.length limit with hroom | hfull
  · have hlength := hperm.length_eq
    rw [List.length_append] at hlength
    obtain rfl : left = [] := List.length_eq_zero_iff.1 (by omega)
    rw [List.map_nil, List.mergeSort_nil, List.append_nil, List.take_of_length_le]
    rw [List.length_map]
    exact hroom.le
  · rw [List.take_left' (by rw [List.length_map]; omega)]

/-- An item with `limit` items seen at its key or before is no better than any that is kept. -/
theorem le_of_many (h : Best key limit kept seen) {item : α}
    (hmany : limit ≤ (seen.filter fun a => key a ≤ key item).length) :
    ∀ a ∈ kept, key a ≤ key item := by
  obtain ⟨left, hperm, hlen, hle⟩ := h
  intro a ha
  -- a better item would have enough items before it to fill the selection
  by_contra hlt
  rw [not_le] at hlt
  have hseen := (hperm.filter fun c => decide (key c ≤ key item)).length_eq
  have hnone : (left.filter fun c => decide (key c ≤ key item)) = [] := by
    refine List.filter_eq_nil_iff.2 fun c hc => ?_
    have := hlt.trans_le (hle a ha c hc)
    simpa using this
  have hfewer : (kept.filter fun c => decide (key c ≤ key item)).length < kept.length := by
    refine lt_of_le_of_ne (List.length_filter_le ..) fun heq => ?_
    have hself := List.length_filter_eq_length_iff.1 heq a ha
    exact absurd (of_decide_eq_true hself) (not_le.2 hlt)
  rw [List.filter_append, List.length_append, hnone, List.length_nil] at hseen
  omega

/-- A selection that never saw some items is the best of all items if and only if each of them
has `limit` items of those seen at its key or before. -/
theorem iff_of_rejected {found rejected : List α} (h : Best key limit kept found)
    (hseen : (found ++ rejected).Perm seen) :
    Best key limit kept seen ↔
      ∀ r ∈ rejected, limit ≤ (found.filter fun a => key a ≤ key r).length := by
  have hbest := h
  obtain ⟨left, hperm, hlen, hle⟩ := h
  have hlength := hseen.length_eq
  rw [List.length_append] at hlength
  constructor
  · rintro ⟨others, hothers, hlen', hle'⟩ r hr
    have hpos := List.length_pos_of_mem hr
    -- what all items leave out is what was left out of those seen, and those rejected
    have hsame : others.Perm (left ++ rejected) := by
      refine (List.perm_append_left_iff kept).1 (hothers.trans ?_)
      rw [← List.append_assoc]
      exact hseen.symm.trans (hperm.symm.append_right _)
    have hworse : ∀ a ∈ kept, key a ≤ key r := fun a ha =>
      hle' a ha r (hsame.mem_iff.2 (List.mem_append_right _ hr))
    have hkept : (kept.filter fun a => key a ≤ key r) = kept :=
      List.filter_eq_self.2 fun a ha => decide_eq_true (hworse a ha)
    have hfound := (hperm.filter fun a => decide (key a ≤ key r)).length_eq
    rw [List.filter_append, List.length_append, hkept] at hfound
    omega
  · intro hmany
    refine ⟨left ++ rejected, ?_, ?_, fun a ha b hb => ?_⟩
    · rw [← List.append_assoc]
      exact (hperm.append_right _).trans hseen
    · cases rejected with
      | nil =>
        rw [List.length_nil, Nat.add_zero] at hlength
        rw [hlen, hlength]
      | cons r rejected =>
        have hlimit := (hmany r List.mem_cons_self).trans (List.length_filter_le ..)
        omega
    · rcases List.mem_append.1 hb with hb | hb
      · exact hle a ha b hb
      · exact hbest.le_of_many (hmany b hb) a ha

end Best

end Select

end Obsy
