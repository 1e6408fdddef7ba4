import Mathlib.Data.List.Basic
import Mathlib.Data.List.Range
import Mathlib.Data.List.Sort

/-!
# Reading some of the groups

A reader that passes over groups, in their order, loses nothing of what it looks for if no group it
passes over has any of that.

* `filter_selected`: the items found in the groups read are those found in all groups.
* `perm_flatMap_filter`: items sorted into bins are all there.
* `exists_perm_filterMap`: every order of what is selected is had by an order of all.
-/

namespace Obsy

namespace Runs

variable {α β : Type*}

/-- Ordinals in their order are the ones among all ordinals. -/
theorem eq_filter_range {n : ℕ} {selected : List ℕ} (hsorted : selected.Pairwise (· < ·))
    (hlt : ∀ g ∈ selected, g < n) :
    selected = (List.range n).filter fun g => decide (g ∈ selected) := by
  have hsub : ((List.range n).filter fun g => decide (g ∈ selected)).Pairwise (· < ·) :=
    List.pairwise_lt_range.filter _
  refine List.Perm.eq_of_pairwise (fun a b _ _ hab hba => absurd (hab.trans hba) (lt_irrefl a))
    hsorted hsub ?_
  refine (List.perm_ext_iff_of_nodup hsorted.nodup hsub.nodup).2 fun g => ?_
  rw [List.mem_filter, List.mem_range, decide_eq_true_eq]
  exact ⟨fun h => ⟨hlt g h, h⟩, fun h => h.2⟩

/-- Items that contribute nothing can be passed over. -/
theorem flatMap_filter_of_nil {f : α → List β} {keep : α → Bool} {items : List α}
    (h : ∀ a ∈ items, keep a = false → f a = []) :
    (items.filter keep).flatMap f = items.flatMap f := by
  induction items with
  | nil => rfl
  | cons a items ih =>
    have hrest := ih fun b hb => h b (List.mem_cons_of_mem _ hb)
    cases hk : keep a with
    | true => rw [List.filter_cons_of_pos hk, List.flatMap_cons, List.flatMap_cons, hrest]
    | false =>
      rw [List.filter_cons_of_neg (by simp [hk]), List.flatMap_cons, h a List.mem_cons_self hk,
        List.nil_append, hrest]

theorem flatMap_range_getD (groups : List (List α)) :
    (List.range groups.length).flatMap (fun g => groups.getD g []) = groups.flatten := by
  induction groups with
  | nil => rfl
  | cons group groups ih =>
    rw [List.length_cons, List.range_succ_eq_map, List.flatMap_cons, List.flatMap_map,
      List.flatten_cons, ← ih]
    rfl

/-- Nothing wanted is in a group passed over. -/
theorem filter_selected {groups : List (List α)} {selected : List ℕ} {p : α → Bool}
    (hsorted : selected.Pairwise (· < ·)) (hlt : ∀ g ∈ selected, g < groups.length)
    (hall : ∀ g group, groups[g]? = some group → ∀ a ∈ group, p a = true → g ∈ selected) :
    (selected.flatMap fun g => groups.getD g []).filter p = groups.flatten.filter p := by
  rw [← flatMap_range_getD groups, List.filter_flatMap, List.filter_flatMap]
  conv_lhs => rw [eq_filter_range hsorted hlt]
  refine flatMap_filter_of_nil fun g hg hnot => ?_
  refine List.filter_eq_nil_iff.2 fun a ha hp => ?_
  have hget : groups[g]? = some (groups.getD g []) := by
    rw [List.getD_eq_getElem?_getD, List.getElem?_eq_getElem (List.mem_range.1 hg),
      Option.getD_some]
  exact absurd (hall g _ hget a ha hp) (by simpa using hnot)

/-! ### Bins -/

variable {κ : Type*} [DecidableEq κ]

theorem perm_filter_mem (binOf : α → κ) {bins : List κ} (hnodup : bins.Nodup) (items : List α) :
    (bins.flatMap fun bin => items.filter fun a => binOf a = bin).Perm
      (items.filter fun a => binOf a ∈ bins) := by
  induction bins with
  | nil => simp
  | cons bin bins ih =>
    obtain ⟨hnew, hrest⟩ := List.nodup_cons.1 hnodup
    have hsplit := List.filter_append_perm (fun a => decide (binOf a = bin))
      (items.filter fun a => binOf a ∈ bin :: bins)
    rw [List.filter_filter, List.filter_filter] at hsplit
    rw [List.flatMap_cons]
    refine ((ih hrest).append_left _).trans (List.Perm.trans (List.Perm.of_eq ?_) hsplit)
    congr 1 <;> refine List.filter_congr fun a _ => ?_
    · by_cases ha : binOf a = bin <;> simp [ha]
    · by_cases ha : binOf a = bin
      · simp [ha, hnew]
      · simp [ha]

/-- **Nothing is lost in bins**, each of them taken once. -/
theorem perm_flatMap_filter (binOf : α → κ) {bins : List κ} (hnodup : bins.Nodup)
    (items : List α) (hall : ∀ a ∈ items, binOf a ∈ bins) :
    (bins.flatMap fun bin => items.filter fun a => binOf a = bin).Perm items := by
  have hkeep : items.filter (fun a => binOf a ∈ bins) = items :=
    List.filter_eq_self.2 fun a ha => decide_eq_true (hall a ha)
  exact (perm_filter_mem binOf hnodup items).trans (List.Perm.of_eq hkeep)

/-- Every order of what is selected is that of what some order of all items selects. -/
theorem exists_perm_filterMap {f : α → Option β} {selected others : List β}
    (h : selected.Perm others) {items : List α} (hitems : items.filterMap f = selected) :
    ∃ items' : List α, items'.Perm items ∧ items'.filterMap f = others := by
  induction h generalizing items with
  | nil => exact ⟨items, List.Perm.refl _, hitems⟩
  | cons b _ ih =>
    obtain ⟨before, a, after, rfl, hbefore, ha, hafter⟩ := List.filterMap_eq_cons_iff.1 hitems
    obtain ⟨after', hperm, hfound⟩ := ih hafter
    refine ⟨before ++ a :: after', (hperm.cons a).append_left before, ?_⟩
    rw [List.filterMap_append, List.filterMap_eq_nil_iff.2 hbefore, List.nil_append,
      List.filterMap_cons_some ha, hfound]
  | swap b c rest =>
    obtain ⟨before, a, after, rfl, hbefore, ha, hafter⟩ := List.filterMap_eq_cons_iff.1 hitems
    obtain ⟨between, a', after', rfl, hbetween, ha', hafter'⟩ := List.filterMap_eq_cons_iff.1 hafter
    refine ⟨before ++ a' :: (between ++ a :: after'), ?_, ?_⟩
    · refine List.Perm.append_left before ?_
      calc a' :: (between ++ a :: after')
        _ |>.Perm (a' :: a :: (between ++ after')) := (List.perm_middle).cons a'
        _ |>.Perm (a :: a' :: (between ++ after')) := List.Perm.swap _ _ _
        _ |>.Perm (a :: (between ++ a' :: after')) := (List.perm_middle.symm).cons a
    · rw [List.filterMap_append, List.filterMap_eq_nil_iff.2 hbefore, List.nil_append,
        List.filterMap_cons_some ha', List.filterMap_append, List.filterMap_eq_nil_iff.2 hbetween,
        List.nil_append, List.filterMap_cons_some ha, hafter']
  | trans _ _ ih ih' =>
    obtain ⟨items', hperm, hfound⟩ := ih hitems
    obtain ⟨items'', hperm', hfound'⟩ := ih' hfound
    exact ⟨items'', hperm'.trans hperm, hfound'⟩

end Runs

end Obsy
