import Mathlib.Data.List.Sort
import Mathlib.Order.Basic

/-!
# Lists in the order of a key

Sorting by a key is stable, so it goes with every selection; in a list that is in the order of its
keys, a bound on the keys cuts off a beginning and an end.

* `filter_mergeSort`: a selection of what was sorted is what was selected, sorted.
* `takeWhile_eq_filter`, `dropWhile_eq_filter`, `filter_append_filter`: a bound cuts a sorted list in
  two.
* `getLast?_filter`: the last of a sorted list with a key from a bound on.
-/

namespace Obsy

namespace Runs

variable {α κ : Type*} [LinearOrder κ] {key : α → κ}

/-! ### Sorting -/

/-- A selected element goes to its place among the selected ones. -/
theorem filter_orderedInsert (p : α → Bool) (a : α) {items : List α}
    (hsorted : items.Pairwise fun x y => key x ≤ key y) :
    (items.orderedInsert (fun x y => key x ≤ key y) a).filter p =
      if p a then (items.filter p).orderedInsert (fun x y => key x ≤ key y) a
      else items.filter p := by
  induction items with
  | nil => cases h : p a <;> simp [h]
  | cons b items ih =>
    obtain ⟨hb, hrest⟩ := List.pairwise_cons.1 hsorted
    rw [List.orderedInsert_cons]
    by_cases hab : key a ≤ key b
    · rw [if_pos hab, List.filter_cons]
      by_cases hp : p a = true
      · rw [if_pos hp, if_pos hp]
        -- nothing that is left is before the new element
        have hfirst : ∀ x ∈ (b :: items).filter p, key a ≤ key x := by
          intro x hx
          rcases List.mem_cons.1 (List.mem_of_mem_filter hx) with rfl | hx
          · exact hab
          · exact hab.trans (hb x hx)
        cases hfilter : (b :: items).filter p with
        | nil => rfl
        | cons c rest =>
          rw [hfilter] at hfirst
          rw [List.orderedInsert_cons, if_pos (hfirst c List.mem_cons_self)]
      · rw [if_neg hp, if_neg hp]
    · rw [if_neg hab, List.filter_cons, ih hrest, List.filter_cons]
      by_cases hpb : p b = true
      · rw [if_pos hpb, if_pos hpb]
        by_cases hp : p a = true
        · rw [if_pos hp, if_pos hp, List.orderedInsert_cons, if_neg hab]
        · rw [if_neg hp, if_neg hp]
      · rw [if_neg hpb, if_neg hpb]

theorem pairwise_mergeSort (items : List α) :
    (items.mergeSort fun x y => key x ≤ key y).Pairwise fun x y => key x ≤ key y := by
  have h := @List.pairwise_mergeSort α (fun x y => decide (key x ≤ key y))
    (fun _ _ _ hxy hyz => decide_eq_true ((of_decide_eq_true hxy).trans (of_decide_eq_true hyz)))
    (fun x y => by rw [Bool.or_eq_true, decide_eq_true_eq, decide_eq_true_eq]; exact le_total _ _)
    items
  exact h.imp of_decide_eq_true

/-- One more element in front is inserted before its equals. -/
theorem mergeSort_cons (a : α) (items : List α) :
    (a :: items).mergeSort (fun x y => key x ≤ key y) =
      (items.mergeSort fun x y => key x ≤ key y).orderedInsert (fun x y => key x ≤ key y) a := by
  obtain ⟨before, after, hwith, hwithout, hbefore⟩ :=
    @List.mergeSort_cons α (fun x y => decide (key x ≤ key y))
      (fun _ _ _ hxy hyz => decide_eq_true ((of_decide_eq_true hxy).trans (of_decide_eq_true hyz)))
      (fun x y => by
        rw [Bool.or_eq_true, decide_eq_true_eq, decide_eq_true_eq]
        exact le_total _ _) a items
  have hsorted := @pairwise_mergeSort α κ _ key (a :: items)
  rw [hwith] at hsorted
  rw [hwith, hwithout]
  clear hwith hwithout
  induction before with
  | nil =>
    cases after with
    | nil => rfl
    | cons c after =>
      have hac : key a ≤ key c := (List.pairwise_cons.1 hsorted).1 c List.mem_cons_self
      rw [List.nil_append, List.nil_append, List.orderedInsert_cons, if_pos hac]
  | cons b before ih =>
    have hab : ¬ key a ≤ key b := by
      have := hbefore b List.mem_cons_self
      rwa [Bool.not_eq_true', decide_eq_false_iff_not] at this
    rw [List.cons_append, List.cons_append, List.orderedInsert_cons, if_neg hab,
      ← ih (fun x hx => hbefore x (List.mem_cons_of_mem _ hx)) (List.pairwise_cons.1 hsorted).2]

/-- **Sorting by a key goes with every selection.** -/
theorem filter_mergeSort (p : α → Bool) (items : List α) :
    (items.mergeSort fun x y => key x ≤ key y).filter p =
      (items.filter p).mergeSort fun x y => key x ≤ key y := by
  induction items with
  | nil => rw [List.mergeSort_nil, List.filter_nil, List.mergeSort_nil]
  | cons a items ih =>
    rw [mergeSort_cons, filter_orderedInsert p a (pairwise_mergeSort items), ih, List.filter_cons]
    split
    · rw [mergeSort_cons]
    · rfl

/-! ### Sorted lists -/

variable {items : List α}

/-- A bound on the keys holds at the beginning. -/
theorem takeWhile_eq_filter {p : α → Bool} (hsorted : items.Pairwise fun x y => key x ≤ key y)
    (hp : ∀ x ∈ items, ∀ y ∈ items, key x ≤ key y → p y = true → p x = true) :
    items.takeWhile p = items.filter p := by
  induction items with
  | nil => rfl
  | cons a items ih =>
    obtain ⟨ha, hrest⟩ := List.pairwise_cons.1 hsorted
    have hp' := fun x hx y hy => hp x (List.mem_cons_of_mem a hx) y (List.mem_cons_of_mem a hy)
    by_cases h : p a = true
    · rw [List.takeWhile_cons_of_pos h, List.filter_cons_of_pos h, ih hrest hp']
    · rw [List.takeWhile_cons_of_neg h, List.filter_cons_of_neg h]
      refine (List.filter_eq_nil_iff.2 fun x hx hpx => h ?_).symm
      exact hp a List.mem_cons_self x (List.mem_cons_of_mem a hx) (ha x hx) hpx

/-- What does not meet it is the end. -/
theorem dropWhile_eq_filter {p : α → Bool} (hsorted : items.Pairwise fun x y => key x ≤ key y)
    (hp : ∀ x ∈ items, ∀ y ∈ items, key x ≤ key y → p y = true → p x = true) :
    items.dropWhile p = items.filter fun x => !p x := by
  induction items with
  | nil => rfl
  | cons a items ih =>
    obtain ⟨ha, hrest⟩ := List.pairwise_cons.1 hsorted
    have hp' := fun x hx y hy => hp x (List.mem_cons_of_mem a hx) y (List.mem_cons_of_mem a hy)
    by_cases h : p a = true
    · rw [List.dropWhile_cons_of_pos h, List.filter_cons_of_neg (by rw [h]; decide), ih hrest hp']
    · rw [List.dropWhile_cons_of_neg h, eq_comm, List.filter_eq_self]
      intro x hx
      rw [Bool.not_eq_true', Bool.eq_false_iff]
      rcases List.mem_cons.1 hx with rfl | hx
      · exact h
      · intro hpx
        exact h (hp a List.mem_cons_self x (List.mem_cons_of_mem a hx) (ha x hx) hpx)

/-- A bound cuts a sorted list in two. -/
theorem filter_append_filter {p : α → Bool} (hsorted : items.Pairwise fun x y => key x ≤ key y)
    (hp : ∀ x ∈ items, ∀ y ∈ items, key x ≤ key y → p y = true → p x = true) :
    items.filter p ++ items.filter (fun x => !p x) = items := by
  rw [← takeWhile_eq_filter hsorted hp, ← dropWhile_eq_filter hsorted hp,
    List.takeWhile_append_dropWhile]

/-- The last from a bound on is the last of all, if that is. -/
theorem getLast?_filter (hsorted : items.Pairwise fun x y => key x ≤ key y) {p : α → Bool}
    (hp : ∀ x y, key x ≤ key y → p x = true → p y = true) :
    (items.filter p).getLast? = items.getLast?.filter p := by
  rcases List.eq_nil_or_concat items with rfl | ⟨front, last, rfl⟩
  · rfl
  · rw [List.concat_eq_append] at hsorted ⊢
    rw [List.filter_append, List.getLast?_concat]
    by_cases h : p last = true
    · rw [List.filter_cons_of_pos h, List.filter_nil, List.getLast?_concat, Option.filter_some,
        if_pos h]
    · have hfront : front.filter p = [] := List.filter_eq_nil_iff.2 fun x hx hpx =>
        h (hp x last ((List.pairwise_append.1 hsorted).2.2 x hx last List.mem_cons_self) hpx)
      rw [List.filter_cons_of_neg h, hfront, Option.filter_some, if_neg h]
      rfl

end Runs

end Obsy
