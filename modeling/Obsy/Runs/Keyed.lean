import Mathlib.Algebra.BigOperators.Group.Finset.Piecewise
import Mathlib.Algebra.BigOperators.Group.List.Basic
import Mathlib.Data.List.Perm.Basic
import Mathlib.Order.Lattice

/-!
# Sorted maps

A map as the list of its entries in the order of their keys.

* `upsert`: changes the value of a key, or gives it one.
* `flatMap_upsert`: what the values hold after a change that adds to one of them.
* `Ascending`: keys that increase; a change keeps them so (`Ascending.upsert`).
* `lookup_upsert`: what is found in a map after a change.
* `valueAt_upsert_add`: a map of sums after one more summand.
-/

namespace Obsy

namespace Runs

variable {κ β γ : Type*} [LinearOrder κ]

/-- Changes the value of a key; a new one goes to its place in the order. -/
def upsert (key : κ) (change : Option β → β) : List (κ × β) → List (κ × β)
  | [] => [(key, change none)]
  | entry :: rest =>
    if key < entry.1 then (key, change none) :: entry :: rest
    else if key = entry.1 then (key, change (some entry.2)) :: rest
    else entry :: upsert key change rest

/-- The elements of a list as a sorted set. -/
def sortedSet (keys : List κ) : List κ :=
  (keys.foldl (fun set key => upsert key (fun _ => ()) set) []).map Prod.fst

/-- A change that adds to what a value holds adds this to what all values hold. -/
theorem flatMap_upsert {key : κ} {change : Option β → β} {holds : κ × β → List γ} {more : List γ}
    (hnew : holds (key, change none) = more)
    (hold : ∀ value, (holds (key, change (some value))).Perm (holds (key, value) ++ more))
    (entries : List (κ × β)) :
    ((upsert key change entries).flatMap holds).Perm (entries.flatMap holds ++ more) := by
  induction entries with
  | nil => simp [upsert, hnew]
  | cons entry rest ih =>
    rw [upsert]
    split
    · rw [List.flatMap_cons, hnew]
      exact List.perm_append_comm
    · split
      · rename_i heq
        obtain ⟨other, value⟩ := entry
        obtain rfl : key = other := heq
        rw [List.flatMap_cons, List.flatMap_cons, List.append_assoc]
        calc holds (key, change (some value)) ++ rest.flatMap holds
          _ |>.Perm ((holds (key, value) ++ more) ++ rest.flatMap holds) :=
            (hold value).append_right _
          _ |>.Perm (holds (key, value) ++ (rest.flatMap holds ++ more)) := by
            rw [List.append_assoc]
            exact List.perm_append_comm.append_left _
      · rw [List.flatMap_cons, List.flatMap_cons, List.append_assoc]
        exact ih.append_left _

/-- A map of the values goes with a change that it goes with. -/
theorem map_upsert {β' : Type*} {f : β → β'} {key : κ} {change : Option β → β}
    {change' : Option β' → β'} (h : ∀ value, f (change value) = change' (value.map f))
    (entries : List (κ × β)) :
    (upsert key change entries).map (fun entry => (entry.1, f entry.2)) =
      upsert key change' (entries.map fun entry => (entry.1, f entry.2)) := by
  induction entries with
  | nil => simp [upsert, h]
  | cons entry rest ih =>
    rw [upsert, List.map_cons, upsert]
    split
    · simp [h]
    · split
      · simp [h]
      · rw [List.map_cons, ih]

/-! ### Increasing keys -/

/-- The keys increase strictly. -/
def Ascending (entries : List (κ × β)) : Prop := entries.Pairwise fun a b => a.1 < b.1

theorem mem_keys_upsert {key other : κ} {change : Option β → β} {entries : List (κ × β)} :
    other ∈ (upsert key change entries).map Prod.fst ↔
      other = key ∨ other ∈ entries.map Prod.fst := by
  induction entries with
  | nil => simp [upsert]
  | cons entry rest ih =>
    rw [upsert]
    split
    · rw [List.map_cons, List.mem_cons]
    · split
      case isTrue heq => simp [heq]
      case isFalse =>
        rw [List.map_cons, List.mem_cons, ih, List.map_cons, List.mem_cons]
        exact or_left_comm

theorem ascending_iff_keys {entries : List (κ × β)} :
    Ascending entries ↔ (entries.map Prod.fst).Pairwise (· < ·) :=
  List.pairwise_map.symm

theorem Ascending.upsert {entries : List (κ × β)} (h : Ascending entries) (key : κ)
    (change : Option β → β) : Ascending (upsert key change entries) := by
  induction entries with
  | nil => exact List.pairwise_singleton _ _
  | cons entry rest ih =>
    obtain ⟨hentry, hrest⟩ := List.pairwise_cons.1 h
    rw [Runs.upsert]
    split
    case isTrue hlt =>
      refine List.pairwise_cons.2 ⟨fun other hother => ?_, h⟩
      rcases List.mem_cons.1 hother with rfl | hother
      · exact hlt
      · exact hlt.trans (hentry other hother)
    case isFalse hle =>
      split
      case isTrue heq => exact List.pairwise_cons.2 ⟨fun other hother => heq ▸ hentry other hother, hrest⟩
      case isFalse hne =>
        refine List.pairwise_cons.2 ⟨fun other hother => ?_, ih hrest⟩
        have hkey := mem_keys_upsert.1 (List.mem_map_of_mem (f := Prod.fst) hother)
        rcases hkey with heq | hmem
        · rw [heq]
          exact lt_of_le_of_ne (not_lt.1 hle) (Ne.symm hne)
        · obtain ⟨other', hother', heq⟩ := List.mem_map.1 hmem
          exact heq ▸ hentry other' hother'

section Lookup

variable [BEq κ] [LawfulBEq κ]

theorem Ascending.lookup_eq_some {entries : List (κ × β)} (h : Ascending entries) {key : κ}
    {value : β} : entries.lookup key = some value ↔ (key, value) ∈ entries := by
  induction entries with
  | nil => simp
  | cons entry rest ih =>
    obtain ⟨hfirst, hrest⟩ := List.pairwise_cons.1 h
    obtain ⟨other, found⟩ := entry
    rw [List.lookup_cons, List.mem_cons, Prod.mk.injEq]
    by_cases heq : key = other
    · subst heq
      rw [beq_self_eq_true, Option.some_inj, and_iff_right rfl]
      refine ⟨fun h => .inl h.symm, fun h => ?_⟩
      rcases h with h | h
      · exact h.symm
      · exact absurd (hfirst _ h) (lt_irrefl _)
    · rw [beq_eq_false_iff_ne.2 heq, ih hrest]
      exact (or_iff_right fun h => heq h.1).symm

theorem Ascending.lookup_eq_none {entries : List (κ × β)} (h : Ascending entries) {key : κ} :
    entries.lookup key = none ↔ ∀ value, (key, value) ∉ entries := by
  rw [Option.eq_none_iff_forall_not_mem]
  exact forall_congr' fun value => not_congr h.lookup_eq_some

/-- A sorted map is what is found in it. -/
theorem Ascending.eq_of_lookup {entries entries' : List (κ × β)} (h : Ascending entries)
    (h' : Ascending entries') (hlookup : ∀ key, entries.lookup key = entries'.lookup key) :
    entries = entries' := by
  have hnodup : ∀ {entries : List (κ × β)}, Ascending entries → entries.Nodup := fun h =>
    List.Pairwise.imp (fun hlt heq => hlt.ne (congrArg Prod.fst heq)) h
  have hperm : entries.Perm entries' := by
    refine (List.perm_ext_iff_of_nodup (hnodup h) (hnodup h')).2 fun entry => ?_
    rw [← h.lookup_eq_some, hlookup, h'.lookup_eq_some]
  exact hperm.eq_of_pairwise (fun _ _ _ _ hlt hgt => absurd (hlt.trans hgt) (lt_irrefl _)) h h'

/-- A change is seen under its key, and nowhere else. -/
theorem lookup_upsert {entries : List (κ × β)} (h : Ascending entries) (key other : κ)
    (change : Option β → β) :
    (upsert key change entries).lookup other =
      if other = key then some (change (entries.lookup key)) else entries.lookup other := by
  induction entries with
  | nil =>
    by_cases heq : other = key
    · subst heq
      rw [upsert, List.lookup_cons_self, if_pos rfl, List.lookup_nil]
    · rw [upsert, List.lookup_cons, beq_eq_false_iff_ne.2 heq, if_neg heq]
  | cons entry rest ih =>
    obtain ⟨hfirst, hrest⟩ := List.pairwise_cons.1 h
    rw [upsert]
    split
    case isTrue hlt =>
      have hnone : (entry :: rest).lookup key = none := h.lookup_eq_none.2 fun value hmem => by
        rcases List.mem_cons.1 hmem with heq | hmem
        · rw [← heq] at hlt
          exact lt_irrefl _ hlt
        · exact absurd (hlt.trans (hfirst _ hmem)) (lt_irrefl _)
      rw [List.lookup_cons, hnone]
      by_cases heq : other = key
      · rw [beq_iff_eq.2 heq, if_pos heq]
      · rw [beq_eq_false_iff_ne.2 heq, if_neg heq]
    case isFalse =>
      split
      case isTrue heq =>
        subst heq
        rw [List.lookup_cons, List.lookup_cons, List.lookup_cons, beq_self_eq_true]
        by_cases heq : other = entry.1
        · rw [beq_iff_eq.2 heq, if_pos heq]
        · rw [beq_eq_false_iff_ne.2 heq, if_neg heq]
      case isFalse hne =>
        rw [List.lookup_cons, List.lookup_cons, List.lookup_cons, beq_eq_false_iff_ne.2 hne,
          ih hrest]
        by_cases heq : other = entry.1
        · have hother : other ≠ key := fun h => hne (h.symm.trans heq)
          rw [beq_iff_eq.2 heq, if_neg hother, if_neg hother]
        · rw [beq_eq_false_iff_ne.2 heq]

end Lookup

/-! ### Maps of sums -/

section

variable [AddCommMonoid β]

/-- The values of a key, together. -/
def valueAt (key : κ) (entries : List (κ × β)) : β :=
  (entries.map fun entry => if entry.1 = key then entry.2 else 0).sum

theorem valueAt_cons (key : κ) (entry : κ × β) (rest : List (κ × β)) :
    valueAt key (entry :: rest) = (if entry.1 = key then entry.2 else 0) + valueAt key rest :=
  List.sum_cons

theorem valueAt_upsert_add (key other : κ) (more : β) (entries : List (κ × β)) :
    valueAt other (upsert key (fun old => old.getD 0 + more) entries) =
      valueAt other entries + if key = other then more else 0 := by
  induction entries with
  | nil => simp [upsert, valueAt]
  | cons entry rest ih =>
    rw [upsert]
    split
    · rw [valueAt_cons, Option.getD_none, zero_add, add_comm]
    · split
      case isTrue heq =>
        subst heq
        rw [valueAt_cons, valueAt_cons, Option.getD_some]
        by_cases h : entry.1 = other
        · rw [if_pos h, if_pos h, if_pos h, add_right_comm]
        · rw [if_neg h, if_neg h, if_neg h, add_zero]
      case isFalse => rw [valueAt_cons, valueAt_cons, ih, add_assoc]

theorem valueAt_of_not_mem {key : κ} {entries : List (κ × β)} (h : key ∉ entries.map Prod.fst) :
    valueAt key entries = 0 := by
  refine List.sum_eq_zero fun value hvalue => ?_
  obtain ⟨entry, hentry, rfl⟩ := List.mem_map.1 hvalue
  have hne : entry.1 ≠ key := fun heq => h (List.mem_map.2 ⟨entry, hentry, heq⟩)
  exact if_neg hne

/-- Where keys increase the value of a key is that of its entry. -/
theorem Ascending.valueAt_of_mem {entries : List (κ × β)} (h : Ascending entries) {entry : κ × β}
    (hentry : entry ∈ entries) : valueAt entry.1 entries = entry.2 := by
  induction entries with
  | nil => cases hentry
  | cons first rest ih =>
    obtain ⟨hfirst, hrest⟩ := List.pairwise_cons.1 h
    rw [valueAt_cons]
    rcases List.mem_cons.1 hentry with rfl | hmem
    · have hnone : entry.1 ∉ rest.map Prod.fst := by
        intro hkey
        obtain ⟨other, hother, heq⟩ := List.mem_map.1 hkey
        exact (hfirst other hother).ne' heq
      rw [if_pos rfl, valueAt_of_not_mem hnone, add_zero]
    · rw [if_neg (hfirst entry hmem).ne, zero_add, ih hrest hmem]

/-- A fold that adds to the value of a key at every step. -/
theorem valueAt_foldl_upsert {α : Type*} (key : α → κ) (value : α → β) (other : κ) (items : List α)
    (entries : List (κ × β)) :
    valueAt other (items.foldl (fun entries item =>
        upsert (key item) (fun old => old.getD 0 + value item) entries) entries) =
      valueAt other entries + valueAt other (items.map fun item => (key item, value item)) := by
  induction items generalizing entries with
  | nil => exact (add_zero _).symm
  | cons item items ih =>
    rw [List.foldl_cons, ih, valueAt_upsert_add, List.map_cons, valueAt_cons, add_assoc]

/-- The values of some keys, together. -/
theorem sum_valueAt (keys : Finset κ) (entries : List (κ × β)) :
    ∑ key ∈ keys, valueAt key entries =
      (entries.map fun entry => if entry.1 ∈ keys then entry.2 else 0).sum := by
  induction entries with
  | nil => exact Finset.sum_const_zero
  | cons entry rest ih =>
    simp only [valueAt_cons, Finset.sum_add_distrib, ih, Finset.sum_ite_eq, List.map_cons,
      List.sum_cons]

end

end Runs

end Obsy
