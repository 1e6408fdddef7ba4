import Mathlib.Algebra.BigOperators.Group.Multiset.Basic
import Mathlib.Data.List.AList

/-!
# Finite maps and what they add up to

A `Table` has each of its keys once.  A tally adds something up over its entries: a number, a
multiset, anything that is added in any order.

* `tally_insert`, `tally_erase`, `tally_split`: what one entry contributes.
* `tally_keys`: a tally over the keys and what is found under them.
* `Table.mapValues`: a change of every value.
-/

namespace Obsy

namespace Runs

/-- A finite map. -/
abbrev Table (κ α : Type) : Type := AList fun _ : κ => α

namespace Table

variable {κ α β M : Type} [AddCommMonoid M] {f : κ → α → M} {t : Table κ α} {k : κ} {v : α}

/-- What the entries of a table add up to. -/
def tally (f : κ → α → M) (t : Table κ α) : M := (t.entries.map fun e => f e.1 e.2).sum

/-- Change every value. -/
def mapValues (g : κ → α → β) (t : Table κ α) : Table κ β :=
  ⟨t.entries.map fun e => ⟨e.1, g e.1 e.2⟩, by
    have h := t.nodupKeys
    simpa [List.NodupKeys, List.keys, List.map_map, Function.comp_def] using h⟩

/-- The entries that meet a condition. -/
def filter (keep : κ → α → Bool) (t : Table κ α) : Table κ α :=
  ⟨t.entries.filter fun e => keep e.1 e.2,
    t.nodupKeys.sublist List.filter_sublist⟩

@[simp] theorem tally_empty (f : κ → α → M) : tally f (∅ : Table κ α) = 0 := rfl

@[simp] theorem tally_mapValues (f : κ → β → M) (g : κ → α → β) (t : Table κ α) :
    tally f (t.mapValues g) = tally (fun k v => f k (g k v)) t := by
  simp [tally, mapValues, List.map_map, Function.comp_def]

theorem tally_add (f g : κ → α → M) (t : Table κ α) :
    tally (fun k v => f k v + g k v) t = tally f t + tally g t := by
  rw [tally, tally, tally, ← List.sum_map_add]

theorem tally_zero (t : Table κ α) : tally (fun _ _ => (0 : M)) t = 0 := by
  rw [tally, List.map_const', List.sum_replicate, nsmul_zero]

theorem tally_congr {f g : κ → α → M} (h : ∀ k v, (⟨k, v⟩ : (_ : κ) × α) ∈ t.entries →
    f k v = g k v) : tally f t = tally g t := by
  rw [tally, tally, List.map_congr_left fun e he => h e.1 e.2 he]

theorem tally_singleton (t : Table κ α) :
    tally (fun k _ => ({k} : Multiset κ)) t = (t.keys : Multiset κ) := by
  rw [tally, AList.keys, List.keys]
  generalize t.entries = entries
  induction entries with
  | nil => rfl
  | cons e rest ih =>
    rw [List.map_cons, List.sum_cons, ih, List.map_cons, ← Multiset.cons_coe,
      Multiset.singleton_add]

theorem tally_filter {keep : κ → α → Bool} (h : ∀ k v, keep k v = false → f k v = 0)
    (t : Table κ α) : tally f (t.filter keep) = tally f t := by
  show ((t.entries.filter fun e => keep e.1 e.2).map fun e => f e.1 e.2).sum = tally f t
  rw [tally]
  generalize t.entries = entries
  induction entries with
  | nil => rfl
  | cons e rest ih =>
    rw [List.filter_cons]
    split
    · rw [List.map_cons, List.sum_cons, ih, List.map_cons, List.sum_cons]
    · rename_i hdrop
      rw [ih, List.map_cons, List.sum_cons, h e.1 e.2 (by simpa using hdrop), zero_add]

variable [DecidableEq κ]

theorem entries_perm (h : t.lookup k = some v) :
    t.entries.Perm (⟨k, v⟩ :: (t.erase k).entries) := by
  have hmem : (⟨k, v⟩ : (_ : κ) × α) ∈ t.entries := AList.mem_lookup_iff.1 h
  have hnodup := t.nodupKeys
  show t.entries.Perm (⟨k, v⟩ :: t.entries.kerase k)
  generalize t.entries = entries at hmem hnodup
  induction entries with
  | nil => cases hmem
  | cons first rest ih =>
    rw [List.nodupKeys_cons] at hnodup
    by_cases hkey : k = first.1
    · rw [List.kerase_cons_eq hkey]
      rcases List.mem_cons.1 hmem with rfl | hrest
      · exact List.Perm.refl _
      · exact absurd (hkey ▸ List.mem_keys_of_mem hrest) hnodup.1
    · have hrest : (⟨k, v⟩ : (_ : κ) × α) ∈ rest :=
        (List.mem_cons.1 hmem).resolve_left fun h => hkey (congrArg Sigma.fst h)
      rw [List.kerase_cons_ne hkey]
      exact ((ih hrest hnodup.2).cons first).trans (List.Perm.swap _ _ _)

/-- **What a new entry adds**, once what was there is gone. -/
theorem tally_insert (f : κ → α → M) (t : Table κ α) (k : κ) (v : α) :
    tally f (t.insert k v) = f k v + tally f (t.erase k) := rfl

/-- **What an entry contributes.** -/
theorem tally_erase (f : κ → α → M) (h : t.lookup k = some v) :
    tally f t = f k v + tally f (t.erase k) := by
  rw [tally, ((entries_perm h).map _).sum_eq]
  rfl

theorem erase_eq_self (h : t.lookup k = none) : t.erase k = t :=
  AList.ext (List.kerase_of_notMem_keys (AList.lookup_eq_none.1 h))

/-- A tally is what is found under a key and the rest. -/
theorem tally_split (f : κ → α → M) (t : Table κ α) (k : κ) :
    tally f t = (t.lookup k).elim 0 (f k) + tally f (t.erase k) := by
  cases h : t.lookup k with
  | none => rw [erase_eq_self h, Option.elim_none, zero_add]
  | some v => exact tally_erase f h

/-- A tally to which a value that is made up contributes nothing. -/
theorem tally_getD {f : κ → α → M} {d : α} {k : κ} (hd : f k d = 0) (t : Table κ α) :
    tally f t = f k ((t.lookup k).getD d) + tally f (t.erase k) := by
  rw [tally_split _ t k]
  cases t.lookup k with
  | none => rw [Option.elim_none, Option.getD_none, hd]
  | some v => rfl

theorem erase_insert (t : Table κ α) (k : κ) (v : α) : (t.insert k v).erase k = t.erase k :=
  AList.ext (List.kerase_cons_eq rfl)

/-- A tally is over the keys, and what is found under them. -/
theorem tally_keys (f : κ → α → M) (t : Table κ α) :
    tally f t = (t.keys.map fun k => (t.lookup k).elim 0 (f k)).sum := by
  have hlookup : ∀ e ∈ t.entries, (t.lookup e.1).elim 0 (f e.1) = f e.1 e.2 := by
    intro e he
    rw [Option.mem_def.1 (AList.mem_lookup_iff.2 (show (⟨e.1, e.2⟩ : (_ : κ) × α) ∈ t.entries from he))]
    rfl
  rw [AList.keys, List.keys, List.map_map, tally, ← List.map_congr_left hlookup]
  rfl

theorem lookup_mapValues (g : κ → α → β) (t : Table κ α) (k : κ) :
    (t.mapValues g).lookup k = (t.lookup k).map (g k) :=
  List.dlookup_map₂ k

/-- An entry contributes no more than all of them. -/
theorem le_tally {f : κ → α → ℕ} (h : t.lookup k = some v) : f k v ≤ tally f t := by
  rw [tally_erase f h]
  exact Nat.le_add_right _ _

end Table

end Runs

end Obsy
