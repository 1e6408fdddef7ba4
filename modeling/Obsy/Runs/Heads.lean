import Mathlib.Data.List.Sort
import Mathlib.Order.Defs.LinearOrder

/-!
# Merging streams by their heads

Streams in the order of a key are merged with a heap, in which each stream has its next item.  Items
of the same key come out together, and then each of their streams adds the item behind it.

* `pushHead`, `advance`: a stream adds its next item; of items with one key an earlier stream is first.
* `mergedGroups`: the groups of a merge.
* `pairwise_mergedGroups`: their keys increase.
-/

namespace Obsy

namespace Runs

variable {ρ κ : Type*} [LinearOrder κ] (key : ρ → κ)

structure Head (ρ : Type*) where
  stream : ℕ
  item : ρ
deriving DecidableEq

/-- The order of the heap. -/
def Head.Before (a b : Head ρ) : Prop :=
  key a.item < key b.item ∨ key a.item = key b.item ∧ a.stream ≤ b.stream

instance : DecidableRel (Head.Before key) := fun _ _ => inferInstanceAs (Decidable (_ ∨ _))

/-- What the streams hold back, and the heap. -/
abbrev Heads (ρ : Type*) := List (List ρ) × List (Head ρ)

def pushHead (head : Head ρ) (heap : List (Head ρ)) : List (Head ρ) :=
  heap.orderedInsert (Head.Before key) head

/-- A stream adds its next item to the heap. -/
def advance (heads : Heads ρ) (stream : ℕ) : Heads ρ :=
  match heads.1[stream]? with
  | some (item :: rest) => (heads.1.set stream rest, pushHead key ⟨stream, item⟩ heads.2)
  | _ => heads

/-- The least head with those of its key, until the heap is empty.  A round takes an item at least. -/
def groups : ℕ → Heads ρ → List (Head ρ × List (Head ρ))
  | 0, _ => []
  | fuel + 1, heads =>
    match heads.2 with
    | [] => []
    | first :: heap =>
      let others := heap.takeWhile fun head => key head.item = key first.item
      let left := heap.dropWhile fun head => key head.item = key first.item
      (first, others) ::
        groups fuel (((first :: others).map Head.stream).foldl (advance key) (heads.1, left))

def mergedGroups (streams : List (List ρ)) : List (Head ρ × List (Head ρ)) :=
  groups key streams.flatten.length
    ((List.range streams.length).foldl (advance key) (streams, []))

/-! ### Advancing -/

/-- No stream and no head is out of order; a stream that waits may have no head in the heap. -/
structure Ordered (heads : Heads ρ) (waiting : List ℕ) : Prop where
  heap : heads.2.Pairwise fun a b => key a.item ≤ key b.item
  streams : ∀ (stream : ℕ) items, heads.1[stream]? = some items →
    items.Pairwise fun a b => key a < key b
  behind : ∀ head ∈ heads.2, ∀ items, heads.1[head.stream]? = some items →
    ∀ item ∈ items, key head.item < key item
  listed : ∀ (stream : ℕ) items, heads.1[stream]? = some items → items ≠ [] →
    stream ∈ waiting ∨ ∃ head ∈ heads.2, head.stream = stream

/-- Everything that is left has a greater key. -/
def Above (bound : κ) (heads : Heads ρ) : Prop :=
  (∀ head ∈ heads.2, bound < key head.item) ∧
    ∀ (stream : ℕ) items, heads.1[stream]? = some items → ∀ item ∈ items, bound < key item

variable {key} {heads : Heads ρ} {waiting : List ℕ}

theorem Head.Before.le {a b : Head ρ} (h : Head.Before key a b) : key a.item ≤ key b.item :=
  h.elim le_of_lt fun h => h.1.le

theorem mem_pushHead {head other : Head ρ} {heap : List (Head ρ)} :
    other ∈ pushHead key head heap ↔ other = head ∨ other ∈ heap := List.mem_orderedInsert _

theorem pairwise_pushHead {heap : List (Head ρ)} (h : heap.Pairwise fun a b => key a.item ≤ key b.item)
    (head : Head ρ) : (pushHead key head heap).Pairwise fun a b => key a.item ≤ key b.item := by
  induction heap with
  | nil => exact List.pairwise_singleton _ _
  | cons first heap ih =>
    obtain ⟨hfirst, hrest⟩ := List.pairwise_cons.1 h
    rw [pushHead, List.orderedInsert_cons]
    split
    case isTrue hbefore =>
      refine List.pairwise_cons.2 ⟨fun other hother => ?_, h⟩
      rcases List.mem_cons.1 hother with rfl | hother
      · exact hbefore.le
      · exact hbefore.le.trans (hfirst other hother)
    case isFalse hbefore =>
      have hle : key first.item ≤ key head.item := not_lt.1 fun hlt => hbefore (.inl hlt)
      refine List.pairwise_cons.2 ⟨fun other hother => ?_, ih hrest⟩
      rcases mem_pushHead.1 hother with rfl | hother
      · exact hle
      · exact hfirst other hother

/-- What a stream that adds an item does to each stream. -/
theorem getElem?_advance (stream other : ℕ) (items : List ρ)
    (h : (advance key heads stream).1[other]? = some items) :
    ∃ before, heads.1[other]? = some before ∧
      (items = before ∨ other = stream ∧ ∃ item, before = item :: items) := by
  rw [advance] at h
  split at h
  case h_1 item rest hstream =>
    by_cases heq : stream = other
    · subst heq
      have hlt : stream < heads.1.length := (List.getElem?_eq_some_iff.1 hstream).1
      rw [List.getElem?_set_self hlt] at h
      exact ⟨_, hstream, .inr ⟨rfl, item, by rw [Option.some.inj h]⟩⟩
    · rw [List.getElem?_set_ne heq] at h
      exact ⟨items, h, .inl rfl⟩
  case h_2 => exact ⟨items, h, .inl rfl⟩

theorem mem_heap_advance {stream : ℕ} {head : Head ρ} (h : head ∈ (advance key heads stream).2) :
    head ∈ heads.2 ∨ head.stream = stream ∧ ∃ rest, heads.1[stream]? = some (head.item :: rest) := by
  rw [advance] at h
  split at h
  case h_1 item rest hstream =>
    rcases mem_pushHead.1 h with rfl | h
    · exact .inr ⟨rfl, rest, hstream⟩
    · exact .inl h
  case h_2 => exact .inl h

theorem heap_subset_advance (stream : ℕ) : heads.2 ⊆ (advance key heads stream).2 := by
  intro head h
  rw [advance]
  split
  · exact mem_pushHead.2 (.inr h)
  · exact h

theorem Above.advance {bound : κ} (h : Above key bound heads) (stream : ℕ) :
    Above key bound (advance key heads stream) := by
  constructor
  · intro head hhead
    rcases mem_heap_advance hhead with hhead | ⟨-, rest, hrest⟩
    · exact h.1 head hhead
    · exact h.2 stream _ hrest _ List.mem_cons_self
  · intro other items hitems item hitem
    obtain ⟨before, hbefore, rfl | ⟨-, first, rfl⟩⟩ := getElem?_advance stream other items hitems
    · exact h.2 other _ hbefore item hitem
    · exact h.2 other _ hbefore item (List.mem_cons_of_mem _ hitem)

/-- A stream that has waited adds its next item. -/
theorem Ordered.advance {stream : ℕ} (h : Ordered key heads (stream :: waiting)) :
    Ordered key (advance key heads stream) waiting where
  heap := by
    rw [Runs.advance]
    split
    · exact pairwise_pushHead h.heap _
    · exact h.heap
  streams := by
    intro other items hitems
    obtain ⟨before, hbefore, rfl | ⟨-, first, rfl⟩⟩ := getElem?_advance stream other items hitems
    · exact h.streams other _ hbefore
    · exact (List.pairwise_cons.1 (h.streams other _ hbefore)).2
  behind := by
    intro head hhead items hitems item hitem
    obtain ⟨before, hbefore, hcases⟩ := getElem?_advance stream head.stream items hitems
    have hmem : item ∈ before := by
      rcases hcases with rfl | ⟨-, first, rfl⟩
      · exact hitem
      · exact List.mem_cons_of_mem _ hitem
    rcases mem_heap_advance hhead with hold | ⟨heq, rest, hrest⟩
    · exact h.behind head hold before hbefore item hmem
    · -- the new head was in front of what its stream holds back now
      have hnow : (Runs.advance key heads stream).1[head.stream]? = some rest := by
        have hlt : stream < heads.1.length := (List.getElem?_eq_some_iff.1 hrest).1
        rw [Runs.advance, hrest, heq]
        exact List.getElem?_set_self hlt
      obtain rfl := Option.some.inj (hnow.symm.trans hitems)
      exact (List.pairwise_cons.1 (h.streams stream _ hrest)).1 item hitem
  listed := by
    intro other items hitems hne
    obtain ⟨before, hbefore, hcases⟩ := getElem?_advance stream other items hitems
    have hsome : before ≠ [] := by
      rcases hcases with rfl | ⟨-, first, rfl⟩
      · exact hne
      · exact List.cons_ne_nil _ _
    by_cases heq : other = stream
    · subst heq
      obtain ⟨item, rest, rfl⟩ := List.exists_cons_of_ne_nil hsome
      refine .inr ⟨⟨other, item⟩, ?_, rfl⟩
      rw [Runs.advance, hbefore]
      exact mem_pushHead.2 (.inl rfl)
    · rcases h.listed other before hbefore hsome with hwait | ⟨head, hhead, hstream⟩
      · exact .inl ((List.mem_cons.1 hwait).resolve_left heq)
      · exact .inr ⟨head, heap_subset_advance stream hhead, hstream⟩

theorem Ordered.foldl_advance (h : Ordered key heads waiting) :
    Ordered key (waiting.foldl (Runs.advance key) heads) [] := by
  induction waiting generalizing heads with
  | nil => exact h
  | cons stream waiting ih => exact ih h.advance

theorem Above.foldl_advance {bound : κ} (h : Above key bound heads) (waiting : List ℕ) :
    Above key bound (waiting.foldl (Runs.advance key) heads) := by
  induction waiting generalizing heads with
  | nil => exact h
  | cons stream waiting ih => exact ih (h.advance stream)

/-! ### Groups -/

/-- After a group everything that is left has a greater key, and its streams wait. -/
theorem Ordered.popped {streams : List (List ρ)} {first : Head ρ} {heap : List (Head ρ)}
    (h : Ordered key (streams, first :: heap) []) :
    Above key (key first.item)
        (streams, heap.dropWhile fun head => key head.item = key first.item) ∧
      Ordered key (streams, heap.dropWhile fun head => key head.item = key first.item)
        ((first :: heap.takeWhile fun head => key head.item = key first.item).map Head.stream) := by
  obtain ⟨hfirst, hrest⟩ := List.pairwise_cons.1 h.heap
  have hsub := List.dropWhile_sublist (l := heap) fun head => key head.item = key first.item
  have hsorted := hrest.sublist hsub
  have habove : ∀ head ∈ heap.dropWhile fun head => key head.item = key first.item,
      key first.item < key head.item := by
    intro head hhead
    refine lt_of_le_of_ne (hfirst head (hsub.subset hhead)) fun heq => ?_
    cases hdrop : heap.dropWhile fun head => key head.item = key first.item with
    | nil =>
      rw [hdrop] at hhead
      cases hhead
    | cons next left =>
      have hnext : key next.item ≠ key first.item := by
        have hnot := List.head?_dropWhile_not (fun head => key head.item = key first.item) heap
        rw [hdrop] at hnot
        simpa using hnot
      rw [hdrop] at hhead hsorted hsub
      have hle : key next.item ≤ key head.item := by
        rcases List.mem_cons.1 hhead with rfl | hhead
        · exact le_rfl
        · exact (List.pairwise_cons.1 hsorted).1 head hhead
      exact hnext (le_antisymm (heq ▸ hle) (hfirst next (hsub.subset List.mem_cons_self)))
  refine ⟨⟨habove, fun stream items hitems item hitem => ?_⟩, hsorted, h.streams,
    fun head hhead => h.behind head (List.mem_cons_of_mem _ (hsub.subset hhead)),
    fun stream items hitems hne => ?_⟩
  · -- what a stream holds back comes after its head in the heap
    rcases h.listed stream items hitems (List.ne_nil_of_mem hitem) with hwait | ⟨head, hhead, rfl⟩
    · cases hwait
    · have hle : key first.item ≤ key head.item := by
        rcases List.mem_cons.1 hhead with rfl | hhead
        · exact le_rfl
        · exact hfirst head hhead
      exact hle.trans_lt (h.behind head hhead items hitems item hitem)
  · rcases h.listed stream items hitems hne with hwait | ⟨head, hhead, rfl⟩
    · cases hwait
    · rcases List.mem_cons.1 hhead with rfl | hhead
      · exact .inl List.mem_cons_self
      · rw [← List.takeWhile_append_dropWhile (l := heap)
          (p := fun head => decide (key head.item = key first.item))] at hhead
        rcases List.mem_append.1 hhead with htake | hdrop
        · exact .inl (List.mem_map_of_mem (List.mem_cons_of_mem _ htake))
        · exact .inr ⟨head, hdrop, rfl⟩

theorem Ordered.above_groups (h : Ordered key heads []) {bound : κ} (habove : Above key bound heads)
    (fuel : ℕ) : ∀ group ∈ groups key fuel heads, bound < key group.1.item := by
  induction fuel generalizing heads bound with
  | zero => exact fun _ hgroup => (by cases hgroup)
  | succ fuel ih =>
    obtain ⟨streams, heap⟩ := heads
    cases heap with
    | nil => exact fun _ hgroup => (by cases hgroup)
    | cons first heap =>
      intro group hgroup
      have hbound := habove.1 first List.mem_cons_self
      obtain ⟨hpast, hordered⟩ := h.popped
      rcases List.mem_cons.1 hgroup with rfl | hgroup
      · exact hbound
      · exact hbound.trans (ih hordered.foldl_advance (hpast.foldl_advance _) group hgroup)

theorem Ordered.pairwise_groups (h : Ordered key heads []) (fuel : ℕ) :
    (groups key fuel heads).Pairwise fun g g' => key g.1.item < key g'.1.item := by
  induction fuel generalizing heads with
  | zero => exact .nil
  | succ fuel ih =>
    obtain ⟨streams, heap⟩ := heads
    cases heap with
    | nil => exact .nil
    | cons first heap =>
      obtain ⟨hpast, hordered⟩ := h.popped
      exact List.pairwise_cons.2
        ⟨hordered.foldl_advance.above_groups (hpast.foldl_advance _) fuel, ih hordered.foldl_advance⟩

/-- **The merge** of streams in the order of a key has its groups in that order. -/
theorem pairwise_mergedGroups {streams : List (List ρ)}
    (h : ∀ stream ∈ streams, stream.Pairwise fun a b => key a < key b) :
    (mergedGroups key streams).Pairwise fun g g' => key g.1.item < key g'.1.item := by
  have hstart : Ordered key (streams, []) (List.range streams.length) := by
    refine ⟨.nil, fun stream items hitems => h items (List.mem_of_getElem? hitems),
      fun _ hhead => (by cases hhead), fun stream items hitems _ => .inl ?_⟩
    exact List.mem_range.2 (List.getElem?_eq_some_iff.1 hitems).1
  exact hstart.foldl_advance.pairwise_groups _

end Runs

end Obsy
