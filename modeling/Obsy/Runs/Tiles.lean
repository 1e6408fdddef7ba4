import Mathlib.Data.List.Basic
import Mathlib.Data.List.SplitBy
import Mathlib.Order.Basic

/-!
# Groups of one owner and the segments that cover them

Items in the order of their owners are cut into groups of one owner each, and segments say which
groups are whose: each names an owner and the ordinals from its first group to the one after its
last.

* `Tiles`: segments cover the groups from an ordinal on.
* `Tiles.extend`, `Tiles.push`: one more group, for the last segment or for a new one.
* `Tiles.find?_spec`: the segment of an owner covers its groups and no others.
* `flatten_flatMap_splitBy`, `eq_of_isChain_beq`: cutting items in such groups.
-/

namespace Obsy

namespace Runs

variable {α κ γ σ : Type*}

/-- What a segment says. -/
structure View (σ κ : Type*) where
  owner : σ → κ
  first : σ → ℕ
  /-- The ordinal after the last group. -/
  stop : σ → ℕ

variable (V : View σ κ) (ownerOf : γ → κ)

/-- The segments cover the groups from an ordinal on, each those of its owner. -/
def Tiles : ℕ → List σ → List γ → Prop
  | _, [], groups => groups = []
  | start, segment :: segments, groups => ∃ mine rest, groups = mine ++ rest ∧ mine ≠ [] ∧
      V.first segment = start ∧ V.stop segment = start + mine.length ∧
      (∀ group ∈ mine, ownerOf group = V.owner segment) ∧
      Tiles (start + mine.length) segments rest

variable {V ownerOf} {start : ℕ} {segments : List σ} {groups : List γ}

theorem tiles_nil (start : ℕ) : Tiles V ownerOf start [] [] := rfl

/-- A group of a new owner. -/
theorem Tiles.push (h : Tiles V ownerOf start segments groups) {segment : σ} {group : γ}
    (howner : ownerOf group = V.owner segment) (hfirst : V.first segment = start + groups.length)
    (hstop : V.stop segment = start + groups.length + 1) :
    Tiles V ownerOf start (segments ++ [segment]) (groups ++ [group]) := by
  induction segments generalizing start groups with
  | nil =>
    obtain rfl : groups = [] := h
    exact ⟨[group], [], rfl, by simp, hfirst, hstop, by simpa using howner, rfl⟩
  | cons head segments ih =>
    obtain ⟨mine, rest, rfl, hne, hhead, hend, hmine, hrest⟩ := h
    rw [List.length_append, ← Nat.add_assoc] at hfirst hstop
    exact ⟨mine, rest ++ [group], List.append_assoc .., hne, hhead, hend, hmine,
      ih hrest hfirst hstop⟩

theorem Tiles.extend {last last' : σ} (h : Tiles V ownerOf start (segments ++ [last]) groups)
    {group : γ} (hgroup : ownerOf group = V.owner last) (howner : V.owner last' = V.owner last)
    (hfirst : V.first last' = V.first last) (hstop : V.stop last' = start + groups.length + 1) :
    Tiles V ownerOf start (segments ++ [last']) (groups ++ [group]) := by
  induction segments generalizing start groups with
  | nil =>
    obtain ⟨mine, rest, rfl, hne, hhead, hend, hmine, hrest⟩ := h
    obtain rfl : rest = [] := hrest
    rw [List.append_nil] at hstop ⊢
    refine ⟨mine ++ [group], [], by simp, by simp, hfirst.trans hhead, ?_, ?_, rfl⟩
    · rw [hstop, List.length_append, List.length_singleton, Nat.add_assoc]
    · intro g hg
      rw [howner]
      rcases List.mem_append.1 hg with hg | hg
      · exact hmine g hg
      · rw [List.mem_singleton.1 hg]
        exact hgroup
  | cons head segments ih =>
    obtain ⟨mine, rest, rfl, hne, hhead, hend, hmine, hrest⟩ := h
    rw [List.length_append, ← Nat.add_assoc] at hstop
    exact ⟨mine, rest ++ [group], List.append_assoc .., hne, hhead, hend, hmine, ih hrest hstop⟩

theorem Tiles.mem (h : Tiles V ownerOf start segments groups) {group : γ} (hg : group ∈ groups) :
    ∃ segment ∈ segments, ownerOf group = V.owner segment := by
  induction segments generalizing start groups with
  | nil =>
    obtain rfl : groups = [] := h
    cases hg
  | cons segment segments ih =>
    obtain ⟨mine, rest, rfl, -, -, -, hmine, hrest⟩ := h
    rcases List.mem_append.1 hg with hg | hg
    · exact ⟨segment, List.mem_cons_self, hmine group hg⟩
    · obtain ⟨found, hfound, heq⟩ := ih hrest hg
      exact ⟨found, List.mem_cons_of_mem _ hfound, heq⟩

/-- The segment that covers a group is its owner's. -/
theorem Tiles.exists_segment (h : Tiles V ownerOf start segments groups) {g : ℕ} {group : γ}
    (hg : groups[g]? = some group) : ∃ segment ∈ segments, ownerOf group = V.owner segment ∧
      V.first segment ≤ start + g ∧ start + g < V.stop segment ∧
      V.stop segment ≤ start + groups.length := by
  induction segments generalizing start groups g with
  | nil =>
    obtain rfl : groups = [] := h
    simp at hg
  | cons segment segments ih =>
    obtain ⟨mine, rest, rfl, -, hfirst, hstop, hmine, hrest⟩ := h
    by_cases hlt : g < mine.length
    · rw [List.getElem?_append_left hlt] at hg
      refine ⟨segment, List.mem_cons_self, hmine group (List.mem_of_getElem? hg), ?_, ?_, ?_⟩
      · omega
      · omega
      · rw [hstop, List.length_append]
        omega
    · rw [List.getElem?_append_right (by omega)] at hg
      obtain ⟨other, ho, howner, hlo, hhi, hend⟩ := ih hrest hg
      refine ⟨other, List.mem_cons_of_mem _ ho, howner, ?_, ?_, ?_⟩
      · omega
      · omega
      · rw [List.length_append]
        omega

theorem Tiles.exists_group (h : Tiles V ownerOf start segments groups) {segment : σ}
    (hs : segment ∈ segments) : ∃ group ∈ groups, ownerOf group = V.owner segment := by
  induction segments generalizing start groups with
  | nil => cases hs
  | cons first segments ih =>
    obtain ⟨mine, rest, rfl, hne, -, -, hmine, hrest⟩ := h
    rcases List.mem_cons.1 hs with rfl | hs
    · obtain ⟨group, hg⟩ := List.exists_mem_of_ne_nil mine hne
      exact ⟨group, List.mem_append_left _ hg, hmine group hg⟩
    · obtain ⟨group, hg, heq⟩ := ih hrest hs
      exact ⟨group, List.mem_append_right _ hg, heq⟩

/-- The segments of groups in the order of their owners are in that order. -/
theorem Tiles.pairwise_le [LE κ] (h : Tiles V ownerOf start segments groups)
    (hle : groups.Pairwise fun a b => ownerOf a ≤ ownerOf b) :
    (segments.map V.owner).Pairwise (· ≤ ·) := by
  induction segments generalizing start groups with
  | nil => exact .nil
  | cons segment segments ih =>
    obtain ⟨mine, rest, rfl, hne, -, -, hmine, hrest⟩ := h
    obtain ⟨-, hlater, hacross⟩ := List.pairwise_append.1 hle
    refine List.pairwise_cons.2 ⟨fun owner ho => ?_, ih hrest hlater⟩
    obtain ⟨later, hmem, rfl⟩ := List.mem_map.1 ho
    obtain ⟨group, hg, heq⟩ := hrest.exists_group hmem
    obtain ⟨first, hfirst⟩ := List.exists_mem_of_ne_nil mine hne
    rw [← hmine first hfirst, ← heq]
    exact hacross first hfirst group hg

/-- The segment of an owner covers its groups and no others; without one it has none. -/
theorem Tiles.find?_spec [PartialOrder κ] [DecidableEq κ]
    (h : Tiles V ownerOf start segments groups)
    (hlt : (segments.map V.owner).Pairwise (· < ·)) (owner : κ) :
    match segments.find? fun segment => V.owner segment == owner with
    | none => ∀ group ∈ groups, ownerOf group ≠ owner
    | some segment => start ≤ V.first segment ∧ V.stop segment ≤ start + groups.length ∧
        ∀ g group, groups[g]? = some group → (ownerOf group = owner ↔
          V.first segment ≤ start + g ∧ start + g < V.stop segment) := by
  induction segments generalizing start groups with
  | nil =>
    obtain rfl : groups = [] := h
    simp
  | cons segment segments ih =>
    obtain ⟨mine, rest, rfl, -, hstart, hend, hmine, hrest⟩ := h
    obtain ⟨hfirst, hlater⟩ := List.pairwise_cons.1 hlt
    by_cases heq : V.owner segment = owner
    · rw [List.find?_cons_of_pos (by simpa using heq)]
      refine ⟨Nat.le_of_eq hstart.symm, by rw [hend, List.length_append]; omega, fun g group hg => ?_⟩
      by_cases hin : g < mine.length
      · rw [List.getElem?_append_left hin] at hg
        have := hmine group (List.mem_of_getElem? hg)
        refine iff_of_true (this.trans heq) ?_
        omega
      · rw [List.getElem?_append_right (by omega)] at hg
        obtain ⟨later, hmem, hsame⟩ := hrest.mem (List.mem_of_getElem? hg)
        have hbelow := hfirst (V.owner later) (List.mem_map_of_mem hmem)
        refine iff_of_false ?_ (by omega)
        rw [hsame, ← heq]
        exact hbelow.ne'
    · rw [List.find?_cons_of_neg (by simpa using heq)]
      have hother : ∀ group ∈ mine, ownerOf group ≠ owner := fun group hg =>
        (hmine group hg).trans_ne heq
      have hfound := ih hrest hlater
      split at hfound
      case h_1 =>
        intro group hg
        rcases List.mem_append.1 hg with hg | hg
        · exact hother group hg
        · exact hfound group hg
      case h_2 found _ =>
        obtain ⟨hlo, hhi, hgroups⟩ := hfound
        refine ⟨by omega, by rw [List.length_append]; omega, fun g group hg => ?_⟩
        by_cases hin : g < mine.length
        · rw [List.getElem?_append_left hin] at hg
          exact iff_of_false (hother group (List.mem_of_getElem? hg)) (by omega)
        · rw [List.getElem?_append_right (by omega)] at hg
          rw [hgroups _ group hg]
          have : start + mine.length + (g - mine.length) = start + g := by omega
          rw [this]

theorem Tiles.of_find?_eq_none [PartialOrder κ] [DecidableEq κ]
    (h : Tiles V ownerOf start segments groups) (hlt : (segments.map V.owner).Pairwise (· < ·))
    {owner : κ} (hfind : segments.find? (fun segment => V.owner segment == owner) = none) :
    ∀ group ∈ groups, ownerOf group ≠ owner := by
  have hspec := h.find?_spec hlt owner
  rwa [hfind] at hspec

theorem Tiles.of_find?_eq_some [PartialOrder κ] [DecidableEq κ]
    (h : Tiles V ownerOf start segments groups) (hlt : (segments.map V.owner).Pairwise (· < ·))
    {owner : κ} {segment : σ}
    (hfind : segments.find? (fun segment => V.owner segment == owner) = some segment) :
    start ≤ V.first segment ∧ V.stop segment ≤ start + groups.length ∧
      ∀ g group, groups[g]? = some group → (ownerOf group = owner ↔
        V.first segment ≤ start + g ∧ start + g < V.stop segment) := by
  have hspec := h.find?_spec hlt owner
  rwa [hfind] at hspec

/-- Groups of items in the order of their owners are in that order. -/
theorem pairwise_owner [LE κ] {of : α → κ} {groups : List (List α)} {ownerOf : List α → κ}
    (hnonempty : ∀ group ∈ groups, group ≠ [])
    (howner : ∀ group ∈ groups, ∀ item ∈ group, of item = ownerOf group)
    (hsorted : groups.flatten.Pairwise fun a b => of a ≤ of b) :
    groups.Pairwise fun a b => ownerOf a ≤ ownerOf b := by
  refine (List.pairwise_flatten.1 hsorted).2.imp_of_mem fun {a b} ha hb hab => ?_
  obtain ⟨item, hitem⟩ := List.exists_mem_of_ne_nil a (hnonempty a ha)
  obtain ⟨item', hitem'⟩ := List.exists_mem_of_ne_nil b (hnonempty b hb)
  rw [← howner a ha item hitem, ← howner b hb item' hitem']
  exact hab item hitem item' hitem'

/-! ### Cutting -/

/-- Cutting every run in pieces loses nothing. -/
theorem flatten_flatMap_splitBy (r : α → α → Bool) {pieces : List α → List (List α)}
    (hpieces : ∀ run, (pieces run).flatten = run) (items : List α) :
    ((items.splitBy r).flatMap pieces).flatten = items := by
  conv_rhs => rw [← List.flatten_splitBy r items]
  induction items.splitBy r with
  | nil => rfl
  | cons run runs ih => rw [List.flatMap_cons, List.flatten_append, hpieces, ih, List.flatten_cons]

/-- Where neighbours are of one owner, all items are. -/
theorem eq_of_isChain_beq [DecidableEq κ] (of : α → κ) {items : List α}
    (h : items.IsChain fun a b => (of a == of b) = true) {a b : α} (ha : a ∈ items)
    (hb : b ∈ items) : of a = of b := by
  have hchain : items.IsChain fun a b => of a = of b := h.imp fun a b hab => by simpa using hab
  have : IsTrans α fun a b => of a = of b := ⟨fun _ _ _ h h' => h.trans h'⟩
  have : Std.Symm fun a b => of a = of b := ⟨fun _ _ h => h.symm⟩
  by_cases heq : a = b
  · rw [heq]
  · exact (List.isChain_iff_pairwise.1 hchain).forall ha hb heq

end Runs

end Obsy
