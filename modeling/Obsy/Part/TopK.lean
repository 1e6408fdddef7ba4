import Mathlib.Data.Prod.Lex
import Obsy.Part.Reader
import Obsy.Select.Best

/-!
# The bounded result of a query

A sink holds the rows nearest the direction of the query, as many as the limit, and says by its
frontier which rows it can no longer take.

* `TopKRows`: the sink.
* `TopKRows.Holds`: it holds the best of what it has seen.
* `TopKRows.Holds.offer`, `TopKRows.Holds.skip`: a row is taken, or was rightly skipped.
* `TopKRows.Holds.intoRows`: the result.
-/

namespace Obsy

namespace Part

open Select (Best)

/-- The order of a query: the better row has the lesser rank. -/
def timeRank (forward : Bool) (ts : Nanos) : ℤ := if forward then ts.1 else -ts.1

def LogEntry.rank (forward : Bool) (entry : LogEntry) : ℤ := timeRank forward entry.timestampNs

/-- A row beyond the frontier is no better than it. -/
theorem timeRank_le_of_beyond {forward : Bool} {frontier ts : Nanos}
    (h : beyondFrontier (some frontier) forward ts = true) :
    timeRank forward frontier ≤ timeRank forward ts := by
  cases forward with
  | true => exact Subtype.coe_le_coe.2 (of_decide_eq_true h)
  | false => exact neg_le_neg (Subtype.coe_le_coe.2 (of_decide_eq_true h))

/-- What is no better than a row beyond the frontier is beyond it too. -/
theorem beyondFrontier_of_rank {frontier : Option Nanos} {forward : Bool} {ts ts' : Nanos}
    (h : beyondFrontier frontier forward ts = true)
    (hle : timeRank forward ts ≤ timeRank forward ts') :
    beyondFrontier frontier forward ts' = true := by
  cases frontier with
  | none => cases h
  | some frontier =>
    have hfrontier := (timeRank_le_of_beyond h).trans hle
    cases forward with
    | true => exact decide_eq_true (Subtype.coe_le_coe.1 hfrontier)
    | false => exact decide_eq_true (Subtype.coe_le_coe.1 (neg_le_neg_iff.1 hfrontier))

/-! ### The sink -/

/-- A row of a full sink, with the number of rows that were offered before it. -/
structure RankedRow where
  arrived : ℕ
  entry : LogEntry

/-- `RankedRow::cmp`: by time, and of equal times by arrival. -/
def RankedRow.cmpKey (forward : Bool) (row : RankedRow) : ℤ ×ₗ ℕ :=
  toLex (row.entry.rank forward, row.arrived)

/-- Whether a row stands before another in the heap. -/
def RankedRow.Worse (forward : Bool) (a b : RankedRow) : Prop := b.cmpKey forward ≤ a.cmpKey forward

instance (forward : Bool) : DecidableRel (RankedRow.Worse forward) := fun a b =>
  inferInstanceAs (Decidable (b.cmpKey forward ≤ a.cmpKey forward))

instance (forward : Bool) : Std.Total (RankedRow.Worse forward) :=
  ⟨fun a b => le_total (b.cmpKey forward) (a.cmpKey forward)⟩

instance (forward : Bool) : IsTrans RankedRow (RankedRow.Worse forward) :=
  ⟨fun _ _ _ hab hbc => le_trans hbc hab⟩

theorem RankedRow.Worse.rank_le {forward : Bool} {a b : RankedRow} (h : a.Worse forward b) :
    b.entry.rank forward ≤ a.entry.rank forward := by
  rcases Prod.Lex.le_iff.1 h with hlt | ⟨heq, -⟩
  · exact hlt.le
  · exact heq.le

/-- The rows held: as they arrived while there is room, then a heap, here the list of its rows,
the worst first. -/
inductive Held where
  | growing (rows : List LogEntry)
  | bounded (heap : List RankedRow)

structure TopKRows where
  limit : ℕ
  forward : Bool
  held : Held
  /-- The rows offered so far, a `u64` that saturates. -/
  arrived : ℕ

namespace TopKRows

def new (limit : ℕ) (forward : Bool) : TopKRows := ⟨limit, forward, .growing [], 0⟩

def offer (rows : TopKRows) (entry : LogEntry) : TopKRows :=
  if rows.limit = 0 then rows
  else
    let arrived := min (rows.arrived + 1) (2 ^ 64 - 1)
    match rows.held with
    | .growing entries =>
      let entries := entries ++ [entry]
      if entries.length = rows.limit then
        let ranked := entries.zipIdx.map fun p => ⟨p.2, p.1⟩
        { rows with
          held := .bounded (ranked.insertionSort (RankedRow.Worse rows.forward))
          arrived := arrived }
      else { rows with held := .growing entries, arrived := arrived }
    | .bounded [] => { rows with arrived := arrived }
    | .bounded (worst :: heap) =>
      let row : RankedRow := ⟨rows.arrived, entry⟩
      if row.cmpKey rows.forward < worst.cmpKey rows.forward then
        { rows with
          held := .bounded (heap.orderedInsert (RankedRow.Worse rows.forward) row)
          arrived := arrived }
      else { rows with arrived := arrived }

def frontierNs (rows : TopKRows) : Option Nanos :=
  match rows.held with
  | .growing _ => none
  | .bounded heap => heap.head?.map fun worst => worst.entry.timestampNs

def isClosed (rows : TopKRows) : Bool := rows.limit == 0

/-- The rows in the direction of the query: a stable sort, or the heap from its best row on. -/
def intoRows (rows : TopKRows) : List LogEntry :=
  match rows.held with
  | .growing entries => entries.mergeSort fun a b => a.rank rows.forward ≤ b.rank rows.forward
  | .bounded heap => heap.reverse.map RankedRow.entry

/-! ### What the sink holds -/

def entries (rows : TopKRows) : List LogEntry :=
  match rows.held with
  | .growing entries => entries
  | .bounded heap => heap.map RankedRow.entry

/-- A growing sink has room, if it takes rows at all; a bounded one is full and in order. -/
def Ordered (rows : TopKRows) : Prop :=
  match rows.held with
  | .growing entries => rows.limit = 0 ∧ entries = [] ∨ entries.length < rows.limit
  | .bounded heap => heap.length = rows.limit ∧ 0 < rows.limit ∧
      heap.Pairwise (RankedRow.Worse rows.forward)

/-- The sink has the best of what it has seen. -/
structure Holds (rows : TopKRows) (seen : List LogEntry) : Prop where
  ordered : rows.Ordered
  best : Best (LogEntry.rank rows.forward) rows.limit rows.entries seen

variable {rows : TopKRows} {seen : List LogEntry}

theorem new_holds (limit : ℕ) (forward : Bool) : (new limit forward).Holds [] where
  ordered := by
    rcases Nat.eq_zero_or_pos limit with h | h
    · exact .inl ⟨h, rfl⟩
    · exact .inr h
  best := .nil

theorem Holds.perm (h : rows.Holds seen) {seen' : List LogEntry} (hp : seen.Perm seen') :
    rows.Holds seen' := ⟨h.ordered, h.best.perm_seen hp⟩

@[simp] theorem offer_limit (entry : LogEntry) : (rows.offer entry).limit = rows.limit := by
  unfold offer
  split
  · rfl
  · dsimp only
    split
    · split <;> rfl
    · rfl
    · split <;> rfl

@[simp] theorem offer_forward (entry : LogEntry) : (rows.offer entry).forward = rows.forward := by
  unfold offer
  split
  · rfl
  · dsimp only
    split
    · split <;> rfl
    · rfl
    · split <;> rfl

theorem entries_zipIdx (entries : List LogEntry) :
    (entries.zipIdx.map fun p => (⟨p.2, p.1⟩ : RankedRow)).map RankedRow.entry = entries := by
  rw [List.map_map]
  exact List.zipIdx_map_fst 0 entries

/-- A row that is offered is among what the sink has seen. -/
theorem Holds.offer (h : rows.Holds seen) (entry : LogEntry) :
    (rows.offer entry).Holds (seen ++ [entry]) := by
  obtain ⟨limit, forward, held, arrived⟩ := rows
  obtain ⟨hordered, hbest⟩ := h
  by_cases hzero : limit = 0
  · subst hzero
    have hnone : (⟨0, forward, held, arrived⟩ : TopKRows).offer entry
        = ⟨0, forward, held, arrived⟩ := if_pos rfl
    have hempty := hbest.length_eq
    rw [Nat.zero_min] at hempty
    rw [hnone]
    refine ⟨hordered, hbest.skip (Nat.zero_le _) fun a ha => ?_⟩
    rw [List.length_eq_zero_iff.1 hempty] at ha
    cases ha
  · rw [offer, if_neg hzero]
    dsimp only
    cases held with
    | growing entries =>
      have hroom : entries.length < limit := hordered.resolve_left fun hclosed => hzero hclosed.1
      have hadd := hbest.add hroom entry
      dsimp only
      split
      case isTrue hfull =>
        set ranked : List RankedRow := (entries ++ [entry]).zipIdx.map fun p => ⟨p.2, p.1⟩
          with hranked
        have hperm := List.perm_insertionSort (RankedRow.Worse forward) ranked
        refine ⟨⟨?_, Nat.pos_of_ne_zero hzero, List.pairwise_insertionSort _ _⟩, ?_⟩
        · rw [hperm.length_eq, hranked, List.length_map, List.length_zipIdx]
          exact hfull
        · refine hadd.perm_kept ?_
          have hentries := hperm.map RankedRow.entry
          rwa [hranked, entries_zipIdx] at hentries
      case isFalse hmore =>
        refine ⟨.inr ?_, hadd⟩
        rw [List.length_append, List.length_singleton] at hmore ⊢
        exact lt_of_le_of_ne hroom hmore
    | bounded heap =>
      obtain ⟨hlen, hpos, hpairs⟩ := hordered
      cases heap with
      | nil =>
        rw [← hlen] at hpos
        cases hpos
      | cons worst heap =>
        obtain ⟨hworst, hrest⟩ := List.pairwise_cons.1 hpairs
        dsimp only at hlen hpos hbest ⊢
        split
        case isTrue hbetter =>
          have hperm := List.perm_orderedInsert (RankedRow.Worse forward) ⟨arrived, entry⟩ heap
          refine ⟨⟨?_, hpos, hrest.orderedInsert _ _⟩, ?_⟩
          · rw [hperm.length_eq]
            exact hlen
          · have hfull : limit ≤ (heap.map RankedRow.entry).length + 1 := by
              rw [List.length_map]
              exact hlen.ge
            have hothers : ∀ a ∈ heap.map RankedRow.entry,
                a.rank forward ≤ worst.entry.rank forward := by
              intro a ha
              obtain ⟨row, hrow, rfl⟩ := List.mem_map.1 ha
              exact (hworst row hrow).rank_le
            have hrank : entry.rank forward ≤ worst.entry.rank forward :=
              @RankedRow.Worse.rank_le forward worst ⟨arrived, entry⟩ hbetter.le
            exact (hbest.replace hfull hothers hrank).perm_kept (hperm.map RankedRow.entry)
        case isFalse hworse =>
          have hle : (⟨arrived, entry⟩ : RankedRow).Worse forward worst := not_lt.1 hworse
          refine ⟨⟨hlen, hpos, hpairs⟩, hbest.skip ?_ fun a ha => ?_⟩
          · exact (by rw [← hlen]; exact (List.length_map _).ge)
          · obtain ⟨row, hrow, rfl⟩ := List.mem_map.1 ha
            rcases List.mem_cons.1 hrow with rfl | hrow
            · exact hle.rank_le
            · exact (hworst row hrow).rank_le.trans hle.rank_le

/-- A row beyond the frontier need not be offered. -/
theorem Holds.skip (h : rows.Holds seen) {entry : LogEntry}
    (hbeyond : beyondFrontier rows.frontierNs rows.forward entry.timestampNs = true) :
    rows.Holds (seen ++ [entry]) := by
  obtain ⟨limit, forward, held, arrived⟩ := rows
  obtain ⟨hordered, hbest⟩ := h
  cases held with
  | growing entries => cases hbeyond
  | bounded heap =>
    obtain ⟨hlen, hpos, hpairs⟩ := hordered
    cases heap with
    | nil => cases hbeyond
    | cons worst heap =>
      have hfrontier := timeRank_le_of_beyond hbeyond
      refine ⟨⟨hlen, hpos, hpairs⟩, hbest.skip ?_ fun a ha => ?_⟩
      · exact (by rw [← hlen]; exact (List.length_map _).ge)
      · obtain ⟨row, hrow, rfl⟩ := List.mem_map.1 ha
        rcases List.mem_cons.1 hrow with rfl | hrow
        · exact hfrontier
        · exact ((List.pairwise_cons.1 hpairs).1 row hrow).rank_le.trans hfrontier

/-- Nor need any number of them. -/
theorem Holds.skip_all (h : rows.Holds seen) {others : List LogEntry}
    (hbeyond : ∀ entry ∈ others,
      beyondFrontier rows.frontierNs rows.forward entry.timestampNs = true) :
    rows.Holds (seen ++ others) := by
  induction others generalizing seen with
  | nil => rwa [List.append_nil]
  | cons entry others ih =>
    have hrest := ih (h.skip (hbeyond entry List.mem_cons_self))
      fun other hother => hbeyond other (List.mem_cons_of_mem _ hother)
    rwa [List.append_assoc, List.singleton_append] at hrest

/-- A row with as many rows at its time or before as the sink takes is beyond the frontier. -/
theorem Holds.beyond_of_many (h : rows.Holds seen) (hlimit : rows.limit ≠ 0) {entry : LogEntry}
    (hmany : rows.limit ≤
      (seen.filter fun other => other.rank rows.forward ≤ entry.rank rows.forward).length) :
    beyondFrontier rows.frontierNs rows.forward entry.timestampNs = true := by
  obtain ⟨limit, forward, held, arrived⟩ := rows
  obtain ⟨hordered, hbest⟩ := h
  cases held with
  | growing entries =>
    have hroom : entries.length < limit := hordered.resolve_left fun hclosed => hlimit hclosed.1
    have hall := (hbest.perm_of_room hroom).length_eq
    have hsome := hmany.trans (List.length_filter_le ..)
    exact absurd hroom (not_lt.2 (hsome.trans hall.ge))
  | bounded heap =>
    obtain ⟨hlen, hpos, -⟩ := hordered
    cases heap with
    | nil =>
      rw [← hlen] at hpos
      cases hpos
    | cons worst heap =>
      have hself : beyondFrontier (some worst.entry.timestampNs) forward worst.entry.timestampNs
          = true := by
        cases forward <;> exact decide_eq_true le_rfl
      exact beyondFrontier_of_rank hself (hbest.le_of_many hmany worst.entry List.mem_cons_self)

/-- The result is what the sink holds, in order. -/
theorem Holds.intoRows (h : rows.Holds seen) :
    Best (LogEntry.rank rows.forward) rows.limit rows.intoRows seen ∧
      (rows.intoRows.map (LogEntry.rank rows.forward)).Pairwise (· ≤ ·) := by
  obtain ⟨limit, forward, held, arrived⟩ := rows
  obtain ⟨hordered, hbest⟩ := h
  cases held with
  | growing entries =>
    have : Std.Total fun a b : LogEntry => a.rank forward ≤ b.rank forward :=
      ⟨fun a b => le_total _ _⟩
    have : IsTrans LogEntry fun a b => a.rank forward ≤ b.rank forward :=
      ⟨fun _ _ _ hab hbc => le_trans hab hbc⟩
    refine ⟨hbest.perm_kept (List.mergeSort_perm ..), List.pairwise_map.2 ?_⟩
    exact List.pairwise_mergeSort' (fun a b : LogEntry => a.rank forward ≤ b.rank forward) entries
  | bounded heap =>
    obtain ⟨-, -, hpairs⟩ := hordered
    refine ⟨hbest.perm_kept ((List.reverse_perm heap).map _), ?_⟩
    rw [intoRows, List.pairwise_map, List.pairwise_map, List.pairwise_reverse]
    exact hpairs.imp fun hworse => hworse.rank_le

end TopKRows

end Part

end Obsy
