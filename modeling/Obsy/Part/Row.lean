import Mathlib.Data.List.Destutter
import Mathlib.Data.List.Lex
import Mathlib.Data.List.Sort
import Mathlib.Data.Prod.Lex
import Mathlib.Data.String.Basic
import Mathlib.Tactic.Ring

/-!
# Log rows

A log entry of a tenant as a part stores it, and the order of the rows in a part.

* `canonicalizeStructuredMetadata`: sorted by key, one value for each key.
* `Row.sortKey`: the order of a part.
* `sortRows`: layout order, every row once.
-/

namespace Obsy

namespace Part

/-! ### Timestamps -/

/-- Nanoseconds since the epoch, an `i64`. -/
def Nanos := {ns : ℤ // -2 ^ 63 ≤ ns ∧ ns < 2 ^ 63}

instance : LinearOrder Nanos := @Subtype.instLinearOrder ℤ Int.instLinearOrder _

/-- The epoch. -/
def Nanos.zero : Nanos := ⟨0, by decide⟩

/-- The first nanosecond. -/
def Nanos.one : Nanos := ⟨1, by decide⟩

/-- The least timestamp. -/
def Nanos.min : Nanos := ⟨-2 ^ 63, by decide⟩

/-- The greatest timestamp. -/
def Nanos.max : Nanos := ⟨2 ^ 63 - 1, by decide⟩

theorem Nanos.min_le (ns : Nanos) : Nanos.min ≤ ns := ns.2.1

theorem Nanos.le_max (ns : Nanos) : ns ≤ Nanos.max := by
  have := ns.2.2
  change ns.1 ≤ 2 ^ 63 - 1
  omega

/-- The day of a timestamp.  The code writes it as a date. -/
def partitionOf (ts : Nanos) : ℤ := ts.1.fdiv (86400 * 1000000000)

/-! ### Structured metadata -/

/-- The pairs of an entry's metadata: name and value. -/
abbrev Pairs := List (String × String)

/-- Sorted by key, one value for each key. -/
def Canonical (pairs : Pairs) : Prop :=
  pairs.Pairwise fun earlier later => earlier.1 < later.1

instance (pairs : Pairs) : Decidable (Canonical pairs) :=
  inferInstanceAs (Decidable (pairs.Pairwise _))

/-- Sorted by key, duplicate keys collapsed to their first occurrence. -/
def canonicalizeStructuredMetadata (pairs : Pairs) : Pairs :=
  if Canonical pairs then pairs
  else (pairs.mergeSort fun a b => a.1 ≤ b.1).destutter fun earlier later => earlier.1 ≠ later.1

/-- What does not decrease and never repeats increases. -/
theorem pairwise_lt_of_neighbours {α : Type*} [PartialOrder α] {items : List α}
    (hle : items.Pairwise (· ≤ ·)) (hne : items.IsChain (· ≠ ·)) : items.Pairwise (· < ·) := by
  have hlt : items.IsChain (· < ·) := by
    induction items with
    | nil => exact .nil
    | cons first rest ih =>
      cases rest with
      | nil => exact .singleton first
      | cons second rest =>
        rw [List.isChain_cons_cons] at hne ⊢
        have hfirst := (List.pairwise_cons.1 hle).1 second List.mem_cons_self
        exact ⟨lt_of_le_of_ne hfirst hne.1, ih (List.pairwise_cons.1 hle).2 hne.2⟩
  exact List.isChain_iff_pairwise.1 hlt

theorem canonical_of_neighbours {pairs : Pairs}
    (hle : pairs.Pairwise fun earlier later => earlier.1 ≤ later.1)
    (hne : pairs.IsChain fun earlier later => earlier.1 ≠ later.1) : Canonical pairs := by
  have hlt : (pairs.map Prod.fst).Pairwise (· < ·) :=
    pairwise_lt_of_neighbours (List.pairwise_map.2 hle) ((List.isChain_map _).2 hne)
  exact List.pairwise_map.1 hlt

theorem canonical_canonicalize (pairs : Pairs) :
    Canonical (canonicalizeStructuredMetadata pairs) := by
  unfold canonicalizeStructuredMetadata
  split
  case isTrue h => exact h
  case isFalse h =>
    have : Std.Total fun a b : String × String => a.1 ≤ b.1 := ⟨fun a b => le_total a.1 b.1⟩
    have : IsTrans (String × String) fun a b => a.1 ≤ b.1 := ⟨fun _ _ _ h h' => h.trans h'⟩
    have hsorted : (pairs.mergeSort fun a b => a.1 ≤ b.1).Pairwise fun a b => a.1 ≤ b.1 :=
      List.pairwise_mergeSort' (fun a b : String × String => a.1 ≤ b.1) pairs
    exact canonical_of_neighbours (hsorted.sublist (List.destutter_sublist _ _))
      (List.isChain_destutter _ _)

/-! ### Rows -/

/-- An entry as the memtable holds it. -/
structure LogEntry where
  timestampNs : Nanos
  line : String
  structuredMetadata : Pairs
deriving DecidableEq

/-- An entry with its tenant, as a part holds it. -/
structure Row where
  tenant : String
  timestampNs : Nanos
  line : String
  structuredMetadata : Pairs
deriving DecidableEq

def Row.fromEntry (tenant : String) (e : LogEntry) : Row :=
  ⟨tenant, e.timestampNs, e.line, e.structuredMetadata⟩

/-- The entry as `MemTable::insert` stores it. -/
def LogEntry.canonicalized (e : LogEntry) : LogEntry :=
  { e with structuredMetadata := canonicalizeStructuredMetadata e.structuredMetadata }

/-- The part sort key. -/
def Row.sortKey (row : Row) : String ×ₗ Nanos ×ₗ String ×ₗ List (String ×ₗ String) :=
  toLex (row.tenant, toLex (row.timestampNs, toLex (row.line,
    row.structuredMetadata.map toLex)))

theorem Row.sortKey_injective : Function.Injective Row.sortKey := by
  intro a b h
  obtain ⟨tenant, ts, line, pairs⟩ := a
  obtain ⟨tenant', ts', line', pairs'⟩ := b
  simp only [Row.sortKey, EmbeddingLike.apply_eq_iff_eq, Prod.mk.injEq] at h
  obtain ⟨rfl, rfl, rfl, h⟩ := h
  have : pairs = pairs' := List.map_injective_iff.2 toLex.injective h
  rw [this]

/-- Rows in the order of their sort keys, which hold every field. -/
instance : LinearOrder Row := LinearOrder.lift' Row.sortKey Row.sortKey_injective

theorem Row.le_iff {a b : Row} : a ≤ b ↔ a.sortKey ≤ b.sortKey := Iff.rfl

theorem Row.lt_iff {a b : Row} : a < b ↔ a.sortKey < b.sortKey := Iff.rfl

theorem Row.tenant_le {a b : Row} (h : a ≤ b) : a.tenant ≤ b.tenant := by
  rw [Row.le_iff, Row.sortKey, Row.sortKey, Prod.Lex.le_iff] at h
  rcases h with h | ⟨h, -⟩
  · exact h.le
  · exact h.le

/-- What the row costs to hold in memory: its texts and 72 bytes of its own. -/
def Row.materializedBytes (row : Row) : ℕ :=
  row.line.utf8ByteSize +
    (row.structuredMetadata.map fun p => p.1.utf8ByteSize + p.2.utf8ByteSize).sum + 72

/-- Layout order, and one copy of every row. -/
def sortRows (rows : List Row) : List Row :=
  (rows.mergeSort (· ≤ ·)).destutter (· ≠ ·)

theorem mem_sortRows {rows : List Row} {row : Row} : row ∈ sortRows rows ↔ row ∈ rows := by
  have h := List.pairwise_mergeSort' (· ≤ ·) rows
  rw [sortRows, List.Pairwise.destutter_eq_dedup h, List.mem_dedup, List.mem_mergeSort]

theorem length_sortRows_le (rows : List Row) : (sortRows rows).length ≤ rows.length := by
  rw [sortRows]
  exact (List.destutter_sublist _ _).length_le.trans (List.length_mergeSort _).le

theorem sortedLT_sortRows (rows : List Row) : (sortRows rows).SortedLT := by
  have h := List.pairwise_mergeSort' (· ≤ ·) rows
  have hle : (sortRows rows).Pairwise (· ≤ ·) := h.sublist (List.destutter_sublist _ _)
  have hnd : (sortRows rows).Nodup := by
    rw [sortRows, List.Pairwise.destutter_eq_dedup h]
    exact List.nodup_dedup _
  exact List.sortedLT_iff_pairwise.2
    ((hle.and hnd).imp fun {a b} hab => lt_of_le_of_ne hab.1 hab.2)

/-- A strictly sorted list of given rows is what sorting them leaves. -/
theorem eq_sortRows {rows out : List Row} (h : out.SortedLT)
    (hm : ∀ row, row ∈ out ↔ row ∈ rows) : out = sortRows rows := by
  have hs := sortedLT_sortRows rows
  have hp : out.Perm (sortRows rows) :=
    (List.perm_ext_iff_of_nodup h.nodup hs.nodup).2 fun row => by rw [hm, mem_sortRows]
  exact hp.eq_of_pairwise (fun a b _ _ hab hba => absurd (hab.trans hba) (lt_irrefl a))
    h.pairwise hs.pairwise

end Part

end Obsy
