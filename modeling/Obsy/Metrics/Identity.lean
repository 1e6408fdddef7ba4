import Obsy.Metrics.Labels
import Obsy.Runs.Fallible
import Obsy.Runs.Keyed
import Obsy.Runs.Stable
import Mathlib.Data.String.Basic

/-!
# The identity of a series

A series is told by the bytes of its labels.  Lists of pairs that say the same are to have the same
bytes, others are not, and the bytes are to give the pairs back.

* `ascending_canonical`, `lookup_canonical`: canonical pairs have each key once, in order, and say of
  it what the list says first.
* `Canonical`: what the bytes of a list promise.
* `canonical_iff_fits`: they keep it exactly when no text is longer than its length field can say.
-/

namespace Obsy

namespace Metrics

namespace SeriesLabels

open Bytes (leBytes leNat)
open Journal (utf8Text)
open Part (utf8)
open Runs (Ascending)

variable {ps ps' : List (String × String)}

/-! ### Canonical pairs -/

theorem dedupKeys_sublist (ps : List (String × String)) : (dedupKeys ps).Sublist ps := by
  induction ps with
  | nil => exact .refl _
  | cons pair rest ih => exact ((List.dropWhile_sublist _).trans ih).cons_cons pair

/-- In the order of the keys only the pairs behind a first one can have its key. -/
theorem pairwise_dedupKeys (h : ps.Pairwise fun a b => a.1 ≤ b.1) :
    (dedupKeys ps).Pairwise fun a b => a.1 < b.1 := by
  induction ps with
  | nil => exact .nil
  | cons pair rest ih =>
    obtain ⟨hfirst, hrest⟩ := List.pairwise_cons.1 h
    have hsorted := ih hrest
    refine List.pairwise_cons.2 ⟨fun later hlater => ?_, hsorted.sublist (List.dropWhile_sublist _)⟩
    have hle : pair.1 ≤ later.1 :=
      hfirst later ((dedupKeys_sublist rest).subset ((List.dropWhile_sublist _).subset hlater))
    refine lt_of_le_of_ne hle fun heq => ?_
    -- the first that is kept has another key, and the keys behind it are greater still
    cases hdrop : (dedupKeys rest).dropWhile fun later => later.1 == pair.1 with
    | nil =>
      rw [hdrop] at hlater
      cases hlater
    | cons head tail =>
      have hhead : ¬(head.1 == pair.1) = true := by
        have hnot := List.head?_dropWhile_not (fun later => later.1 == pair.1) (dedupKeys rest)
        rw [hdrop] at hnot
        simpa using hnot
      rw [hdrop] at hlater
      rcases List.mem_cons.1 hlater with rfl | hbehind
      · exact hhead (beq_iff_eq.2 heq.symm)
      · have hkept := hsorted.sublist (List.dropWhile_sublist fun later => later.1 == pair.1)
        rw [hdrop] at hkept
        have hlt : head.1 < later.1 := (List.pairwise_cons.1 hkept).1 later hbehind
        have hge : pair.1 ≤ head.1 := hfirst head ((dedupKeys_sublist rest).subset
          ((List.dropWhile_sublist _).subset (hdrop ▸ List.mem_cons_self)))
        exact absurd (heq ▸ hlt) (not_lt.2 hge)

theorem lookup_cons_of_ne {key : String} {pair : String × String} (h : pair.1 ≠ key) :
    (pair :: ps).lookup key = ps.lookup key := by
  obtain ⟨other, value⟩ := pair
  rw [List.lookup_cons, beq_false_of_ne (Ne.symm h)]

theorem lookup_dropWhile_of_ne {key other : String} (h : key ≠ other) :
    (ps.dropWhile fun pair => pair.1 == other).lookup key = ps.lookup key := by
  induction ps with
  | nil => rfl
  | cons pair rest ih =>
    rw [List.dropWhile_cons]
    split
    case isTrue heq =>
      have hne : pair.1 ≠ key := fun hkey => h (hkey.symm.trans (beq_iff_eq.1 heq))
      rw [ih, lookup_cons_of_ne hne]
    case isFalse => rfl

theorem lookup_dedupKeys (key : String) : (dedupKeys ps).lookup key = ps.lookup key := by
  induction ps with
  | nil => rfl
  | cons pair rest ih =>
    rw [dedupKeys]
    by_cases heq : pair.1 = key
    · rw [← heq]
      exact List.lookup_cons_self.trans List.lookup_cons_self.symm
    · rw [lookup_cons_of_ne heq, lookup_cons_of_ne heq, lookup_dropWhile_of_ne (Ne.symm heq), ih]

/-- What is found under a key is the first of its pairs. -/
theorem lookup_eq_head? (key : String) :
    ps.lookup key = (ps.filter fun pair => pair.1 == key).head?.map Prod.snd := by
  induction ps with
  | nil => rfl
  | cons pair rest ih =>
    by_cases heq : pair.1 = key
    · rw [List.filter_cons, if_pos (beq_iff_eq.2 heq), ← heq]
      exact List.lookup_cons_self
    · rw [lookup_cons_of_ne heq, ih, List.filter_cons, if_neg (by simpa using heq)]

/-- The pairs of one key stay in their order. -/
theorem filter_mergeSort_key (key : String) :
    (ps.mergeSort fun a b => a.1 ≤ b.1).filter (fun pair => pair.1 == key) =
      ps.filter fun pair => pair.1 == key := by
  rw [@Runs.filter_mergeSort _ _ _ Prod.fst]
  refine List.mergeSort_of_pairwise (List.pairwise_of_forall_mem_list fun a ha b hb => ?_)
  rw [List.mem_filter, beq_iff_eq] at ha hb
  rw [ha.2, hb.2, decide_eq_true_iff]

theorem ascending_canonical (ps : List (String × String)) : Ascending (canonical ps) :=
  pairwise_dedupKeys (@Runs.pairwise_mergeSort _ _ _ Prod.fst ps)

/-- The first of a key wins. -/
theorem lookup_canonical (ps : List (String × String)) (key : String) :
    (canonical ps).lookup key = ps.lookup key := by
  rw [canonical, lookup_dedupKeys, lookup_eq_head?, filter_mergeSort_key, ← lookup_eq_head?]

/-- Lists have the same canonical pairs if they say the same of every key. -/
theorem canonical_eq_iff :
    canonical ps = canonical ps' ↔ ∀ key, ps.lookup key = ps'.lookup key := by
  constructor
  · intro h key
    rw [← lookup_canonical, h, lookup_canonical]
  · intro h
    refine (ascending_canonical ps).eq_of_lookup (ascending_canonical ps') fun key => ?_
    rw [lookup_canonical, h, lookup_canonical]

/-! ### Decoding -/

theorem utf8_of_utf8Text {bytes : List UInt8} {text : String} (h : utf8Text bytes = some text) :
    utf8 text = bytes := by
  rw [utf8Text, String.fromUTF8?] at h
  split at h
  · obtain rfl := Option.some.inj h
    rw [Part.utf8_eq]
    rfl
  · cases h

/-- A text that is longer than its length field can say is not read back. -/
theorem length_of_take {text found : String} {rest rest' : List UInt8}
    (h : take (textBytes text ++ rest) = .ok (found, rest')) (hsame : found = text) :
    (utf8 text).length < 2 ^ 32 := by
  rw [take] at h
  split at h
  · cases h
  · split at h
    · rename_i read hread
      obtain ⟨rfl, -⟩ := Prod.mk.inj (Except.ok.inj h)
      have hlength := congrArg List.length (utf8_of_utf8Text hread)
      have hfour : leNat ((textBytes text ++ rest).take 4) < 2 ^ 32 :=
        calc leNat ((textBytes text ++ rest).take 4)
          _ < 256 ^ ((textBytes text ++ rest).take 4).length := Bytes.leNat_lt _
          _ ≤ 256 ^ 4 := Nat.pow_le_pow_right (by omega) (List.length_take_le ..)
      rw [hsame, List.length_take] at hlength
      omega
    · cases h

/-- The walk gives pairs only where the decoder does. -/
theorem walk_eq_iff {fuel : ℕ} {bytes : List UInt8} {ps : List (String × String)} :
    walk fuel bytes = ps.map .ok ↔ pairsWithin fuel bytes = .ok ps := by
  refine ⟨fun h => ?_, walk_of_pairsWithin⟩
  induction fuel generalizing bytes ps with
  | zero =>
    obtain rfl := List.map_eq_nil_iff.1 h.symm
    rfl
  | succ fuel ih =>
    rw [walk] at h
    rw [pairsWithin]
    split at h
    case isTrue hnil =>
      rw [if_pos hnil, List.map_eq_nil_iff.1 h.symm]
    case isFalse hne =>
      rw [if_neg hne]
      cases ps with
      | nil => split at h <;> [skip; split at h] <;> cases h
      | cons pair ps =>
        cases hkey : take bytes with
        | error error =>
          rw [hkey] at h
          cases h
        | ok first =>
          cases hvalue : take first.2 with
          | error error =>
            simp only [hkey, hvalue] at h
            cases h
          | ok second =>
            simp only [hkey, hvalue, List.map_cons, List.cons.injEq, Except.ok.injEq] at h
            obtain ⟨rfl, hrest⟩ := h
            simp only [bind, Except.bind, hvalue, ih hrest]

/-- Pairs are read back only if each of their texts fits its length field. -/
theorem fits_of_pairsWithin {fuel : ℕ} (h : pairsWithin fuel (ofCanonical ps).bytes = .ok ps) :
    Fits ps := by
  induction ps generalizing fuel with
  | nil => exact fun _ hpair => (by cases hpair)
  | cons pair rest ih =>
    rw [ofCanonical_cons] at h
    cases fuel with
    | zero => cases h
    | succ fuel =>
      rw [pairsWithin] at h
      split at h
      · cases h
      · obtain ⟨⟨key, bytes⟩, hkey, h⟩ := Runs.exists_of_bind h
        obtain ⟨⟨value, bytes'⟩, hvalue, h⟩ := Runs.exists_of_bind h
        obtain ⟨pairs, hrest, h⟩ := Runs.exists_of_bind h
        obtain ⟨rfl, rfl⟩ := List.cons.inj (Except.ok.inj h)
        -- each text fits, so the next one begins where it ends
        have hfitsKey := length_of_take hkey rfl
        rw [take_textBytes hfitsKey] at hkey
        obtain ⟨-, rfl⟩ := Prod.mk.inj (Except.ok.inj hkey)
        have hfitsValue := length_of_take hvalue rfl
        rw [take_textBytes hfitsValue] at hvalue
        obtain ⟨-, rfl⟩ := Prod.mk.inj (Except.ok.inj hvalue)
        rintro other hother
        rcases List.mem_cons.1 hother with rfl | hother
        · exact ⟨hfitsKey, hfitsValue⟩
        · exact ih hrest other hother

theorem pairs_fromPairs_iff :
    (fromPairs ps).pairs = .ok (canonical ps) ↔ Fits (canonical ps) :=
  ⟨fits_of_pairsWithin, fun h => pairsWithin_ofCanonical h le_rfl⟩

/-! ### Identities -/

/-- Of lists that can be read back, those with the same bytes say the same. -/
theorem fromPairs_eq_iff (h : Fits (canonical ps)) (h' : Fits (canonical ps')) :
    fromPairs ps = fromPairs ps' ↔ ∀ key, ps.lookup key = ps'.lookup key := by
  rw [← canonical_eq_iff]
  refine ⟨fun hbytes => ?_, congrArg ofCanonical⟩
  have hpairs := congrArg pairs hbytes
  rw [pairs_fromPairs_iff.2 h, pairs_fromPairs_iff.2 h'] at hpairs
  exact Except.ok.inj hpairs

/-- What the bytes of a list of pairs promise. -/
structure Canonical (ps : List (String × String)) : Prop where
  /-- They are read back, by either decoder, as pairs in the order of the keys. -/
  pairs : (fromPairs ps).pairs = .ok (canonical ps)
  walk : (fromPairs ps).canonicalPairs = (canonical ps).map .ok
  ascending : Ascending (canonical ps)
  firstWins : ∀ key, (canonical ps).lookup key = ps.lookup key
  /-- Other lists have them if they say the same, and only then. -/
  identity : ∀ ps', Fits (canonical ps') →
    (fromPairs ps = fromPairs ps' ↔ ∀ key, ps.lookup key = ps'.lookup key)

/-- The bytes keep what they promise exactly when no text is longer than its field can say. -/
theorem canonical_iff_fits (ps : List (String × String)) : Canonical ps ↔ Fits (canonical ps) := by
  constructor
  · intro h
    exact pairs_fromPairs_iff.1 h.pairs
  · intro h
    have hpairs := pairs_fromPairs_iff.2 h
    exact ⟨hpairs, walk_eq_iff.2 hpairs, ascending_canonical ps, lookup_canonical ps,
      fun _ h' => fromPairs_eq_iff h h'⟩

/-- A key whose length is one more than its field can say. -/
def longKey : String := String.ofList (List.replicate (2 ^ 32) 'a')

theorem length_longKey : (utf8 longKey).length = 2 ^ 32 := by
  have hall : ∀ count, (utf8 (String.ofList (List.replicate count 'a'))).length = count := by
    intro count
    induction count with
    | zero =>
      rw [Part.utf8_eq]
      rfl
    | succ count ih =>
      have hsplit : List.replicate (count + 1) 'a' = ['a'] ++ List.replicate count 'a' := rfl
      have hone : (utf8 (String.ofList ['a'])).length = 1 := by
        rw [Part.utf8_eq]
        rfl
      rw [hsplit, Part.utf8_append, List.length_append, ih, hone, Nat.add_comm]
  exact hall _

theorem canonical_singleton (pair : String × String) : canonical [pair] = [pair] := by
  rw [canonical, List.mergeSort_singleton]
  rfl

theorem not_canonical_longKey : ¬ Canonical [(longKey, "")] := by
  intro h
  have hfits := pairs_fromPairs_iff.1 h.pairs
  rw [canonical_singleton] at hfits
  have hlength := (hfits _ List.mem_cons_self).1
  rw [length_longKey] at hlength
  exact lt_irrefl _ hlength

end SeriesLabels

end Metrics

end Obsy
