import Obsy.Journal.Record
import Obsy.Part.Bloom

/-!
# Series identities

The labels of a series, as the bytes that name it everywhere: each key and value with its length
before it, in the order of the keys.

* `SeriesLabels.fromPairs`, `SeriesLabels.pairs`, `SeriesLabels.canonicalPairs`: to the bytes and
  back.
* `SeriesLabels.value`: what the selectors ask of a label.
* `SeriesLabels.pairs_fromPairs`: the bytes give the pairs back, sorted and each key once.
-/

namespace Obsy

namespace Metrics

open Bytes (leBytes leNat)
open Journal (utf8Text)
open Part (utf8)

/-- The name of the metric is a label too. -/
def metricNameLabel : String := "__name__"

/-- The bytes of a label set. -/
structure SeriesLabels where
  bytes : List UInt8
deriving DecidableEq

namespace SeriesLabels

/-- Identities are ordered as their bytes. -/
def byteKey (labels : SeriesLabels) : List ℕ := labels.bytes.map UInt8.toNat

theorem byteKey_injective : Function.Injective byteKey := by
  intro a b h
  have hbytes := List.map_injective_iff.2 (fun x y hxy => UInt8.toNat_inj.1 hxy) h
  cases a
  cases b
  exact congrArg SeriesLabels.mk hbytes

instance : LinearOrder SeriesLabels := LinearOrder.lift' byteKey byteKey_injective

/-! ### Encoding -/

/-- `dedup_by` on sorted pairs: of the pairs of one key the first stays. -/
def dedupKeys : List (String × String) → List (String × String)
  | [] => []
  | pair :: rest => pair :: (dedupKeys rest).dropWhile fun later => later.1 == pair.1

/-- A text behind its length. -/
def textBytes (text : String) : List UInt8 := leBytes 4 (utf8 text).length ++ utf8 text

def ofCanonical (pairs : List (String × String)) : SeriesLabels :=
  ⟨pairs.flatMap fun pair => textBytes pair.1 ++ textBytes pair.2⟩

/-- The pairs sorted by key; the first of a key wins. -/
def canonical (pairs : List (String × String)) : List (String × String) :=
  dedupKeys (pairs.mergeSort fun a b => a.1 ≤ b.1)

def fromPairs (pairs : List (String × String)) : SeriesLabels := ofCanonical (canonical pairs)

/-! ### Decoding -/

/-- One text, and the bytes after it. -/
def take (bytes : List UInt8) : Except String (String × List UInt8) :=
  let length := leNat (bytes.take 4)
  if bytes.length < 4 ∨ (bytes.drop 4).length < length then .error "series labels truncated"
  else
    match utf8Text ((bytes.drop 4).take length) with
    | some text => .ok (text, (bytes.drop 4).drop length)
    | none => .error "series label not UTF-8"

/-- The pairs of some bytes.  A pair takes eight bytes at least, so that their number is fuel enough. -/
def pairsWithin : ℕ → List UInt8 → Except String (List (String × String))
  | 0, _ => .ok []
  | fuel + 1, bytes =>
    if bytes = [] then .ok []
    else do
      let (key, bytes) ← take bytes
      let (value, bytes) ← take bytes
      let pairs ← pairsWithin fuel bytes
      .ok ((key, value) :: pairs)

def pairs (labels : SeriesLabels) : Except String (List (String × String)) :=
  pairsWithin labels.bytes.length labels.bytes

/-- The walk of `canonical_pairs`, which ends with the first error. -/
def walk : ℕ → List UInt8 → List (Except String (String × String))
  | 0, _ => []
  | fuel + 1, bytes =>
    if bytes = [] then []
    else
      match take bytes with
      | .error error => [.error error]
      | .ok (key, bytes) =>
        match take bytes with
        | .error error => [.error error]
        | .ok (value, bytes) => .ok (key, value) :: walk fuel bytes

def canonicalPairs (labels : SeriesLabels) : List (Except String (String × String)) :=
  walk labels.bytes.length labels.bytes

/-- The value of a label, as the selectors look it up: what does not decode is skipped. -/
def value (labels : SeriesLabels) (key : String) : Option String :=
  ((labels.canonicalPairs.filterMap Except.toOption).find? fun pair => pair.1 == key).map Prod.snd

def metricName (labels : SeriesLabels) : Option String :=
  (labels.pairs.toOption.bind fun pairs => pairs.find? fun pair => pair.1 == metricNameLabel).map
    Prod.snd

/-! ### The round trip -/

/-- Texts whose lengths fit the field before them. -/
def Fits (pairs : List (String × String)) : Prop :=
  ∀ pair ∈ pairs, (utf8 pair.1).length < 2 ^ 32 ∧ (utf8 pair.2).length < 2 ^ 32

theorem utf8Text_utf8 (text : String) : utf8Text (utf8 text) = some text := by
  have h : (⟨(utf8 text).toArray⟩ : ByteArray) = text.toByteArray := by
    rw [Part.utf8_eq, Array.toArray_toList]
  rw [utf8Text, h, String.fromUTF8?, dif_pos text.isValidUTF8]
  rfl

theorem take_textBytes {text : String} (h : (utf8 text).length < 2 ^ 32) (rest : List UInt8) :
    take (textBytes text ++ rest) = .ok (text, rest) := by
  have hhead : (textBytes text ++ rest).take 4 = leBytes 4 (utf8 text).length := by
    rw [textBytes, List.append_assoc, List.take_left' (Bytes.length_leBytes ..)]
  have htail : (textBytes text ++ rest).drop 4 = utf8 text ++ rest := by
    rw [textBytes, List.append_assoc, List.drop_left' (Bytes.length_leBytes ..)]
  have hlength : leNat (leBytes 4 (utf8 text).length) = (utf8 text).length :=
    Bytes.leNat_leBytes (by omega)
  have hlong : ¬((textBytes text ++ rest).length < 4 ∨
      ((textBytes text ++ rest).drop 4).length < (utf8 text).length) := by
    rw [htail, textBytes]
    simp
  rw [take, hhead, hlength, if_neg hlong, htail, List.take_left' rfl, List.drop_left' rfl,
    utf8Text_utf8]

theorem ofCanonical_cons (pair : String × String) (pairs : List (String × String)) :
    (ofCanonical (pair :: pairs)).bytes =
      textBytes pair.1 ++ (textBytes pair.2 ++ (ofCanonical pairs).bytes) := by
  simp [ofCanonical]

theorem pairsWithin_ofCanonical {pairs : List (String × String)} (h : Fits pairs) {fuel : ℕ}
    (hfuel : (ofCanonical pairs).bytes.length ≤ fuel) :
    pairsWithin fuel (ofCanonical pairs).bytes = .ok pairs := by
  induction pairs generalizing fuel with
  | nil => cases fuel <;> rfl
  | cons pair pairs ih =>
    rw [ofCanonical_cons] at hfuel ⊢
    obtain ⟨hkey, hvalue⟩ := h pair List.mem_cons_self
    have hlong : 4 ≤ (textBytes pair.1).length := by
      rw [textBytes, List.length_append, Bytes.length_leBytes]
      omega
    have hne : textBytes pair.1 ++ (textBytes pair.2 ++ (ofCanonical pairs).bytes) ≠ [] := by
      intro hnil
      rw [(List.append_eq_nil_iff.1 hnil).1] at hlong
      simp at hlong
    rw [List.length_append, List.length_append] at hfuel
    cases fuel with
    | zero => omega
    | succ fuel =>
      have hrest : pairsWithin fuel (ofCanonical pairs).bytes = .ok pairs :=
        ih (fun p hp => h p (List.mem_cons_of_mem _ hp)) (by omega)
      rw [pairsWithin, if_neg hne, take_textBytes hkey]
      simp only [bind, Except.bind, take_textBytes hvalue, hrest]

theorem fits_canonical {pairs : List (String × String)} (h : Fits pairs) :
    Fits (canonical pairs) := by
  have hsub : ∀ {ps : List (String × String)} {pair}, pair ∈ dedupKeys ps → pair ∈ ps := by
    intro ps
    induction ps with
    | nil => exact id
    | cons p ps ih =>
      intro pair hpair
      rcases List.mem_cons.1 hpair with rfl | hpair
      · exact List.mem_cons_self
      · exact List.mem_cons_of_mem _ (ih ((List.dropWhile_sublist _).subset hpair))
  exact fun pair hpair => h pair (List.mem_mergeSort.1 (hsub hpair))

/-- **Labels round trip.** -/
theorem pairs_fromPairs {pairs : List (String × String)} (h : Fits pairs) :
    (fromPairs pairs).pairs = .ok (canonical pairs) :=
  pairsWithin_ofCanonical (fits_canonical h) le_rfl

/-- Labels of which one is there twice. -/
theorem pairs_fromPairs_sample :
    (fromPairs [("app", "x"), ("host", "b"), ("host", "a")]).pairs =
      .ok [("app", "x"), ("host", "b")] := by
  have hfits : Fits [("app", "x"), ("host", "b"), ("host", "a")] := by
    intro pair hpair
    simp only [List.mem_cons, List.not_mem_nil, or_false] at hpair
    rcases hpair with rfl | rfl | rfl <;> decide +kernel
  have hsorted : [("app", "x"), ("host", "b"), ("host", "a")].Pairwise
      fun a b : String × String => decide (a.1 ≤ b.1) = true := by
    decide +kernel
  have hcanonical : canonical [("app", "x"), ("host", "b"), ("host", "a")] =
      [("app", "x"), ("host", "b")] := by
    rw [canonical, List.mergeSort_of_pairwise hsorted]
    decide +kernel
  rw [pairs_fromPairs hfits, hcanonical]

/-- The walk of decodable labels. -/
theorem walk_of_pairsWithin {fuel : ℕ} {bytes : List UInt8} {pairs : List (String × String)}
    (h : pairsWithin fuel bytes = .ok pairs) : walk fuel bytes = pairs.map .ok := by
  induction fuel generalizing bytes pairs with
  | zero =>
    cases h
    rfl
  | succ fuel ih =>
    rw [pairsWithin] at h
    rw [walk]
    split at h
    case isTrue hnil =>
      cases h
      rw [if_pos hnil]
      rfl
    case isFalse hne =>
      rw [if_neg hne]
      cases hkey : take bytes with
      | error error => simp only [hkey, bind, Except.bind, reduceCtorEq] at h
      | ok first =>
        cases hvalue : take first.2 with
        | error error => simp only [hkey, hvalue, bind, Except.bind, reduceCtorEq] at h
        | ok second =>
          cases hrest : pairsWithin fuel second.2 with
          | error error => simp only [hkey, hvalue, hrest, bind, Except.bind, reduceCtorEq] at h
          | ok rest =>
            simp only [hkey, hvalue, hrest, bind, Except.bind, Except.ok.injEq] at h
            subst h
            simp only [hvalue, ih hrest, List.map_cons]

/-- What a selector finds in decodable labels. -/
theorem value_eq {labels : SeriesLabels} {pairs : List (String × String)}
    (h : labels.pairs = .ok pairs) (key : String) :
    labels.value key = (pairs.find? fun pair => pair.1 == key).map Prod.snd := by
  have hok : (pairs.map (Except.ok : String × String → Except String (String × String))).filterMap Except.toOption = pairs := by
    rw [List.filterMap_map]
    exact List.filterMap_some
  rw [value, canonicalPairs, walk_of_pairsWithin h, hok]

end SeriesLabels

end Metrics

end Obsy
