import Obsy.Bytes.Framing
import Obsy.Logql.Pipeline
import Obsy.Runs.Fallible

/-!
# The filters of a part

For every row group a part keeps a filter of the trigrams of its lines and, for every window of
1024 rows, a filter of the exact values of its fields.  A filter that lacks a token proves that
no row of its window has it.

* `BloomFilter`: bits that only ever get set.
* `encodeGroupBlooms`: the filters of a row group.
* `exactFieldWindowMask`: the windows that may hold a row with given fields.
* `mem_exactFieldWindowMask`: the window of such a row is among them.
-/

namespace Obsy

namespace Part

open Logql (JsonValue ExactFieldPredicate Supplied)

/-! ### Bloom filters -/

/-- Bits, and how many of them an item sets. -/
structure BloomFilter where
  numBits : ℕ
  k : ℕ
  bits : List Bool
deriving DecidableEq

def fnv1a64 (data : List UInt8) (seed : ℕ) : ℕ :=
  data.foldl (fun h b => (h ^^^ b.toNat) * 0x100000001b3 % 2 ^ 64) seed

/-- The bits of an item: `double_hash` of its two hashes. -/
def probes (numBits k : ℕ) (data : List UInt8) : List ℕ :=
  let h1 := fnv1a64 data 0xcbf29ce484222325
  let h2 := fnv1a64 data 0x517cc1b727220a95
  (List.range k).map fun i => (h1 + h2 * i) % 2 ^ 64 % numBits

def BloomFilter.insert (filter : BloomFilter) (data : List UInt8) : BloomFilter :=
  { filter with
    bits := (probes filter.numBits filter.k data).foldl (fun bits i => bits.set i true) filter.bits }

def BloomFilter.contains (filter : BloomFilter) (data : List UInt8) : Bool :=
  (probes filter.numBits filter.k data).all fun i => filter.bits.getD i false

/-- An empty filter of the size that a number of items calls for. -/
def BloomFilter.withCapacity (size : ℕ × ℕ) : BloomFilter :=
  ⟨size.1, size.2, List.replicate size.1 false⟩

theorem getD_foldl_set {bits : List Bool} {indexes : List ℕ} {i : ℕ}
    (h : bits.getD i false = true ∨ i ∈ indexes) (hi : i < bits.length) :
    (indexes.foldl (fun bits i => bits.set i true) bits).getD i false = true := by
  induction indexes generalizing bits with
  | nil => simpa using h
  | cons j indexes ih =>
    refine ih ?_ (by rwa [List.length_set])
    by_cases hij : j = i
    · subst hij
      left
      rw [List.getD_eq_getElem _ _ (by rwa [List.length_set]), List.getElem_set_self]
    · rcases h with h | h
      · left
        rw [List.getD_eq_getElem _ _ (by rwa [List.length_set]), List.getElem_set_ne hij]
        rwa [List.getD_eq_getElem _ _ hi] at h
      · exact .inr ((List.mem_cons.1 h).resolve_left (Ne.symm hij))

theorem length_foldl_set (bits : List Bool) (indexes : List ℕ) :
    (indexes.foldl (fun bits i => bits.set i true) bits).length = bits.length := by
  induction indexes generalizing bits with
  | nil => rfl
  | cons i indexes ih => rw [List.foldl_cons, ih, List.length_set]

theorem lt_of_mem_probes {numBits k i : ℕ} (hpos : 0 < numBits) {data : List UInt8}
    (h : i ∈ probes numBits k data) : i < numBits := by
  obtain ⟨j, -, rfl⟩ := List.mem_map.1 h
  exact Nat.mod_lt _ hpos

/-- The filter of some items, each inserted in turn, has all of them. -/
theorem contains_foldl_insert {filter : BloomFilter} {items : List (List UInt8)}
    {item : List UInt8} (hpos : 0 < filter.numBits) (hlen : filter.bits.length = filter.numBits)
    (h : filter.contains item = true ∨ item ∈ items) :
    (items.foldl BloomFilter.insert filter).contains item = true := by
  induction items generalizing filter with
  | nil => simpa using h
  | cons first items ih =>
    have hlen' : (filter.insert first).bits.length = (filter.insert first).numBits := by
      rw [BloomFilter.insert, length_foldl_set]
      exact hlen
    refine ih hpos hlen' ?_
    · rcases h with h | h
      · left
        refine List.all_eq_true.2 fun i hi => getD_foldl_set (.inl ?_) ?_
        · exact List.all_eq_true.1 h i hi
        · rw [hlen]
          exact lt_of_mem_probes hpos hi
      · rcases List.mem_cons.1 h with rfl | h
        · left
          refine List.all_eq_true.2 fun i hi => getD_foldl_set (.inr hi) ?_
          rw [hlen]
          exact lt_of_mem_probes hpos hi
        · exact .inr h

/-! ### The tokens of a row -/

/-- The bytes of a text. -/
def utf8 (s : String) : List UInt8 := s.toUTF8.toList

/-- The token of a field with a value, unless one of them is too large. -/
def encodeExactFieldToken (name value : String) : Option (List UInt8) :=
  if (utf8 name).length < 2 ^ 32 ∧ (utf8 value).length < 2 ^ 32 then
    some ([0x46, 0x45, 0x51, 0x31] ++ [0] ++
      Bytes.leBytes 4 (utf8 name).length ++ utf8 name ++
      Bytes.leBytes 4 (utf8 value).length ++ utf8 value)
  else none

/-- The fields the `logfmt` parser reads, which the index holds besides those of `json`. -/
def indexedLogfmtFields (line : String) : Pairs :=
  if '=' ∈ line.toList then (Logql.extractLogfmt line).getD [] else []

/-- What the index holds of a row: every field with every form of its value. -/
def indexedFields (row : Row) (fields : Option Pairs) : Pairs :=
  (row.structuredMetadata ++ fields.getD [] ++ indexedLogfmtFields row.line).flatMap fun p =>
    (Logql.canonicalIndexValues p.2).map fun value => (p.1, value)

/-- The tokens of some rows, or `none` where one is too large. -/
def windowTokens (rows : List (Row × Option Pairs)) : Option (List (List UInt8)) :=
  (rows.flatMap fun r => indexedFields r.1 r.2).mapM fun p => encodeExactFieldToken p.1 p.2

/-! ### The filters of a row group -/

def bloomWindowRows : ℕ := 1024

def maxExactTokensPerWindow : ℕ := 65536

inductive WindowBloom where
  | absent
  /-- More tokens than a filter is made for. -/
  | saturated
  | filter (bloom : BloomFilter)
deriving DecidableEq

/-- The filters of a row group; without any token it has no windows. -/
structure GroupBlooms where
  line : BloomFilter
  exactFields : List WindowBloom
deriving DecidableEq

variable (sizing : ℕ → ℕ × ℕ)

def windowBloom (tokens : List (List UInt8)) : WindowBloom :=
  if tokens = [] then .absent
  else if maxExactTokensPerWindow < tokens.length then .saturated
  else .filter (tokens.foldl BloomFilter.insert (.withCapacity (sizing tokens.length)))

def windowsOf {α : Type*} (rows : List α) : List (List α) :=
  (List.range ((rows.length + bloomWindowRows - 1) / bloomWindowRows)).map fun window =>
    (rows.drop (window * bloomWindowRows)).take bloomWindowRows

/-- The trigrams of a text in lower case. -/
def trigrams (lower : List Char) : List (List UInt8) :=
  let bytes := utf8 (String.ofList lower)
  (List.range (bytes.length - 2)).map fun i => (bytes.drop i).take 3

theorem toList_loop (bytes : ByteArray) (i : ℕ) (read : List UInt8) :
    ByteArray.toList.loop bytes i read = read.reverse ++ bytes.data.toList.drop i := by
  induction hn : bytes.size - i generalizing i read with
  | zero =>
    rw [ByteArray.toList.loop, if_neg (by omega), List.drop_eq_nil_of_le, List.append_nil]
    rw [Array.length_toList, ByteArray.size_data]
    omega
  | succ n ih =>
    have hi : i < bytes.data.toList.length := by
      rw [Array.length_toList, ByteArray.size_data]
      omega
    have hget : bytes.get! i = bytes.data.toList[i] := by
      rw [ByteArray.get!, getElem!_pos bytes.data i (by simpa using hi), Array.getElem_toList]
    rw [ByteArray.toList.loop, if_pos (by omega), ih _ _ (by omega), List.reverse_cons,
      List.append_assoc, List.drop_eq_getElem_cons hi, hget]
    rfl

theorem utf8_eq (s : String) : utf8 s = s.toByteArray.data.toList := by
  rw [utf8, ByteArray.toList, toList_loop]
  rfl

theorem utf8_injective : Function.Injective utf8 := by
  intro a b h
  rw [utf8_eq, utf8_eq, Array.toList_inj] at h
  exact String.toByteArray_inj.1 (ByteArray.ext h)

theorem utf8_append (a b : List Char) :
    utf8 (String.ofList (a ++ b)) = utf8 (String.ofList a) ++ utf8 (String.ofList b) := by
  rw [utf8_eq, utf8_eq, utf8_eq, String.ofList_append, String.toByteArray_append,
    ByteArray.toList_data_append]

/-- A text has the trigrams of every text in it. -/
theorem trigrams_subset {inner lower : List Char} (h : inner <:+: lower) :
    trigrams inner ⊆ trigrams lower := by
  obtain ⟨before, after, rfl⟩ := h
  intro trigram ht
  obtain ⟨i, hi, rfl⟩ := List.mem_map.1 ht
  rw [List.mem_range] at hi
  have hbytes := utf8_append (before ++ inner) after
  rw [utf8_append before inner] at hbytes
  refine List.mem_map.2 ⟨(utf8 (String.ofList before)).length + i, ?_, ?_⟩
  · rw [List.mem_range, hbytes, List.length_append, List.length_append]
    omega
  · rw [hbytes, List.append_assoc, ← List.drop_drop, List.drop_left,
      List.drop_append_of_le_length (by omega),
      List.take_append_of_le_length (by rw [List.length_drop]; omega)]

/-- The filter of the trigrams of some lines, lowered one character at a time. -/
def lineBloom (lineSizing : ℕ → ℕ × ℕ) (charLower : Char → List Char) (lines : List String) :
    BloomFilter :=
  let found := (lines.flatMap fun line => trigrams (line.toList.flatMap charLower)).dedup
  found.foldl BloomFilter.insert (.withCapacity (lineSizing (max found.length 1)))

/-- The filters of the rows of a group, each with the fields of its line. -/
def encodeGroupBlooms (lineSizing : ℕ → ℕ × ℕ) (charLower : Char → List Char)
    (rows : List (Row × Option Pairs)) : Option GroupBlooms :=
  ((windowsOf rows).mapM windowTokens).map fun windows =>
    { line := lineBloom lineSizing charLower (rows.map fun r => r.1.line)
      exactFields := if windows.all (· = []) then [] else windows.map (windowBloom sizing) }

/-! ### Asking the filters -/

/-- The windows a predicate admits, or `none` where the filters cannot answer. -/
def predicateWindowMask (windows : List WindowBloom) (p : ExactFieldPredicate) :
    Option (List Bool) :=
  if p.value = "" then none
  else if windows = [] then some []
  else (encodeExactFieldToken p.name p.value).map fun token => windows.map fun window =>
    match window with
    | .absent => false
    | .saturated => true
    | .filter bloom => bloom.contains token

/-- The windows that every predicate admits. -/
def exactFieldWindowMask (windows : List WindowBloom) :
    List ExactFieldPredicate → Option (List Bool)
  | [] => none
  | p :: predicates =>
    match predicateWindowMask windows p, exactFieldWindowMask windows predicates with
    | none, rest => rest
    | some mask, none => some mask
    | some mask, some rest => some (mask.zipWith (· && ·) rest)

variable {sizing}

/-- The fields of a line a writer worked with miss none that `json` extracts. -/
def FieldsComplete (parseJson : String → Option JsonValue) (line : String)
    (fields : Option Pairs) : Prop :=
  ∀ extracted, Logql.extractJson parseJson line = some extracted →
    ∀ name value, extracted.lookup name = some value →
      ∃ known, fields = some known ∧ known.lookup name = some value

theorem mem_of_lookup {pairs : Pairs} {name value : String} (h : pairs.lookup name = some value) :
    (name, value) ∈ pairs := by
  obtain ⟨before, after, rfl, -⟩ := List.lookup_eq_some_iff.1 h
  simp

theorem mem_indexedFields {parseJson : String → Option JsonValue} {row : Row}
    {fields : Option Pairs} (hfields : FieldsComplete parseJson row.line fields)
    {p : ExactFieldPredicate} (h : p.HoldsOn parseJson row.structuredMetadata row.line)
    (hne : p.value ≠ "") : (p.name, p.value) ∈ indexedFields row fields := by
  obtain ⟨actual, hsupplied, hform⟩ := h hne
  have hsource : (p.name, actual) ∈
      row.structuredMetadata ++ fields.getD [] ++ indexedLogfmtFields row.line := by
    rw [List.mem_append, List.mem_append]
    rcases hsupplied with h | ⟨-, -, ⟨extracted, hx, hl⟩ | ⟨-, extracted, hx, hl⟩⟩
    · exact .inl (.inl (mem_of_lookup h))
    · obtain ⟨known, rfl, hk⟩ := hfields extracted hx _ _ hl
      exact .inl (.inr (mem_of_lookup hk))
    · right
      by_cases heq : '=' ∈ row.line.toList
      · rw [indexedLogfmtFields, if_pos heq, hx]
        exact mem_of_lookup hl
      · rw [Logql.extractLogfmt_of_not_mem heq hx] at hl
        cases hl
  refine List.mem_flatMap.2 ⟨_, hsource, List.mem_map.2 ⟨p.value, ?_, rfl⟩⟩
  split at hform
  · exact hform
  · rw [hform]
    exact Logql.mem_canonicalIndexValues.2 (.inl rfl)

theorem getElem?_windowsOf {α : Type*} {rows : List α} {i : ℕ} {row : α}
    (h : rows[i]? = some row) :
    ∃ window, (windowsOf rows)[i / bloomWindowRows]? = some window ∧ row ∈ window := by
  have hi : i < rows.length := (List.getElem?_eq_some_iff.1 h).1
  have hw : i / bloomWindowRows < (rows.length + bloomWindowRows - 1) / bloomWindowRows := by
    simp only [bloomWindowRows]
    omega
  refine ⟨(rows.drop (i / bloomWindowRows * bloomWindowRows)).take bloomWindowRows, ?_, ?_⟩
  · rw [windowsOf, List.getElem?_map, List.getElem?_range hw]
    rfl
  · refine List.mem_iff_getElem?.2 ⟨i % bloomWindowRows, ?_⟩
    rw [List.getElem?_take_of_lt (Nat.mod_lt _ (by decide)), List.getElem?_drop,
      Nat.div_add_mod' i bloomWindowRows]
    exact h

/-- Whether the filter of a window admits a token. -/
def WindowBloom.admits (token : List UInt8) : WindowBloom → Bool
  | .absent => false
  | .saturated => true
  | .filter bloom => bloom.contains token

/-- The window of a row admits the tokens of all fields of the row. -/
theorem window_admits (hsizing : ∀ n, 0 < (sizing n).1) {lineSizing : ℕ → ℕ × ℕ}
    {charLower : Char → List Char} {rows : List (Row × Option Pairs)} {blooms : GroupBlooms}
    (hblooms : encodeGroupBlooms sizing lineSizing charLower rows = some blooms) {i : ℕ}
    {row : Row} {fields : Option Pairs} (hrow : rows[i]? = some (row, fields))
    {p : String × String} (hp : p ∈ indexedFields row fields) :
    ∃ token window, encodeExactFieldToken p.1 p.2 = some token ∧
      blooms.exactFields[i / bloomWindowRows]? = some window ∧ window.admits token = true := by
  obtain ⟨windows, hwindows, rfl⟩ := Option.map_eq_some_iff.1 hblooms
  -- the tokens of the window of the row
  obtain ⟨window, hwindow, hmem⟩ := getElem?_windowsOf hrow
  obtain ⟨tokens, htokens, hwindowTokens⟩ := Runs.mem_of_mapM_some hwindows (List.mem_of_getElem? hwindow)
  have hget := Runs.getElem?_of_mapM_some hwindows (i / bloomWindowRows)
  rw [hwindow, Option.bind_some, hwindowTokens] at hget
  obtain ⟨token, htoken, hencode⟩ :=
    Runs.mem_of_mapM_some hwindowTokens (List.mem_flatMap.2 ⟨_, hmem, hp⟩)
  have hsome : (windows.all (· = [])) = false := by
    rw [List.all_eq_false]
    exact ⟨tokens, htokens, by simp [List.ne_nil_of_mem htoken]⟩
  refine ⟨token, windowBloom sizing tokens, hencode, ?_, ?_⟩
  · dsimp only
    rw [hsome, if_neg Bool.false_ne_true, List.getElem?_map, ← hget]
    rfl
  · simp only [windowBloom, List.ne_nil_of_mem htoken, ↓reduceIte]
    by_cases hmany : maxExactTokensPerWindow < tokens.length
    · rw [if_pos hmany]
      rfl
    · rw [if_neg hmany]
      exact contains_foldl_insert (hsizing _) (List.length_replicate ..) (.inr htoken)

/-- The window of a row on which a predicate holds is one its token is in. -/
theorem predicateWindowMask_admits {parseJson : String → Option JsonValue}
    (hsizing : ∀ n, 0 < (sizing n).1) {lineSizing : ℕ → ℕ × ℕ} {charLower : Char → List Char}
    {rows : List (Row × Option Pairs)} {blooms : GroupBlooms}
    (hblooms : encodeGroupBlooms sizing lineSizing charLower rows = some blooms) {i : ℕ}
    {row : Row} {fields : Option Pairs} (hrow : rows[i]? = some (row, fields))
    (hfields : FieldsComplete parseJson row.line fields) {p : ExactFieldPredicate}
    (h : p.HoldsOn parseJson row.structuredMetadata row.line) {mask : List Bool}
    (hmask : predicateWindowMask blooms.exactFields p = some mask) :
    mask[i / bloomWindowRows]? = some true := by
  rw [predicateWindowMask] at hmask
  split at hmask
  case isTrue => cases hmask
  case isFalse hne =>
    obtain ⟨token, window, hencode, hwindow, hadmits⟩ :=
      window_admits hsizing hblooms hrow (mem_indexedFields hfields h hne)
    have hsome : blooms.exactFields ≠ [] := List.ne_nil_of_mem (List.mem_of_getElem? hwindow)
    rw [if_neg hsome, hencode, Option.map_some, Option.some.injEq] at hmask
    rw [← hmask, List.getElem?_map, hwindow, Option.map_some, ← hadmits]
    cases window <;> rfl

/-- The window of a row on which all predicates hold is never masked out. -/
theorem mem_exactFieldWindowMask {parseJson : String → Option JsonValue}
    (hsizing : ∀ n, 0 < (sizing n).1) {lineSizing : ℕ → ℕ × ℕ} {charLower : Char → List Char}
    {rows : List (Row × Option Pairs)} {blooms : GroupBlooms}
    (hblooms : encodeGroupBlooms sizing lineSizing charLower rows = some blooms) {i : ℕ}
    {row : Row} {fields : Option Pairs} (hrow : rows[i]? = some (row, fields))
    (hfields : FieldsComplete parseJson row.line fields)
    {predicates : List ExactFieldPredicate}
    (h : ∀ p ∈ predicates, p.HoldsOn parseJson row.structuredMetadata row.line)
    {mask : List Bool} (hmask : exactFieldWindowMask blooms.exactFields predicates = some mask) :
    mask[i / bloomWindowRows]? = some true := by
  induction predicates generalizing mask with
  | nil => cases hmask
  | cons p predicates ih =>
    have hfirst : ∀ mask, predicateWindowMask blooms.exactFields p = some mask →
        mask[i / bloomWindowRows]? = some true := fun mask hp =>
      predicateWindowMask_admits hsizing hblooms hrow hfields (h p List.mem_cons_self) hp
    have hrest : ∀ mask, exactFieldWindowMask blooms.exactFields predicates = some mask →
        mask[i / bloomWindowRows]? = some true := fun mask =>
      ih fun q hq => h q (List.mem_cons_of_mem _ hq)
    rw [exactFieldWindowMask] at hmask
    split at hmask
    · exact hrest _ hmask
    · rename_i hp _
      obtain rfl := Option.some.inj hmask
      exact hfirst _ hp
    · rename_i first rest hp hr
      obtain rfl := Option.some.inj hmask
      rw [List.getElem?_zipWith, hfirst _ hp, hrest _ hr]
      rfl

end Part

end Obsy
