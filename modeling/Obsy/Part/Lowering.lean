import Obsy.Part.Reader

/-!
# Line filters and the case of letters

The filter of the trigrams of a row group holds its lines lowered one character at a time, and a
query asks it for a text lowered as a whole.  The two differ on a capital sigma at the end of a
word, which only the second turns into a final sigma.

* `lowercaseInto`, `toLowercase`: the two ways to lower a text.
* `LineFilters.bloomPrune`: whether the filter of a row group admits a line filter.
* `LineFilters.bloomPrune_iff`: it admits every line filter that a line of the group matches,
  whatever the hashing, exactly where the trigrams of the final sigmas are on some line.
-/

namespace Obsy

namespace Part

open Logql (LineFilter Hir)

/-! ### Lowering texts -/

/-- What the standard library knows of the case of characters. -/
structure CaseTables where
  /-- `char::to_lowercase`. -/
  charLower : Char → List Char
  caseIgnorable : Char → Bool
  cased : Char → Bool
  charLower_ascii : ∀ c : Char, c.val < 128 → charLower c = [c.toLower]
  charLower_sigma : charLower 'Σ' = ['σ']

namespace CaseTables

variable (tables : CaseTables)

/-- Whether the first character that counts for the case is a letter with a case. -/
def caseIgnorableThenCased (chars : List Char) : Bool :=
  (chars.dropWhile tables.caseIgnorable).head?.any tables.cased

/-- The small letter of a sigma, by the characters before it, the last one first, and after it. -/
def mapUppercaseSigma (before after : List Char) : Char :=
  if tables.caseIgnorableThenCased before && !tables.caseIgnorableThenCased after then 'ς' else 'σ'

/-- Lowers the characters that come after others. -/
def toLowercaseAfter (before : List Char) : List Char → List Char
  | [] => []
  | c :: after =>
    (if c = 'Σ' then [tables.mapUppercaseSigma before after] else tables.charLower c) ++
      toLowercaseAfter (c :: before) after

/-- `str::to_lowercase`. -/
def toLowercase (text : List Char) : List Char := tables.toLowercaseAfter [] text

/-- `lowercase_into`. -/
def lowercaseInto (text : List Char) : List Char :=
  if text.all fun c => c.val < 128 then text.map Char.toLower else text.flatMap tables.charLower

/-- The branch for ASCII is none. -/
theorem lowercaseInto_eq (text : List Char) :
    tables.lowercaseInto text = text.flatMap tables.charLower := by
  rw [lowercaseInto]
  split
  case isFalse => rfl
  case isTrue hascii =>
    induction text with
    | nil => rfl
    | cons c text ih =>
      rw [List.all_cons, Bool.and_eq_true, decide_eq_true_eq] at hascii
      rw [List.map_cons, ih hascii.2, List.flatMap_cons, tables.charLower_ascii c hascii.1]
      rfl

/-- The trigrams that a text has for its final sigmas only. -/
def sigmaTrigrams (text : List Char) : List (List UInt8) :=
  (trigrams (tables.toLowercase text)).filter (· ∉ trigrams (tables.lowercaseInto text))

/-- A line has the trigrams of every text on it, where both are lowered by their characters. -/
theorem trigrams_lowercaseInto_subset {text line : List Char} (h : text <:+: line) :
    trigrams (tables.lowercaseInto text) ⊆ trigrams (tables.lowercaseInto line) := by
  obtain ⟨before, after, rfl⟩ := h
  rw [lowercaseInto_eq, lowercaseInto_eq, List.flatMap_append, List.flatMap_append]
  exact trigrams_subset ⟨_, _, rfl⟩

end CaseTables

/-! ### Filters under any hashing -/

section Hashing

variable (hash : List UInt8 → ℕ × ℕ)

/-- The bits of an item, by `double_hash`. -/
def probesBy (numBits k : ℕ) (data : List UInt8) : List ℕ :=
  (List.range k).map fun i => ((hash data).1 + (hash data).2 * i) % 2 ^ 64 % numBits

def BloomFilter.insertBy (filter : BloomFilter) (data : List UInt8) : BloomFilter :=
  { filter with
    bits := (probesBy hash filter.numBits filter.k data).foldl (fun bits i => bits.set i true)
      filter.bits }

/-- `bits_contain`. -/
def BloomFilter.containsBy (filter : BloomFilter) (data : List UInt8) : Bool :=
  (probesBy hash filter.numBits filter.k data).all fun i => filter.bits.getD i false

/-- The hashing of the code. -/
def hashPair (data : List UInt8) : ℕ × ℕ :=
  (fnv1a64 data 0xcbf29ce484222325, fnv1a64 data 0x517cc1b727220a95)

variable {hash}

/-- Setting bits sets these bits and no others. -/
theorem getD_foldl_set_iff {bits : List Bool} {indexes : List ℕ} {i : ℕ} (hi : i < bits.length) :
    (indexes.foldl (fun bits i => bits.set i true) bits).getD i false = true ↔
      bits.getD i false = true ∨ i ∈ indexes := by
  refine ⟨fun h => ?_, fun h => getD_foldl_set h hi⟩
  induction indexes generalizing bits with
  | nil => exact .inl h
  | cons j indexes ih =>
    rcases ih (by rwa [List.length_set]) h with h | h
    · by_cases hij : j = i
      · exact .inr (List.mem_cons.2 (.inl hij.symm))
      · rw [List.getD_eq_getElem _ _ (by rwa [List.length_set]), List.getElem_set_ne hij] at h
        rw [List.getD_eq_getElem _ _ hi]
        exact .inl h
    · exact .inr (List.mem_cons_of_mem _ h)

theorem getD_foldl_insertBy {filter : BloomFilter} {items : List (List UInt8)} {i : ℕ}
    (hi : i < filter.bits.length) :
    (items.foldl (BloomFilter.insertBy hash) filter).bits.getD i false = true ↔
      filter.bits.getD i false = true ∨
        ∃ item ∈ items, i ∈ probesBy hash filter.numBits filter.k item := by
  induction items generalizing filter with
  | nil => simp
  | cons first items ih =>
    rw [List.foldl_cons, ih (by rwa [BloomFilter.insertBy, length_foldl_set]),
      BloomFilter.insertBy, getD_foldl_set_iff hi]
    simp only [List.mem_cons, exists_eq_or_imp, or_assoc]

theorem foldl_insertBy_numBits (filter : BloomFilter) (items : List (List UInt8)) :
    (items.foldl (BloomFilter.insertBy hash) filter).numBits = filter.numBits ∧
      (items.foldl (BloomFilter.insertBy hash) filter).k = filter.k := by
  induction items generalizing filter with
  | nil => exact ⟨rfl, rfl⟩
  | cons first items ih => exact ih (filter.insertBy hash first)

/-- A filter of some items admits those whose bits are all bits of them. -/
theorem containsBy_foldl_insertBy {size : ℕ × ℕ} (hpos : 0 < size.1)
    {items : List (List UInt8)} {item : List UInt8} :
    (items.foldl (BloomFilter.insertBy hash) (.withCapacity size)).containsBy hash item = true ↔
      ∀ i ∈ probesBy hash size.1 size.2 item,
        ∃ other ∈ items, i ∈ probesBy hash size.1 size.2 other := by
  obtain ⟨hbits, hk⟩ := @foldl_insertBy_numBits hash (.withCapacity size) items
  rw [BloomFilter.containsBy, hbits, hk, List.all_eq_true]
  refine forall₂_congr fun i hi => ?_
  have hlt : i < size.1 := by
    obtain ⟨j, -, rfl⟩ := List.mem_map.1 hi
    exact Nat.mod_lt _ hpos
  have hlen : i < (BloomFilter.withCapacity size).bits.length := by
    rwa [BloomFilter.withCapacity, List.length_replicate]
  rw [getD_foldl_insertBy hlen, BloomFilter.withCapacity, List.getD_replicate _ hlt]
  simp

/-- The hashing that tells one item from all others. -/
def hashOnly (item data : List UInt8) : ℕ × ℕ := if data = item then (1, 0) else (0, 0)

theorem mem_probesBy_hashOnly {numBits k : ℕ} {item data : List UInt8}
    (h : 1 ∈ probesBy (hashOnly item) numBits k data) : data = item := by
  obtain ⟨i, -, hi⟩ := List.mem_map.1 h
  by_contra hne
  rw [hashOnly, if_neg hne] at hi
  simp at hi

theorem one_mem_probesBy_hashOnly {numBits k : ℕ} (hbits : 1 < numBits) (hk : 0 < k)
    (item : List UInt8) : 1 ∈ probesBy (hashOnly item) numBits k item := by
  refine List.mem_map.2 ⟨0, List.mem_range.2 hk, ?_⟩
  rw [hashOnly, if_pos rfl]
  exact Nat.mod_eq_of_lt hbits

/-- A filter admits an item under every hashing exactly where it is one of its own. -/
theorem containsBy_iff_mem {size : ℕ × ℕ} (hbits : 1 < size.1) (hk : 0 < size.2)
    {items : List (List UInt8)} {item : List UInt8} :
    (∀ hash, (items.foldl (BloomFilter.insertBy hash) (.withCapacity size)).containsBy hash item
      = true) ↔ item ∈ items := by
  have hpos : 0 < size.1 := by omega
  constructor
  · intro h
    obtain ⟨other, hother, hprobe⟩ := (containsBy_foldl_insertBy hpos).1 (h (hashOnly item)) 1
      (one_mem_probesBy_hashOnly hbits hk item)
    rwa [← mem_probesBy_hashOnly hprobe]
  · intro h hash
    exact (containsBy_foldl_insertBy hpos).2 fun i hi => ⟨item, h, hi⟩

end Hashing

/-! ### The size of a filter -/

/-- The floating-point sizes of a filter, before they are bounded and rounded. -/
structure FilterMath where
  bits : ℕ → ℕ
  /-- The number of probes, by the bits and the items. -/
  k : ℕ → ℕ → ℕ

def FilterMath.optimalBits (math : FilterMath) (n : ℕ) : ℕ :=
  if n = 0 then 8192 else (max (math.bits n) 1024 + 7) / 8 * 8

def FilterMath.optimalK (math : FilterMath) (m n : ℕ) : ℕ :=
  if n = 0 then 4 else min (max (math.k m n) 1) 16

/-- The bits and probes of a filter for some items. -/
def FilterMath.sizing (math : FilterMath) (n : ℕ) : ℕ × ℕ :=
  (math.optimalBits n, math.optimalK (math.optimalBits n) n)

theorem FilterMath.one_lt_sizing (math : FilterMath) (n : ℕ) : 1 < (math.sizing n).1 := by
  simp only [sizing, optimalBits]
  split
  · norm_num
  · omega

theorem FilterMath.sizing_pos (math : FilterMath) (n : ℕ) : 0 < (math.sizing n).2 := by
  simp only [sizing, optimalK]
  split
  · norm_num
  · omega

/-! ### Pruning by a line filter -/

namespace LineFilters

variable (parseRegex : String → Option Hir) (tables : CaseTables)

/-- The texts that a line filter looks up. -/
def literals : LineFilter → List String
  | .contains needle => [needle]
  | .regex re => Logql.requiredRegexLiterals parseRegex re.pattern
  | .notContains _ | .notRegex _ => []

/-- The distinct trigrams of some lines: `TrigramSet`. -/
def trigramSet (lines : List String) : List (List UInt8) :=
  (lines.flatMap fun line => trigrams (tables.lowercaseInto line.toList)).dedup

/-- The filter of the lines of a row group. -/
def lineFilter (hash : List UInt8 → ℕ × ℕ) (sizing : ℕ → ℕ × ℕ) (lines : List String) :
    BloomFilter :=
  (trigramSet tables lines).foldl (BloomFilter.insertBy hash)
    (.withCapacity (sizing (max (trigramSet tables lines).length 1)))

/-- `might_contain_substr`. -/
def mightContainSubstr (hash : List UInt8 → ℕ × ℕ) (filter : BloomFilter) (needle : String) :
    Bool :=
  (trigrams (tables.toLowercase needle.toList)).all (filter.containsBy hash)

/-- Whether the filter of a row group admits a line filter. -/
def bloomPrune (hash : List UInt8 → ℕ × ℕ) (filter : BloomFilter) (lineFilter : LineFilter) :
    Bool :=
  (literals parseRegex lineFilter).all (mightContainSubstr tables hash filter)

variable {parseRegex tables}

/-- A line that a filter matches contains what the filter looks up. -/
theorem infix_of_matches {filter : LineFilter} {line literal : String}
    (hregex : ∀ re, filter = .regex re → re.ReadsAs parseRegex)
    (hmatch : filter.matches line = true) (hliteral : literal ∈ literals parseRegex filter) :
    literal.toList <:+: line.toList := by
  cases filter with
  | contains needle =>
    rw [List.mem_singleton.1 hliteral]
    simpa only [LineFilter.matches, Logql.containsText, decide_eq_true_eq] using hmatch
  | regex re =>
    obtain ⟨hmem, -⟩ := List.mem_filter.1 hliteral
    cases hparse : parseRegex re.pattern with
    | none =>
      rw [hparse] at hmem
      cases hmem
    | some hir =>
      rw [hparse] at hmem
      obtain ⟨chars, hchars, hwithin⟩ := hregex re rfl line hir hmatch hparse
      exact (Hir.Matches.infix_of_mem hir hchars hmem).trans hwithin
  | notContains _ => cases hliteral
  | notRegex _ => cases hliteral

/-- The filter of the lines admits a text under every hashing exactly where they have its
trigrams. -/
theorem mightContainSubstr_iff {sizing : ℕ → ℕ × ℕ} (hsizing : ∀ n, 1 < (sizing n).1)
    (hprobes : ∀ n, 0 < (sizing n).2) (lines : List String) (needle : String) :
    (∀ hash, mightContainSubstr tables hash (lineFilter tables hash sizing lines) needle = true) ↔
      ∀ trigram ∈ trigrams (tables.toLowercase needle.toList), trigram ∈ trigramSet tables lines := by
  simp only [mightContainSubstr, List.all_eq_true]
  constructor
  · intro h trigram hmem
    exact (containsBy_iff_mem (hsizing _) (hprobes _)).1 fun hash => h hash trigram hmem
  · intro h hash trigram hmem
    exact (containsBy_iff_mem (hsizing _) (hprobes _)).2 (h trigram hmem) hash

theorem mem_trigramSet {lines : List String} {trigram : List UInt8} :
    trigram ∈ trigramSet tables lines ↔
      ∃ line ∈ lines, trigram ∈ trigrams (tables.lowercaseInto line.toList) := by
  rw [trigramSet, List.mem_dedup, List.mem_flatMap]

/-- Where a line has a text, only the trigrams of its final sigmas may be missing. -/
theorem trigrams_subset_iff {lines : List String} {literal : String}
    (h : ∃ line ∈ lines, literal.toList <:+: line.toList) :
    (∀ trigram ∈ trigrams (tables.toLowercase literal.toList), trigram ∈ trigramSet tables lines) ↔
      ∀ trigram ∈ tables.sigmaTrigrams literal.toList,
        ∃ line ∈ lines, trigram ∈ trigrams (tables.lowercaseInto line.toList) := by
  constructor
  · intro hall trigram hmem
    exact mem_trigramSet.1 (hall trigram (List.mem_filter.1 hmem).1)
  · intro hsigma trigram hmem
    by_cases hplain : trigram ∈ trigrams (tables.lowercaseInto literal.toList)
    · obtain ⟨line, hline, hwithin⟩ := h
      exact mem_trigramSet.2
        ⟨line, hline, tables.trigrams_lowercaseInto_subset hwithin hplain⟩
    · exact mem_trigramSet.2 (hsigma trigram (List.mem_filter.2 ⟨hmem, by simpa using hplain⟩))

/-- A line filter that matches a line of a row group keeps the group, whatever the hashing,
exactly where the lines have the trigrams of the final sigmas it looks up. -/
theorem bloomPrune_iff (math : FilterMath) {filter : LineFilter}
    (hregex : ∀ re, filter = .regex re → re.ReadsAs parseRegex) {lines : List String}
    (hmatch : ∃ line ∈ lines, filter.matches line = true) :
    (∀ hash, bloomPrune parseRegex tables hash (lineFilter tables hash math.sizing lines) filter
      = true) ↔
      ∀ literal ∈ literals parseRegex filter, ∀ trigram ∈ tables.sigmaTrigrams literal.toList,
        ∃ line ∈ lines, trigram ∈ trigrams (tables.lowercaseInto line.toList) := by
  obtain ⟨line, hline, hmatches⟩ := hmatch
  have hone : ∀ literal ∈ literals parseRegex filter,
      ((∀ hash, mightContainSubstr tables hash (lineFilter tables hash math.sizing lines) literal
        = true) ↔
        ∀ trigram ∈ tables.sigmaTrigrams literal.toList,
          ∃ line ∈ lines, trigram ∈ trigrams (tables.lowercaseInto line.toList)) := by
    intro literal hliteral
    rw [mightContainSubstr_iff math.one_lt_sizing math.sizing_pos]
    exact trigrams_subset_iff ⟨line, hline, infix_of_matches hregex hmatches hliteral⟩
  simp only [bloomPrune, List.all_eq_true]
  constructor
  · intro h literal hliteral
    exact (hone literal hliteral).1 fun hash => h hash literal hliteral
  · intro h hash literal hliteral
    exact (hone literal hliteral).2 (h literal hliteral) hash

/-! ### A final sigma -/

def greekTables : CaseTables where
  charLower c :=
    if 0x391 ≤ c.toNat ∧ c.toNat ≤ 0x3a9 then [Char.ofNat (c.toNat + 32)] else [c.toLower]
  caseIgnorable c := [39, 46, 58, 94, 96].contains c.toNat
  cased c := c.isAlpha || (0x391 ≤ c.toNat && c.toNat ≤ 0x3c9)
  charLower_ascii c hc := by
    rw [if_neg]
    intro hgreek
    have hlt : c.toNat < 128 := UInt32.lt_iff_toNat_lt.1 hc
    omega
  charLower_sigma := by decide

/-- The sizes for one false positive in a hundred. -/
def hundredth : FilterMath := ⟨fun n => n * 959 / 100 + 1, fun m n => m * 693 / 1000 / n⟩

/-- Another line may have the trigrams of the final sigma. -/
theorem bloomPrune_iff_sample :
    (LineFilter.contains "ΟΔΟΣ").matches "ΟΔΟΣ" = true ∧
    ∀ hash, bloomPrune (fun _ => none) greekTables hash
      (lineFilter greekTables hash hundredth.sizing ["ΟΔΟΣ", "η οδος"]) (.contains "ΟΔΟΣ")
        = true := by
  have hmatch : (LineFilter.contains "ΟΔΟΣ").matches "ΟΔΟΣ" = true := by decide +kernel
  refine ⟨hmatch, ?_⟩
  refine (bloomPrune_iff hundredth ?_ ⟨"ΟΔΟΣ", List.mem_cons_self, hmatch⟩).2 ?_
  · exact fun _ h => LineFilter.noConfusion h
  · decide +kernel

/-- Asked for its one line, the filter of a row group rejects the group. -/
theorem bloomPrune_loses_finalSigma :
    (LineFilter.contains "ΟΔΟΣ").matches "ΟΔΟΣ" = true ∧
    bloomPrune (fun _ => none) greekTables hashPair
      (lineFilter greekTables hashPair hundredth.sizing ["ΟΔΟΣ"]) (.contains "ΟΔΟΣ") = false := by
  decide +kernel

end LineFilters

end Part

end Obsy
