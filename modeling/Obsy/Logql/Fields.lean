import Obsy.Part.Row

/-!
# The fields of a line

What a parser stage of a query reads out of a line, and how it enters the fields of the entry.

* `insertExtractedWithCounter`: a field under its name or, where that is taken, under a suffix.
* `extractJson`, `extractLogfmt`: the two parsers.
-/

namespace Obsy

namespace Logql

open Obsy.Part (Pairs)

/-! ### Maps ordered by key -/

section Maps

variable {β : Type*}

/-- A map with the entries in the order of their keys. -/
abbrev Assoc (β : Type*) := List (String × β)

/-- The map with the value of one key set. -/
def put (key : String) (value : β) : Assoc β → Assoc β
  | [] => [(key, value)]
  | (name, old) :: rest =>
    if key < name then (key, value) :: (name, old) :: rest
    else if key = name then (key, value) :: rest
    else (name, old) :: put key value rest

theorem lookup_cons_ite (key name : String) (value : β) (entries : Assoc β) :
    ((key, value) :: entries : Assoc β).lookup name = if name = key then some value
      else entries.lookup name := by
  rw [List.lookup_cons]
  by_cases h : name = key
  · simp [h]
  · rw [beq_false_of_ne h, if_neg h]

theorem lookup_put (key name : String) (value : β) (entries : Assoc β) :
    (put key value entries).lookup name = if name = key then some value
      else entries.lookup name := by
  induction entries with
  | nil => rw [put, lookup_cons_ite]
  | cons entry rest ih =>
    obtain ⟨first, old⟩ := entry
    simp only [put]
    split
    case isTrue => rw [lookup_cons_ite]
    case isFalse =>
      split
      case isTrue heq =>
        subst heq
        simp only [lookup_cons_ite]
        split <;> rfl
      case isFalse hne =>
        simp only [lookup_cons_ite, ih]
        grind

@[simp] theorem lookup_put_self (key : String) (value : β) (entries : Assoc β) :
    (put key value entries).lookup key = some value := by
  rw [lookup_put, if_pos rfl]

theorem lookup_put_of_ne {key name : String} (value : β) (entries : Assoc β) (h : name ≠ key) :
    (put key value entries).lookup name = entries.lookup name := by
  rw [lookup_put, if_neg h]

end Maps

/-! ### Suffixes -/

/-- `split_once`: around the first occurrence. -/
def splitOnce (pattern : List Char) : List Char → Option (List Char × List Char)
  | [] => if pattern.isEmpty then some ([], []) else none
  | c :: s =>
    if pattern.isPrefixOf (c :: s) then some ([], (c :: s).drop pattern.length)
    else (splitOnce pattern s).map fun halves => (c :: halves.1, halves.2)

/-- `rsplit_once`: around the last occurrence. -/
def rsplitOnce (pattern s : List Char) : Option (List Char × List Char) :=
  (splitOnce pattern.reverse s.reverse).map fun halves => (halves.2.reverse, halves.1.reverse)

theorem splitOnce_append {first : Char} {pattern before after : List Char}
    (h : ∀ c ∈ before, c ≠ first) :
    splitOnce (first :: pattern) (before ++ (first :: pattern) ++ after)
      = some (before, after) := by
  induction before with
  | nil =>
    simp only [List.nil_append, List.cons_append, splitOnce]
    have : (first :: pattern).isPrefixOf (first :: (pattern ++ after)) = true := by
      rw [List.isPrefixOf_iff_prefix]
      exact ⟨after, rfl⟩
    rw [if_pos this]
    simp
  | cons c before ih =>
    have hc := h c List.mem_cons_self
    have hnot : (first :: pattern).isPrefixOf (c :: (before ++ (first :: pattern) ++ after))
        = false := by
      simp [List.isPrefixOf, Ne.symm hc]
    rw [List.cons_append, List.cons_append, splitOnce, if_neg (by rw [hnot]; simp),
      ih fun d hd => h d (List.mem_cons_of_mem _ hd)]
    rfl

/-- The name under which a second value of a field is kept. -/
def extractedName (name : String) : String := name ++ "_extracted"

/-- The name under which a later value of a field is kept. -/
def numberedName (base : String) (suffix : ℕ) : String := base ++ "_" ++ toString suffix

/-- Whether a name may have come about by a suffix. -/
def mayBeSynthesizedExtractedName (name : String) : Bool :=
  "_extracted".toList.isSuffixOf name.toList ||
    match rsplitOnce "_extracted_".toList name.toList with
    | some (_, suffix) => !suffix.isEmpty && suffix.all Char.isDigit
    | none => false

theorem synthesized_extractedName (name : String) :
    mayBeSynthesizedExtractedName (extractedName name) = true := by
  have : "_extracted".toList.isSuffixOf (extractedName name).toList = true := by
    rw [List.isSuffixOf_iff_suffix, extractedName, String.toList_append]
    exact ⟨name.toList, rfl⟩
  rw [mayBeSynthesizedExtractedName, this, Bool.true_or]

theorem isDigit_of_mem_toString {n : ℕ} {c : Char} (h : c ∈ (toString n).toList) :
    c.isDigit = true :=
  Nat.isDigit_of_mem_toDigits (b := 10) (n := n) (by decide) (by decide) (by
    rwa [Nat.toString_eq_repr, Nat.toList_repr] at h)

theorem synthesized_numberedName (name : String) (suffix : ℕ) :
    mayBeSynthesizedExtractedName (numberedName (extractedName name) suffix) = true := by
  have hsplit : rsplitOnce "_extracted_".toList (numberedName (extractedName name) suffix).toList
      = some (name.toList, (toString suffix).toList) := by
    have hrev : (numberedName (extractedName name) suffix).toList.reverse
        = (toString suffix).toList.reverse ++ "_extracted_".toList.reverse
          ++ name.toList.reverse := by
      simp [numberedName, extractedName, String.toList_append, List.reverse_append]
    have hfirst : "_extracted_".toList.reverse = '_' :: "detcartxe_".toList := by decide
    rw [rsplitOnce, hrev, hfirst, splitOnce_append]
    · simp
    · intro c hc
      have := isDigit_of_mem_toString (List.mem_reverse.1 hc)
      rintro rfl
      exact absurd this (by decide)
  have hne : (toString suffix).toList.isEmpty = false := by
    rw [Nat.toString_eq_repr, Nat.toList_repr, List.isEmpty_eq_false_iff]
    exact Nat.toDigits_ne_nil
  have hall : (toString suffix).toList.all Char.isDigit = true :=
    List.all_eq_true.2 fun c hc => isDigit_of_mem_toString hc
  rw [mayBeSynthesizedExtractedName, hsplit]
  dsimp only
  rw [hne, hall]
  simp

/-! ### Entering a field -/

/-- The fields of an entry, and the next suffix for each base name. -/
structure FieldSet where
  fields : Assoc String
  nextSuffix : Assoc ℕ

/-- `str::parse::<usize>`. -/
def parseUsize (digits : List Char) : Option ℕ :=
  let digits := if digits.head? = some '+' then digits.tail else digits
  if digits.isEmpty || !digits.all Char.isDigit then none
  else
    let value := digits.foldl (fun n c => 10 * n + (c.toNat - '0'.toNat)) 0
    if value < 2 ^ 64 then some value else none

/-- Keeps the suffixes ahead of the names that look as if one produced them. -/
def observeExtractedName (nextSuffix : Assoc ℕ) (name : String) : Assoc ℕ :=
  match (rsplitOnce "_extracted_".toList name.toList).bind fun halves =>
      (parseUsize halves.2).map fun suffix => (String.ofList halves.1, suffix) with
  | some (base, suffix) =>
    let next := max (suffix + 1) 2
    put (extractedName base) (max ((nextSuffix.lookup (extractedName base)).getD 0) next) nextSuffix
  | none =>
    if "_extracted".toList.isSuffixOf name.toList ∧ nextSuffix.lookup name = none then
      put name 2 nextSuffix
    else nextSuffix

/-- The first candidate that no field has, with the suffix after it. -/
def freeName (fields : Assoc String) (base : String) : ℕ → String → ℕ → String × ℕ
  | 0, candidate, suffix => (candidate, suffix)
  | fuel + 1, candidate, suffix =>
    if (fields.lookup candidate).isSome then
      freeName fields base fuel (numberedName base suffix) (suffix + 1)
    else (candidate, suffix)

/-- A field under its name or, where that is taken, under a suffix. -/
def insertExtractedWithCounter (set : FieldSet) (name value : String) : FieldSet :=
  if (set.fields.lookup name).isNone then
    ⟨put name value set.fields, observeExtractedName set.nextSuffix name⟩
  else
    let base := extractedName name
    let suffix := (set.nextSuffix.lookup base).getD 2
    let free := freeName set.fields base (set.fields.length + 1) base suffix
    ⟨put free.1 value set.fields, put base free.2 set.nextSuffix⟩

theorem synthesized_freeName (fields : Assoc String) (name : String) (fuel : ℕ)
    {candidate : String} (suffix : ℕ)
    (h : mayBeSynthesizedExtractedName candidate = true) :
    mayBeSynthesizedExtractedName (freeName fields (extractedName name) fuel candidate suffix).1
      = true := by
  induction fuel generalizing candidate suffix with
  | zero => exact h
  | succ fuel ih =>
    unfold freeName
    split
    · exact ih _ (synthesized_numberedName name suffix)
    · exact h

/-- A name that no suffix produces is written under itself, and only where it was free. -/
theorem lookup_insertExtracted {set : FieldSet} {name value field : String}
    (hfield : mayBeSynthesizedExtractedName field = false) :
    (insertExtractedWithCounter set name value).fields.lookup field =
      if field = name ∧ set.fields.lookup field = none then some value
      else set.fields.lookup field := by
  unfold insertExtractedWithCounter
  split
  case isTrue hfree =>
    rw [Option.isNone_iff_eq_none] at hfree
    rw [lookup_put]
    by_cases h : field = name
    · subst h
      rw [if_pos rfl, if_pos ⟨rfl, hfree⟩]
    · rw [if_neg h, if_neg fun hc => h hc.1]
  case isFalse htaken =>
    have hne : field ≠ (freeName set.fields (extractedName name) (set.fields.length + 1)
        (extractedName name) ((set.nextSuffix.lookup (extractedName name)).getD 2)).1 := by
      rintro rfl
      rw [synthesized_freeName _ _ _ _ (synthesized_extractedName name)] at hfield
      exact Bool.noConfusion hfield
    rw [lookup_put_of_ne _ _ hne, if_neg]
    rintro ⟨rfl, hnone⟩
    exact htaken (by rw [hnone]; rfl)

/-! ### `json` -/

/-- A parsed JSON value; the entries of an object are in the order of their names. -/
inductive JsonValue where
  | null
  | bool (value : Bool)
  | number (text : String)
  | string (value : String)
  | array (items : List JsonValue)
  | object (entries : List (String × JsonValue))

/-- A field name as an identifier. -/
def sanitizeFieldName (name : String) : String :=
  match name.toList with
  | [] => "_"
  | first :: rest =>
    let sanitize := fun c : Char => if c.isAlphanum || c == '_' then c else '_'
    String.ofList ((if first.isDigit then ['_', first] else [sanitize first]) ++ rest.map sanitize)

def memberPath (path name : String) : String :=
  if path.isEmpty then name else path ++ "_" ++ name

mutual

def flattenValue (path : String) : JsonValue → FieldSet → FieldSet
  | .string value, set => insertExtractedWithCounter set path value
  | .bool value, set => insertExtractedWithCounter set path (toString value)
  | .number text, set => insertExtractedWithCounter set path text
  | .object entries, set => flattenJson path entries set
  | .array items, set => flattenArray path 0 items set
  -- a null is a field without text, not an absent one
  | .null, set => insertExtractedWithCounter set path ""

def flattenArray (path : String) (index : ℕ) : List JsonValue → FieldSet → FieldSet
  | [], set => set
  | value :: rest, set =>
    flattenArray path (index + 1) rest (flattenValue (memberPath path (toString index)) value set)

def flattenJson (path : String) : List (String × JsonValue) → FieldSet → FieldSet
  | [], set => set
  | (name, value) :: rest, set =>
    flattenJson path rest (flattenValue (memberPath path (sanitizeFieldName name)) value set)

end

/-- The fields of a JSON line, or `none` for a parser error. -/
def extractJson (parseJson : String → Option JsonValue) (line : String) : Option Pairs :=
  match parseJson line with
  | some (.object entries) => some (flattenJson "" entries ⟨[], []⟩).fields
  | some (.array items) => some (flattenArray "" 0 items ⟨[], []⟩).fields
  | _ => none

/-! ### `logfmt` -/

/-- `is_ascii_whitespace`. -/
def isAsciiWhitespace (c : Char) : Bool :=
  c == ' ' || c == '\t' || c == '\n' || c == '\r' || c == '\x0c'

def digitValue (radix : ℕ) (c : Char) : Option ℕ :=
  let value := if c.isDigit then some (c.toNat - '0'.toNat)
    else if 'a' ≤ c ∧ c ≤ 'f' then some (c.toNat - 'a'.toNat + 10)
    else if 'A' ≤ c ∧ c ≤ 'F' then some (c.toNat - 'A'.toNat + 10)
    else none
  value.filter (· < radix)

/-- `u32::from_str_radix` of the digits of an escape, which may begin with a sign. -/
def parseLogfmtEscapeDigits (count radix : ℕ) (s : List Char) : Option (ℕ × List Char) := do
  let encoded := s.take count
  guard (encoded.length = count ∧ encoded.all (·.toNat < 128))
  let digits := if encoded.head? = some '+' then encoded.tail else encoded
  guard (!digits.isEmpty)
  let values ← digits.mapM (digitValue radix)
  let value := values.foldl (fun n d => radix * n + d) 0
  guard (value < 2 ^ 32)
  return (value, s.drop count)

/-- `char::from_u32`. -/
def charFromU32 (n : ℕ) : Option Char :=
  if h : n.isValidChar then some (Char.ofNatAux n h) else none

/-- One escape after its backslash. -/
def parseLogfmtEscape (s : List Char) : Option (Char × List Char) :=
  let coded := fun (count radix limit : ℕ) (s : List Char) => do
    let (n, rest) ← parseLogfmtEscapeDigits count radix s
    guard (n ≤ limit)
    let c ← charFromU32 n
    return (c, rest)
  match s with
  | 'a' :: rest => some ('\x07', rest)
  | 'b' :: rest => some ('\x08', rest)
  | 'f' :: rest => some ('\x0c', rest)
  | 'n' :: rest => some ('\n', rest)
  | 'r' :: rest => some ('\r', rest)
  | 't' :: rest => some ('\t', rest)
  | 'v' :: rest => some ('\x0b', rest)
  | '"' :: rest => some ('"', rest)
  | '\\' :: rest => some ('\\', rest)
  | 'x' :: rest => coded 2 16 255 rest
  | 'u' :: rest => coded 4 16 (2 ^ 32) rest
  | 'U' :: rest => coded 8 16 (2 ^ 32) rest
  | c :: _ => if '0' ≤ c ∧ c ≤ '7' then coded 3 8 255 s else none
  | [] => none

/-- A quoted value after its opening quote, with what follows the closing one. -/
def parseLogfmtQuoted : ℕ → List Char → List Char → Option (List Char × List Char)
  | 0, _, _ => none
  | _ + 1, _, [] => none
  | fuel + 1, value, c :: rest =>
    if c = '"' then some (value.reverse, rest)
    else if c = '\\' then
      match parseLogfmtEscape rest with
      | some (escaped, rest) => parseLogfmtQuoted fuel (escaped :: value) rest
      | none => none
    else parseLogfmtQuoted fuel (c :: value) rest

/-- The fields read so far, with the name each source key is stored under. -/
structure LogfmtState where
  fields : Assoc String
  sourceKeys : Assoc String
  nextSuffix : Assoc ℕ

/-- One `key=value`: a repeated key is overwritten, a colliding one gets a suffix. -/
def LogfmtState.store (state : LogfmtState) (rawKey value : String) : LogfmtState :=
  match state.sourceKeys.lookup rawKey with
  | some storageKey => { state with fields := put storageKey value state.fields }
  | none =>
    let key := sanitizeFieldName rawKey
    if (state.fields.lookup key).isSome then
      let base := extractedName key
      let suffix := (state.nextSuffix.lookup base).getD 2
      let taken := (state.fields.lookup base).isSome
      let storageKey := if taken then numberedName base suffix else base
      let nextSuffix := put base (if taken then suffix + 1 else suffix) state.nextSuffix
      { fields := put storageKey value state.fields
        sourceKeys := put rawKey storageKey state.sourceKeys
        nextSuffix := observeExtractedName nextSuffix storageKey }
    else
      { fields := put key value state.fields
        sourceKeys := put rawKey key state.sourceKeys
        nextSuffix := observeExtractedName state.nextSuffix key }

/-- The value after `=`, with what follows it. -/
def logfmtValue (s : List Char) : Option (List Char × List Char) :=
  match s with
  | '"' :: quoted => do
    let (value, rest) ← parseLogfmtQuoted (quoted.length + 1) [] quoted
    guard (rest.head?.all isAsciiWhitespace)
    return (value, rest)
  | _ => some (s.takeWhile fun c => !isAsciiWhitespace c, s.dropWhile fun c => !isAsciiWhitespace c)

/-- The loop of `extract_logfmt`; every turn takes a character at least. -/
def extractLogfmtFrom : ℕ → List Char → LogfmtState → Option Pairs
  | 0, _, state => some state.fields
  | fuel + 1, s, state =>
    match s.dropWhile isAsciiWhitespace with
    | [] => some state.fields
    | s =>
      let rawKey := s.takeWhile fun c => !isAsciiWhitespace c && c != '='
      match rawKey, s.dropWhile fun c => !isAsciiWhitespace c && c != '=' with
      | _ :: _, '=' :: rest =>
        match logfmtValue rest with
        | some (value, rest) =>
          extractLogfmtFrom fuel rest (state.store (String.ofList rawKey) (String.ofList value))
        | none => none
      | _, _ => none

/-- The fields of a logfmt line, or `none` for a parser error. -/
def extractLogfmt (line : String) : Option Pairs :=
  extractLogfmtFrom (line.toList.length + 1) line.toList ⟨[], [], []⟩

/-- Without an equals sign there is no field to read. -/
theorem extractLogfmt_of_not_mem {line : String} (h : '=' ∉ line.toList) {fields : Pairs}
    (hf : extractLogfmt line = some fields) : fields = [] := by
  rw [extractLogfmt, extractLogfmtFrom] at hf
  split at hf
  · exact (Option.some.inj hf).symm
  · dsimp only at hf
    split at hf
    · rename_i heq
      have hmem : '=' ∈ line.toList :=
        (List.dropWhile_sublist _).mem
          ((List.dropWhile_sublist _).mem (heq ▸ List.mem_cons_self))
      exact absurd hmem h
    · cases hf

end Logql

end Obsy
