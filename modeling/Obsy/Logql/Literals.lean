import Obsy.Logql.Pipeline

/-!
# Literals of regular expressions

The texts that every match of a regular expression contains, as far as its syntax shows them.

* `Hir`: the syntax of an expression.
* `requiredRegexLiterals`: its literals, none too short to be looked up.
* `Hir.Matches.infix_of_mem`: every match contains them.
-/

namespace Obsy

namespace Logql

/-- The high-level form of a regular expression. -/
inductive Hir where
  | empty
  | literal (bytes : List UInt8)
  /-- A character of a class, as bytes. -/
  | charClass (member : List UInt8 → Bool)
  | look
  | repetition (min : ℕ) (max : Option ℕ) (sub : Hir)
  | capture (sub : Hir)
  | concat (parts : List Hir)
  | alternation (parts : List Hir)

/-- `str::from_utf8`. -/
def fromUtf8 (bytes : List UInt8) : Option String := String.fromUTF8? ⟨bytes.toArray⟩

/-- Ends a run of literals. -/
def endRun (run : String) : List String := if run.isEmpty then [] else [run]

mutual

def collectRequiredLiterals : Hir → List String
  | .literal bytes => (fromUtf8 bytes).toList
  | .concat parts => collectConcat "" parts
  | .capture sub => collectRequiredLiterals sub
  | .repetition min _ sub => if 1 ≤ min then collectRequiredLiterals sub else []
  | .empty | .charClass _ | .look | .alternation _ => []

/-- The literals of a concatenation, with the run of literals that comes before it. -/
def collectConcat (run : String) : List Hir → List String
  | [] => endRun run
  | .literal bytes :: parts =>
    match fromUtf8 bytes with
    | some text => collectConcat (run ++ text) parts
    | none => endRun run ++ collectConcat "" parts
  | part :: parts => endRun run ++ collectRequiredLiterals part ++ collectConcat "" parts

end

/-- The literals of an expression that are long enough for a trigram. -/
def requiredRegexLiterals (parseRegex : String → Option Hir) (pattern : String) : List String :=
  ((parseRegex pattern).elim [] collectRequiredLiterals).filter fun text => 3 ≤ text.utf8ByteSize

/-! ### Matches -/

mutual

/-- A text that an expression matches.  A look-around is taken to hold everywhere. -/
def Hir.Matches : Hir → List Char → Prop
  | .empty, chars => chars = []
  | .literal bytes, chars => (fromUtf8 bytes).map String.toList = some chars
  | .charClass member, chars => ∃ c, chars = [c] ∧ member (String.singleton c).toUTF8.toList = true
  | .look, chars => chars = []
  | .repetition min max sub, chars => ∃ pieces : List (List Char), chars = pieces.flatten ∧
      min ≤ pieces.length ∧ (∀ most ∈ max, pieces.length ≤ most) ∧
      ∀ piece ∈ pieces, sub.Matches piece
  | .capture sub, chars => sub.Matches chars
  | .concat parts, chars => MatchesInTurn parts chars
  | .alternation parts, chars => MatchesOne parts chars

def MatchesInTurn : List Hir → List Char → Prop
  | [], chars => chars = []
  | part :: parts, chars => ∃ first rest, chars = first ++ rest ∧ part.Matches first ∧
      MatchesInTurn parts rest

def MatchesOne : List Hir → List Char → Prop
  | [], _ => False
  | part :: parts, chars => part.Matches chars ∨ MatchesOne parts chars

end

/-- A compiled expression finds what its syntax matches. -/
def Regex.ReadsAs (parseRegex : String → Option Hir) (re : Regex) : Prop :=
  ∀ line hir, re.isMatch line = true → parseRegex re.pattern = some hir →
    ∃ chars, hir.Matches chars ∧ chars <:+: line.toList

theorem infix_endRun {run text : String} (h : text ∈ endRun run) (chars : List Char) :
    text.toList <:+: run.toList ++ chars := by
  rw [endRun] at h
  split at h
  · cases h
  · obtain rfl := List.mem_singleton.1 h
    exact (List.prefix_append _ _).isInfix

mutual

/-- Every match contains the literals of the expression. -/
theorem Hir.Matches.infix_of_mem : ∀ (hir : Hir) {chars : List Char} {text : String},
    hir.Matches chars → text ∈ collectRequiredLiterals hir → text.toList <:+: chars
  | .empty, _, _, _, h => by cases h
  | .literal bytes, chars, text, hm, h => by
    rw [collectRequiredLiterals, Option.mem_toList] at h
    rw [Hir.Matches, h, Option.map_some, Option.some.injEq] at hm
    exact hm ▸ List.infix_refl _
  | .charClass _, _, _, _, h => by cases h
  | .look, _, _, _, h => by cases h
  | .repetition min max sub, chars, text, hm, h => by
    obtain ⟨pieces, rfl, hmin, -, hpieces⟩ := hm
    rw [collectRequiredLiterals] at h
    split at h
    case isTrue hone =>
      -- the first piece has it
      cases pieces with
      | nil => exact absurd (hone.trans hmin) (by simp)
      | cons piece pieces =>
        have hfirst := Hir.Matches.infix_of_mem sub (hpieces piece List.mem_cons_self) h
        exact hfirst.trans (List.prefix_append _ _).isInfix
    case isFalse => cases h
  | .capture sub, _, _, hm, h => Hir.Matches.infix_of_mem sub hm h
  | .concat parts, chars, text, hm, h => by
    have hrun := infix_collectConcat parts "" hm h
    rwa [String.toList_empty, List.nil_append] at hrun
  | .alternation _, _, _, _, h => by cases h

/-- So do the matches of a concatenation, after the run of literals before it. -/
theorem infix_collectConcat : ∀ (parts : List Hir) (run : String) {chars : List Char}
    {text : String}, MatchesInTurn parts chars → text ∈ collectConcat run parts →
      text.toList <:+: run.toList ++ chars
  | [], run, chars, text, _, h => infix_endRun h chars
  | part :: parts, run, chars, text, hm, h => by
    obtain ⟨first, rest, rfl, hfirst, hrest⟩ := hm
    -- what the part and the rest contain, the whole contains
    have hpart : text ∈ endRun run ++ collectRequiredLiterals part ++ collectConcat "" parts →
        text.toList <:+: run.toList ++ (first ++ rest) := by
      intro hmem
      rcases List.mem_append.1 hmem with hmem | hmem
      · rcases List.mem_append.1 hmem with hmem | hmem
        · exact infix_endRun hmem _
        · have hin := Hir.Matches.infix_of_mem part hfirst hmem
          exact hin.trans ((List.prefix_append _ _).isInfix.trans (List.suffix_append _ _).isInfix)
      · have hin := infix_collectConcat parts "" hrest hmem
        rw [String.toList_empty, List.nil_append] at hin
        exact hin.trans ((List.suffix_append _ _).isInfix.trans (List.suffix_append _ _).isInfix)
    cases part with
    | literal bytes =>
      rw [collectConcat] at h
      split at h
      case h_1 joined hjoined =>
        rw [Hir.Matches, hjoined, Option.map_some, Option.some.injEq] at hfirst
        have hin := infix_collectConcat parts (run ++ joined) hrest h
        rwa [String.toList_append, hfirst, List.append_assoc] at hin
      case h_2 hnone =>
        refine hpart ?_
        rcases List.mem_append.1 h with h | h
        · exact List.mem_append_left _ (List.mem_append_left _ h)
        · exact List.mem_append_right _ h
    | empty | charClass _ | look | repetition _ _ _ | capture _ | concat _ | alternation _ =>
      exact hpart h

end

end Logql

end Obsy
