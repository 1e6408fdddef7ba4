import Mathlib.Logic.Basic
import Mathlib.Data.List.Basic

/-!
# Machines that are fed in pieces

A feeder takes its input piece by piece and gives out what it can; a flush gives out the rest.
How much it gives out for a piece is its own affair.

* `Feeder.Delivers`: however its input is cut, what comes out is one output.
* `Delivers.write`, `Delivers.flush`: what one piece and the end of the input do.
* `Delivers.of_invariant`: an invariant for what is still to come.
-/

namespace Obsy

namespace Machine

/-- A machine that turns `α`s into `β`s, piece by piece. -/
structure Feeder (α β ε : Type) where
  /-- What it remembers between pieces. -/
  State : Type
  /-- A new machine. -/
  make : Except ε State
  /-- Take a piece and give out what is ready. -/
  write : State → List α → Except ε (State × List β)
  /-- Give out all that is left. -/
  flush : State → Except ε (State × List β)

namespace Feeder

variable {α β ε : Type} (d : Feeder α β ε)

/-- Feed some pieces, one after the other. -/
def feed : d.State → List (List α) → Except ε (d.State × List β)
  | s, [] => .ok (s, [])
  | s, piece :: pieces =>
    match d.write s piece with
    | .error e => .error e
    | .ok (s, out) =>
      match feed s pieces with
      | .error e => .error e
      | .ok (s, outs) => .ok (s, out ++ outs)

/-- However `input` is cut, `output` comes out of it. -/
def Delivers (s : d.State) (input : List α) (output : List β) : Prop :=
  ∀ pieces : List (List α), pieces.flatten = input → (∀ piece ∈ pieces, piece ≠ []) →
    ∃ t out, d.feed s pieces = .ok (t, out) ∧
      ∃ t' last, d.flush t = .ok (t', last) ∧ out ++ last = output

variable {d} {s : d.State} {input piece rest : List α} {output : List β}

theorem feed_cons {t : d.State} {out : List β} (hwrite : d.write s piece = .ok (t, out))
    (pieces : List (List α)) :
    d.feed s (piece :: pieces) =
      match d.feed t pieces with
      | .error e => .error e
      | .ok (s, outs) => .ok (s, out ++ outs) := by
  simp only [feed, hwrite]

/-- At the end of the input a flush gives out what is left. -/
theorem Delivers.flush (h : d.Delivers s [] output) : ∃ t, d.flush s = .ok (t, output) := by
  obtain ⟨t, out, hfeed, t', last, hflush, rfl⟩ := h [] rfl (by simp)
  cases hfeed
  exact ⟨t', hflush⟩

/-- What comes of the first piece does not depend on how the others are cut. -/
theorem Delivers.write (h : d.Delivers s (piece ++ rest) output) (hne : piece ≠ []) :
    ∃ t out left, d.write s piece = .ok (t, out) ∧ output = out ++ left ∧
      d.Delivers t rest left := by
  cases hwrite : d.write s piece with
  | error e =>
    obtain ⟨t, out, hfeed, -⟩ := h (piece :: if rest = [] then [] else [rest])
      (by split_ifs with hrest <;> simp [hrest]) (by split_ifs <;> simp [*])
    simp only [feed, hwrite] at hfeed
    cases hfeed
  | ok written =>
    obtain ⟨t, out⟩ := written
    -- Any cut of the rest tells what the rest comes to.
    have hrest : ∀ pieces : List (List α), pieces.flatten = rest → (∀ p ∈ pieces, p ≠ []) →
        ∃ t' outs, d.feed t pieces = .ok (t', outs) ∧
          ∃ t'' last, d.flush t' = .ok (t'', last) ∧ out ++ (outs ++ last) = output := by
      intro pieces hpieces hnonempty
      obtain ⟨t', outs, hfeed, t'', last, hflush, hout⟩ := h (piece :: pieces)
        (by rw [List.flatten_cons, hpieces]) (by
          intro p hp
          rcases List.mem_cons.1 hp with rfl | hp
          · exact hne
          · exact hnonempty p hp)
      rw [feed_cons hwrite] at hfeed
      cases hfed : d.feed t pieces with
      | error e => rw [hfed] at hfeed; cases hfeed
      | ok fed =>
        obtain ⟨u, outs'⟩ := fed
        rw [hfed] at hfeed
        cases hfeed
        exact ⟨_, outs', rfl, t'', last, hflush, by rw [← hout, List.append_assoc]⟩
    obtain ⟨t', outs, -, t'', last, -, hout⟩ := hrest (if rest = [] then [] else [rest])
      (by split_ifs with hnil <;> simp [hnil]) (by split_ifs <;> simp [*])
    refine ⟨t, out, outs ++ last, rfl, hout.symm, fun pieces hpieces hnonempty => ?_⟩
    obtain ⟨u, outs', hfeed, u', last', hflush, hout'⟩ := hrest pieces hpieces hnonempty
    exact ⟨u, outs', hfeed, u', last', hflush,
      List.append_cancel_left (hout'.trans hout.symm)⟩

/-- **The rule of invariants**: `R s input output` says what is still to come of what is still
to be fed. -/
theorem Delivers.of_invariant (R : d.State → List α → List β → Prop)
    (hwrite : ∀ s piece rest output, R s (piece ++ rest) output →
      ∃ t out left, d.write s piece = .ok (t, out) ∧ output = out ++ left ∧ R t rest left)
    (hflush : ∀ s output, R s [] output → ∃ t, d.flush s = .ok (t, output))
    (h : R s input output) : d.Delivers s input output := by
  intro pieces
  induction pieces generalizing s input output with
  | nil =>
    rintro rfl -
    obtain ⟨t, ht⟩ := hflush s output h
    exact ⟨s, [], rfl, t, output, ht, rfl⟩
  | cons piece pieces ih =>
    rintro rfl hnonempty
    obtain ⟨t, out, left, hout, rfl, hR⟩ := hwrite s piece pieces.flatten output h
    obtain ⟨u, outs, hfeed, u', last, hlast, rfl⟩ :=
      ih hR rfl fun p hp => hnonempty p (List.mem_cons_of_mem _ hp)
    refine ⟨u, out ++ outs, ?_, u', last, hlast, List.append_assoc _ _ _⟩
    rw [feed_cons hout, hfeed]

end Feeder

end Machine

end Obsy
