import Obsy.Part.Cache

/-!
# Selections as runs

A decoder is given the rows it is to read as runs, and the cache of decoded rows has its entries by
the runs of their rows.  It cuts rows out of the batches of an entry, which are rows of the row group
one after the other and not always all of them.

* `selectionKey`, `selectionOf`: the key of a selection, and the selection of a key.
* `sliceCachedGroup`, `sliceCachedSubset`: rows out of the batches of an entry.
* `keptSelection`: the rows that a narrow pass keeps.
* `padded_selectionKey`, `flatten_sliceCachedGroup`, `flatten_sliceCachedSubset`,
  `keptSelection_spec`: each of them is about the rows that it is to be about.
-/

namespace Obsy

namespace Part

variable {α : Type*}

/-! ### Runs -/

/-- Some rows that are all read or all skipped. -/
structure RowSelector where
  rowCount : ℕ
  skip : Bool
deriving DecidableEq

/-- The rows of a row group as runs; rows past the last run are skipped. -/
abbrev RowSelection := List RowSelector

namespace RowSelection

/-- A bit for every row of the runs. -/
def bits (selection : RowSelection) : Selection :=
  selection.flatMap fun run => List.replicate run.rowCount !run.skip

def selectsAny (selection : RowSelection) : Bool :=
  selection.any fun run => !run.skip && run.rowCount != 0

end RowSelection

/-- A selection with a bit for every row of a row group. -/
def padded (groupRows : ℕ) (selection : Selection) : Selection :=
  selection ++ List.replicate (groupRows - selection.length) false

theorem selectRows_replicate_append (count : ℕ) (bit : Bool) (selection : Selection)
    (rows : List α) : selectRows (List.replicate count bit ++ selection) rows =
      (if bit then rows.take count else []) ++ selectRows selection (rows.drop count) := by
  induction count generalizing rows with
  | zero => cases bit <;> rfl
  | succ count ih =>
    rw [List.replicate_succ, List.cons_append]
    cases rows with
    | nil => cases bit <;> rfl
    | cons row rows =>
      rw [selectRows_cons, ih, List.drop_succ_cons]
      cases bit <;> rfl

theorem selectRows_of_nil (rows : List α) : selectRows [] rows = [] := by
  rw [selectRows, List.zip_nil_right]
  rfl

theorem selectRows_replicate_false (count : ℕ) (rows : List α) :
    selectRows (List.replicate count false) rows = [] := by
  have h := selectRows_replicate_append count false [] rows
  rwa [List.append_nil, selectRows_of_nil] at h

theorem selectRows_append_false (selection : Selection) (count : ℕ) (rows : List α) :
    selectRows (selection ++ List.replicate count false) rows = selectRows selection rows := by
  induction selection generalizing rows with
  | nil => rw [List.nil_append, selectRows_replicate_false, selectRows_of_nil]
  | cons bit selection ih =>
    cases rows with
    | nil => rfl
    | cons row rows => rw [List.cons_append, selectRows_cons, selectRows_cons, ih]

/-- Rows past a selection are not selected. -/
@[simp] theorem selectRows_padded (groupRows : ℕ) (selection : Selection) (rows : List α) :
    selectRows (padded groupRows selection) rows = selectRows selection rows :=
  selectRows_append_false selection _ rows

theorem length_padded {groupRows : ℕ} {selection : Selection} (h : selection.length ≤ groupRows) :
    (padded groupRows selection).length = groupRows := by
  rw [padded, List.length_append, List.length_replicate]
  omega

theorem padded_of_length {groupRows : ℕ} {selection : Selection}
    (h : selection.length = groupRows) : padded groupRows selection = selection := by
  rw [padded, h, Nat.sub_self, List.replicate_zero, List.append_nil]

/-- More bits that are not set change nothing. -/
theorem padded_append {groupRows count : ℕ} {selection : Selection}
    (h : selection.length + count ≤ groupRows) :
    padded groupRows (selection ++ List.replicate count false) = padded groupRows selection := by
  rw [padded, padded, List.append_assoc, List.replicate_append_replicate, List.length_append,
    List.length_replicate]
  congr 2
  omega

/-! ### Keys -/

/-- A selection by its runs, whether each is skipped and its `u32` of rows: neighbours differ, and
the last is not skipped. -/
abbrev SelectionKey := List (Bool × ℕ)

/-- A bit for every row of a key. -/
def SelectionKey.bits (key : SelectionKey) : Selection :=
  key.flatMap fun run => List.replicate run.2 !run.1

def pushRun (runs : SelectionKey) (run : RowSelector) : SelectionKey :=
  if run.rowCount = 0 then runs
  else
    match runs.getLast? with
    | some (skip, rows) =>
      if skip = run.skip then runs.dropLast ++ [(skip, (rows + run.rowCount) % 2 ^ 32)]
      else runs ++ [(run.skip, run.rowCount % 2 ^ 32)]
    | none => runs ++ [(run.skip, run.rowCount % 2 ^ 32)]

def selectionKey (selection : Option RowSelection) (groupRows : ℕ) : SelectionKey :=
  match selection with
  | none => [(false, groupRows % 2 ^ 32)]
  | some selection =>
    let runs := selection.foldl pushRun []
    if runs.getLast?.any Prod.fst then runs.dropLast else runs

def selectionOf (key : SelectionKey) (groupRows : ℕ) : RowSelection :=
  let described := (key.map Prod.snd).sum
  key.map (fun run => ⟨run.2, run.1⟩) ++
    if described < groupRows then [⟨groupRows - described, true⟩] else []

def selectedRowsOf (key : SelectionKey) : ℕ :=
  ((key.filter fun run => !run.1).map Prod.snd).sum

theorem bits_append (first second : SelectionKey) :
    SelectionKey.bits (first ++ second) = SelectionKey.bits first ++ SelectionKey.bits second :=
  List.flatMap_append

theorem bits_singleton (skip : Bool) (rows : ℕ) :
    SelectionKey.bits [(skip, rows)] = List.replicate rows !skip := by
  rw [SelectionKey.bits, List.flatMap_singleton]

theorem bits_pushRun {runs : SelectionKey} {run : RowSelector}
    (h : (SelectionKey.bits runs).length + run.rowCount < 2 ^ 32) :
    SelectionKey.bits (pushRun runs run) =
      SelectionKey.bits runs ++ List.replicate run.rowCount !run.skip := by
  have hmod : run.rowCount % 2 ^ 32 = run.rowCount := Nat.mod_eq_of_lt (by omega)
  rw [pushRun]
  split
  case isTrue hzero => rw [hzero, List.replicate_zero, List.append_nil]
  case isFalse =>
    split
    case h_1 skip rows hlast =>
      obtain ⟨before, rfl⟩ := List.getLast?_eq_some_iff.1 hlast
      rw [bits_append, bits_singleton, List.length_append, List.length_replicate] at h
      split
      case isTrue hsame =>
        subst hsame
        rw [List.dropLast_concat, bits_append, bits_append, bits_singleton, bits_singleton,
          Nat.mod_eq_of_lt (by omega), List.append_assoc, List.replicate_append_replicate]
      case isFalse => rw [bits_append (before ++ _), bits_singleton run.skip, hmod]
    case h_2 => rw [bits_append, bits_singleton, hmod]

theorem bits_foldl_pushRun {selection : RowSelection} {runs : SelectionKey}
    (h : (SelectionKey.bits runs).length + selection.bits.length < 2 ^ 32) :
    SelectionKey.bits (selection.foldl pushRun runs) =
      SelectionKey.bits runs ++ selection.bits := by
  induction selection generalizing runs with
  | nil => exact (List.append_nil _).symm
  | cons run selection ih =>
    have hcons : RowSelection.bits (run :: selection)
        = List.replicate run.rowCount (!run.skip) ++ RowSelection.bits selection :=
      List.flatMap_cons
    rw [hcons, List.length_append, List.length_replicate] at h
    have hpush := @bits_pushRun runs run (by omega)
    have hlen : (SelectionKey.bits (pushRun runs run)).length
        = (SelectionKey.bits runs).length + run.rowCount := by
      rw [hpush, List.length_append, List.length_replicate]
    rw [List.foldl_cons, ih (by omega), hpush, hcons, List.append_assoc]

/-- The key of a selection is without the rows skipped at its end. -/
theorem bits_selectionKey {selection : RowSelection} (groupRows : ℕ)
    (h : selection.bits.length < 2 ^ 32) :
    ∃ count, SelectionKey.bits (selectionKey (some selection) groupRows) ++
      List.replicate count false = selection.bits := by
  have hfold := @bits_foldl_pushRun selection [] (by rw [SelectionKey.bits]; simpa using h)
  rw [show SelectionKey.bits [] = [] from rfl, List.nil_append] at hfold
  rw [selectionKey]
  split
  case isTrue hlast =>
    obtain ⟨last, hlast, hskip⟩ := (Option.any_eq_true _ _).1 hlast
    obtain ⟨before, heq⟩ := List.getLast?_eq_some_iff.1 hlast
    refine ⟨last.2, ?_⟩
    rw [heq, bits_append] at hfold
    have hbits : SelectionKey.bits [last] = List.replicate last.2 false := by
      rw [show last = (true, last.2) from Prod.ext hskip rfl, bits_singleton]
      rfl
    rw [heq, List.dropLast_concat, ← hfold, hbits]
  case isFalse => exact ⟨0, by rw [hfold, List.replicate_zero, List.append_nil]⟩

theorem length_bits_selectionKey_le {selection : Option RowSelection} {groupRows : ℕ}
    (hsmall : groupRows < 2 ^ 32)
    (h : ∀ runs, selection = some runs → runs.bits.length ≤ groupRows) :
    (SelectionKey.bits (selectionKey selection groupRows)).length ≤ groupRows := by
  cases selection with
  | none =>
    rw [selectionKey, bits_singleton, List.length_replicate]
    exact Nat.mod_le _ _
  | some runs =>
    have hle := h runs rfl
    obtain ⟨count, hcount⟩ := bits_selectionKey groupRows (hle.trans_lt hsmall)
    rw [← hcount, List.length_append] at hle
    omega

def selectionBits (selection : Option RowSelection) (groupRows : ℕ) : Selection :=
  match selection with
  | none => allRows groupRows
  | some selection => selection.bits

/-- **The key of a selection** has its rows. -/
theorem padded_selectionKey {selection : Option RowSelection} {groupRows : ℕ}
    (hsmall : groupRows < 2 ^ 32)
    (h : ∀ runs, selection = some runs → runs.bits.length ≤ groupRows) :
    padded groupRows (SelectionKey.bits (selectionKey selection groupRows)) =
      padded groupRows (selectionBits selection groupRows) := by
  cases selection with
  | none =>
    rw [selectionKey, bits_singleton, Nat.mod_eq_of_lt hsmall]
    rfl
  | some runs =>
    have hle := h runs rfl
    obtain ⟨count, hcount⟩ := bits_selectionKey groupRows (hle.trans_lt hsmall)
    rw [selectionBits, ← hcount, padded_append]
    rw [← List.length_replicate (n := count) (a := false), ← List.length_append, hcount]
    exact hle

theorem length_bits_key (key : SelectionKey) :
    (SelectionKey.bits key).length = (key.map Prod.snd).sum := by
  rw [SelectionKey.bits, List.length_flatMap]
  congr 1
  exact List.map_congr_left fun run _ => List.length_replicate

/-- **The selection of a key** has its rows and a bit for each of the row group. -/
theorem bits_selectionOf (key : SelectionKey) (groupRows : ℕ) :
    (selectionOf key groupRows).bits = padded groupRows (SelectionKey.bits key) := by
  have hruns : RowSelection.bits (key.map fun run => ⟨run.2, run.1⟩) = SelectionKey.bits key := by
    rw [RowSelection.bits, List.flatMap_map]
    rfl
  rw [selectionOf, RowSelection.bits, List.flatMap_append, ← RowSelection.bits, hruns, padded,
    length_bits_key]
  congr 1
  split
  case isTrue => rw [List.flatMap_singleton]; rfl
  case isFalse hge =>
    rw [Nat.sub_eq_zero_of_le (Nat.le_of_not_lt hge)]
    rfl

/-! ### Rows of an entry -/

def rangeOf (range : ℕ × ℕ) (rows : List α) : List α := (rows.drop range.1).take (range.2 - range.1)

/-- The ranges of the rows that are read. -/
def selectedRanges : RowSelection → ℕ → List (ℕ × ℕ)
  | [], _ => []
  | run :: runs, row =>
    if !run.skip && run.rowCount != 0 then
      (row, row + run.rowCount) :: selectedRanges runs (row + run.rowCount)
    else selectedRanges runs (row + run.rowCount)

/-- The rows of a range, out of batches that begin with the row `offset`: a slice of each batch that
has some. -/
def sliceRange : List (List α) → ℕ → ℕ → ℕ → List (List α)
  | [], _, _, _ => []
  | batch :: batches, offset, start, stop =>
    let batchEnd := offset + batch.length
    if stop ≤ start then []
    else if batchEnd ≤ start ∨ stop ≤ offset then sliceRange batches batchEnd start stop
    else
      let sliceLen := min stop batchEnd - start
      (batch.drop (start - offset)).take sliceLen ::
        sliceRange batches batchEnd (start + sliceLen) stop

/-- `slice_entry_ranges`. -/
def sliceEntryRanges (batches : List (List α)) (ranges : List (ℕ × ℕ)) : List (List α) :=
  ranges.flatMap fun range => sliceRange batches 0 range.1 range.2

/-- The rows of a selection out of the batches of a whole row group. -/
def sliceCachedGroup (batches : List (List α)) (selection : Option RowSelection) : List (List α) :=
  match selection with
  | none => batches
  | some selection => sliceEntryRanges batches (selectedRanges selection 0)

/-- Rows that an entry has: where they begin in the row group and where in the entry. -/
structure EntryRun where
  groupAt : ℕ
  entryAt : ℕ
  rows : ℕ

def entryRuns : SelectionKey → ℕ → ℕ → List EntryRun
  | [], _, _ => []
  | (skip, rows) :: key, groupAt, entryAt =>
    if skip then entryRuns key (groupAt + rows) entryAt
    else ⟨groupAt, entryAt, rows⟩ :: entryRuns key (groupAt + rows) (entryAt + rows)

/-- A range of the row group as a range of the entry, if one run has all of it. -/
def entryRange (runs : List EntryRun) (range : ℕ × ℕ) : Option (ℕ × ℕ) :=
  match runs.find? fun run => range.1 < run.groupAt + run.rows with
  | none => none
  | some run =>
    if range.1 < run.groupAt ∨ run.groupAt + run.rows < range.2 then none
    else some (run.entryAt + (range.1 - run.groupAt), run.entryAt + (range.2 - run.groupAt))

/-- The rows of a selection out of the batches of an entry that has them all. -/
def sliceCachedSubset (batches : List (List α)) (entryKey : SelectionKey) (subset : RowSelection) :
    Option (List (List α)) :=
  ((selectedRanges subset 0).mapM (entryRange (entryRuns entryKey 0 0))).map
    (sliceEntryRanges batches)

theorem sliceRange_of_le (batches : List (List α)) (offset : ℕ) {start stop : ℕ} (h : stop ≤ start) :
    sliceRange batches offset start stop = [] := by
  cases batches with
  | nil => rfl
  | cons batch batches => rw [sliceRange, if_pos h]

theorem flatten_sliceRange {batches : List (List α)} {offset start stop : ℕ} (h : offset ≤ start) :
    (sliceRange batches offset start stop).flatten =
      rangeOf (start - offset, stop - offset) batches.flatten := by
  induction batches generalizing offset start with
  | nil => simp [sliceRange, rangeOf]
  | cons batch batches ih =>
    by_cases hstop : stop ≤ start
    · rw [sliceRange_of_le _ _ hstop, rangeOf, show stop - offset - (start - offset) = 0 by omega]
      rfl
    rw [sliceRange, if_neg hstop, rangeOf, List.flatten_cons, List.drop_append]
    dsimp only
    by_cases hbehind : offset + batch.length ≤ start ∨ stop ≤ offset
    · -- the range begins behind the batch
      have hlen : offset + batch.length ≤ start := by omega
      have hnone : batch.drop (start - offset) = [] := List.drop_eq_nil_of_le (by omega)
      rw [if_pos hbehind, ih hlen, hnone, List.nil_append, rangeOf]
      dsimp only
      rw [show stop - (offset + batch.length) - (start - (offset + batch.length)) =
        stop - offset - (start - offset) by omega, Nat.sub_add_eq]
    · rw [if_neg hbehind, List.flatten_cons, List.take_append, List.length_drop,
        show start - offset - batch.length = 0 by omega, List.drop_zero]
      congr 1
      · -- what the batch has of the range
        by_cases hshort : stop ≤ offset + batch.length
        · rw [Nat.min_eq_left hshort]
          congr 1
          omega
        · rw [Nat.min_eq_right (by omega), List.take_of_length_le (by rw [List.length_drop]; omega),
            List.take_of_length_le (by rw [List.length_drop]; omega)]
      · by_cases hshort : stop ≤ offset + batch.length
        · rw [sliceRange_of_le _ _ (by omega), show stop - offset - (start - offset) -
            (batch.length - (start - offset)) = 0 by omega, List.take_zero, List.flatten_nil]
        · rw [ih (by omega), rangeOf, Nat.min_eq_right (by omega),
            show start + (offset + batch.length - start) - (offset + batch.length) = 0 by omega,
            List.drop_zero]
          congr 1
          omega

theorem flatten_sliceEntryRanges (batches : List (List α)) (ranges : List (ℕ × ℕ)) :
    (sliceEntryRanges batches ranges).flatten =
      ranges.flatMap fun range => rangeOf range batches.flatten := by
  rw [sliceEntryRanges, List.flatMap_def, List.flatten_flatten, List.map_map, List.flatMap_def]
  congr 1
  refine List.map_congr_left fun range _ => ?_
  exact flatten_sliceRange (Nat.zero_le _)

theorem rangeOf_prefix (count : ℕ) (rows : List α) : rangeOf (0, count) rows = rows.take count := rfl

theorem flatMap_selectedRanges (selection : RowSelection) (row : ℕ) (rows : List α) :
    ((selectedRanges selection row).flatMap fun range => rangeOf range rows) =
      selectRows selection.bits (rows.drop row) := by
  induction selection generalizing row with
  | nil => exact (selectRows_of_nil _).symm
  | cons run selection ih =>
    have hbits : RowSelection.bits (run :: selection)
        = List.replicate run.rowCount (!run.skip) ++ RowSelection.bits selection :=
      List.flatMap_cons
    rw [hbits, selectRows_replicate_append, List.drop_drop, selectedRanges]
    split
    case isTrue hread =>
      have hskip : run.skip = false := by
        rw [Bool.and_eq_true, Bool.not_eq_true'] at hread
        exact hread.1
      rw [List.flatMap_cons, ih, rangeOf, hskip, Nat.add_sub_cancel_left]
      rfl
    case isFalse hread =>
      rw [ih]
      by_cases hskip : run.skip = true
      · rw [hskip]
        rfl
      · have hzero : run.rowCount = 0 := by simpa [hskip] using hread
        rw [hzero, List.take_zero, ite_self, List.nil_append]

/-- **Slices of a whole row group** are the rows of the selection. -/
theorem flatten_sliceCachedGroup (batches : List (List α)) (selection : Option RowSelection) :
    (sliceCachedGroup batches selection).flatten =
      selectRows (selectionBits selection batches.flatten.length) batches.flatten := by
  cases selection with
  | none => exact (selectRows_allRows _).symm
  | some selection =>
    rw [sliceCachedGroup, flatten_sliceEntryRanges, flatMap_selectedRanges]
    rfl

/-- A run of an entry has the same rows in the entry and in the row group. -/
theorem rangeOf_entryRun {key : SelectionKey} {groupAt entryAt : ℕ} {run : EntryRun}
    (hrun : run ∈ entryRuns key groupAt entryAt) {rows : List α}
    (h : (SelectionKey.bits key).length ≤ rows.length) :
    groupAt ≤ run.groupAt ∧ entryAt ≤ run.entryAt ∧
      rangeOf (run.entryAt - entryAt, run.entryAt - entryAt + run.rows)
          (selectRows (SelectionKey.bits key) rows) =
        rangeOf (run.groupAt - groupAt, run.groupAt - groupAt + run.rows) rows := by
  induction key generalizing groupAt entryAt rows with
  | nil => cases hrun
  | cons first key ih =>
    obtain ⟨skip, count⟩ := first
    have hbits : SelectionKey.bits ((skip, count) :: key)
        = List.replicate count (!skip) ++ SelectionKey.bits key := List.flatMap_cons
    rw [hbits, List.length_append, List.length_replicate] at h
    rw [hbits, selectRows_replicate_append]
    have hrest : (SelectionKey.bits key).length ≤ (rows.drop count).length := by
      rw [List.length_drop]
      omega
    rw [entryRuns] at hrun
    cases skip with
    | true =>
      obtain ⟨hgroup, hentry, hsame⟩ := ih hrun hrest
      refine ⟨by omega, hentry, ?_⟩
      rw [Bool.not_true, if_neg Bool.false_ne_true, List.nil_append, hsame, rangeOf, rangeOf,
        List.drop_drop, Nat.add_sub_cancel_left, Nat.add_sub_cancel_left]
      congr 2
      omega
    | false =>
      rw [if_neg Bool.false_ne_true] at hrun
      rw [Bool.not_false, if_pos rfl]
      rcases List.mem_cons.1 hrun with rfl | hrun
      · refine ⟨le_rfl, le_rfl, ?_⟩
        rw [Nat.sub_self, Nat.sub_self, Nat.zero_add, rangeOf_prefix, rangeOf_prefix,
          List.take_append_of_le_length (by rw [List.length_take, Nat.min_eq_left (by omega)]),
          List.take_take, Nat.min_self]
      · obtain ⟨hgroup, hentry, hsame⟩ := ih hrun hrest
        refine ⟨by omega, by omega, ?_⟩
        rw [rangeOf, rangeOf, Nat.add_sub_cancel_left, Nat.add_sub_cancel_left, List.drop_drop]
          at hsame
        rw [rangeOf, rangeOf, Nat.add_sub_cancel_left, Nat.add_sub_cancel_left, List.drop_append,
          List.drop_eq_nil_of_le (by rw [List.length_take]; omega), List.nil_append,
          List.length_take, Nat.min_eq_left (by omega),
          show run.entryAt - entryAt - count = run.entryAt - (entryAt + count) by omega, hsame]
        congr 2
        omega

theorem rangeOf_rangeOf {outer inner : ℕ × ℕ} (h : outer.1 + inner.2 ≤ outer.2) (rows : List α) :
    rangeOf inner (rangeOf outer rows) = rangeOf (outer.1 + inner.1, outer.1 + inner.2) rows := by
  rw [rangeOf, rangeOf, rangeOf, List.drop_take, List.drop_drop, List.take_take]
  congr 1
  omega

/-- A range that an entry has is the same rows there. -/
theorem rangeOf_entryRange {key : SelectionKey} {range range' : ℕ × ℕ}
    (hrange : entryRange (entryRuns key 0 0) range = some range') {rows : List α}
    (h : (SelectionKey.bits key).length ≤ rows.length) :
    rangeOf range' (selectRows (SelectionKey.bits key) rows) = rangeOf range rows := by
  rw [entryRange] at hrange
  split at hrange
  case h_1 => cases hrange
  case h_2 run hfind =>
    split at hrange
    case isTrue => cases hrange
    case isFalse hwithin =>
      obtain rfl := Option.some.inj hrange
      obtain ⟨-, -, hsame⟩ := rangeOf_entryRun (List.mem_of_find?_eq_some hfind) h
      rw [Nat.sub_zero, Nat.sub_zero] at hsame
      by_cases hempty : range.2 ≤ range.1
      · rw [rangeOf, rangeOf, Nat.sub_eq_zero_of_le hempty, Nat.sub_eq_zero_of_le (by omega)]
        rfl
      have hcut := congrArg (rangeOf (range.1 - run.groupAt, range.2 - run.groupAt)) hsame
      rw [rangeOf_rangeOf (by dsimp only; omega), rangeOf_rangeOf (by dsimp only; omega)] at hcut
      rw [hcut]
      congr 1
      refine Prod.ext ?_ ?_
      · dsimp only
        omega
      · dsimp only
        omega

/-- **Slices of an entry** are the rows of the selection. -/
theorem flatten_sliceCachedSubset {batches slices : List (List α)} {key : SelectionKey}
    {subset : RowSelection} (h : sliceCachedSubset batches key subset = some slices) {rows : List α}
    (hentry : batches.flatten = selectRows (SelectionKey.bits key) rows)
    (hkey : (SelectionKey.bits key).length ≤ rows.length) :
    slices.flatten = selectRows subset.bits rows := by
  obtain ⟨ranges, hranges, rfl⟩ := Option.map_eq_some_iff.1 h
  rw [flatten_sliceEntryRanges, hentry]
  have hall := flatMap_selectedRanges subset 0 rows
  rw [List.drop_zero] at hall
  rw [← hall]
  clear h hall
  generalize selectedRanges subset 0 = selected at hranges
  induction selected generalizing ranges with
  | nil =>
    obtain rfl := Option.some.inj hranges
    rfl
  | cons range selected ih =>
    rw [List.mapM_cons] at hranges
    obtain ⟨range', hrange, hranges⟩ := Option.bind_eq_some_iff.1 hranges
    obtain ⟨rest, hrest, hranges⟩ := Option.bind_eq_some_iff.1 hranges
    obtain rfl := Option.some.inj hranges
    rw [List.flatMap_cons, List.flatMap_cons, rangeOf_entryRange hrange hkey, ih _ hrest]

/-! ### Rows that a narrow pass keeps -/

/-- The rows that a selection reads. -/
def selectedIndices (selection : Option RowSelection) (groupRows : ℕ) : List ℕ :=
  match selection with
  | none => List.range groupRows
  | some selection =>
    (selectedRanges selection 0).flatMap fun range => List.range' range.1 (range.2 - range.1)

/-- Adds a row behind some ranges. -/
def keepRow (ranges : List (ℕ × ℕ)) (row : ℕ) : List (ℕ × ℕ) :=
  match ranges.getLast? with
  | some (start, stop) =>
    if stop = row then ranges.dropLast ++ [(start, row + 1)] else ranges ++ [(row, row + 1)]
  | none => ranges ++ [(row, row + 1)]

/-- The runs of ranges that do not touch, the first of them from a row on. -/
def consecutiveRuns (totalRows : ℕ) : ℕ → List (ℕ × ℕ) → RowSelection
  | lastEnd, [] => if lastEnd < totalRows then [⟨totalRows - lastEnd, true⟩] else []
  | lastEnd, (start, stop) :: ranges =>
    (if lastEnd < start then [⟨start - lastEnd, true⟩] else []) ++
      ⟨stop - start, false⟩ :: consecutiveRuns totalRows stop ranges

/-- `RowSelection::from_consecutive_ranges`. -/
def fromConsecutiveRanges (ranges : List (ℕ × ℕ)) (totalRows : ℕ) : RowSelection :=
  consecutiveRuns totalRows 0 ranges

/-- The selection of the rows that a narrow pass keeps, if it keeps one. -/
def keptSelection (rows : List ℕ) (groupRows : ℕ) : Option RowSelection :=
  let ranges := rows.foldl keepRow []
  if ranges.isEmpty then none else some (fromConsecutiveRanges ranges groupRows)

/-- The rows that a narrow pass keeps of those that it is shown. -/
def rowsKept (keep : α → Bool) (indices : List ℕ) (rows : List α) : List ℕ :=
  ((indices.zip rows).filter fun r => keep r.2).map Prod.fst

def rowsOfRanges (ranges : List (ℕ × ℕ)) : List ℕ :=
  ranges.flatMap fun range => List.range' range.1 (range.2 - range.1)

/-- Ranges that have rows and do not overlap, the first of them from a row on. -/
def Apart : ℕ → List (ℕ × ℕ) → Prop
  | _, [] => True
  | lastEnd, (start, stop) :: ranges => lastEnd ≤ start ∧ start < stop ∧ Apart stop ranges

theorem apart_append_iff {ranges : List (ℕ × ℕ)} {lastEnd start stop : ℕ} :
    Apart lastEnd (ranges ++ [(start, stop)]) ↔
      Apart lastEnd ranges ∧ (ranges.getLast?.elim lastEnd Prod.snd) ≤ start ∧ start < stop := by
  induction ranges generalizing lastEnd with
  | nil => simp [Apart]
  | cons range ranges ih =>
    obtain ⟨first, last⟩ := range
    rw [List.cons_append, Apart, Apart, ih, List.getLast?_cons]
    cases ranges.getLast? with
    | none => simp only [Option.elim_none, Option.elim_some, Option.getD_none]; tauto
    | some other => simp only [Option.elim_some, Option.getD_some]; tauto

theorem rowsOfRanges_append (first second : List (ℕ × ℕ)) :
    rowsOfRanges (first ++ second) = rowsOfRanges first ++ rowsOfRanges second :=
  List.flatMap_append

theorem rowsOfRanges_singleton (start stop : ℕ) :
    rowsOfRanges [(start, stop)] = List.range' start (stop - start) := List.flatMap_singleton _ _

/-- One row more, behind all others. -/
theorem keepRow_spec {ranges : List (ℕ × ℕ)} {row : ℕ} (h : Apart 0 ranges)
    (hbehind : ranges.getLast?.elim 0 Prod.snd ≤ row) :
    Apart 0 (keepRow ranges row) ∧ (keepRow ranges row).getLast?.elim 0 Prod.snd = row + 1 ∧
      rowsOfRanges (keepRow ranges row) = rowsOfRanges ranges ++ [row] := by
  have hnew : Apart 0 (ranges ++ [(row, row + 1)]) ∧
      (ranges ++ [(row, row + 1)]).getLast?.elim 0 Prod.snd = row + 1 ∧
      rowsOfRanges (ranges ++ [(row, row + 1)]) = rowsOfRanges ranges ++ [row] := by
    refine ⟨apart_append_iff.2 ⟨h, hbehind, Nat.lt_succ_self _⟩, ?_, ?_⟩
    · rw [List.getLast?_concat]
      rfl
    · rw [rowsOfRanges_append, rowsOfRanges_singleton, Nat.add_sub_cancel_left]
      rfl
  rw [keepRow]
  split
  case h_1 start stop hlast =>
    split
    case isTrue hnext =>
      subst hnext
      obtain ⟨before, rfl⟩ := List.getLast?_eq_some_iff.1 hlast
      obtain ⟨hbefore, hle, hlt⟩ := apart_append_iff.1 h
      rw [List.dropLast_concat, rowsOfRanges_append, rowsOfRanges_append, rowsOfRanges_singleton,
        rowsOfRanges_singleton, List.append_assoc]
      refine ⟨apart_append_iff.2 ⟨hbefore, hle, Nat.lt_succ_of_lt hlt⟩, ?_, ?_⟩
      · rw [List.getLast?_concat]
        rfl
      · rw [show stop + 1 - start = (stop - start) + 1 by omega, List.range'_concat]
        congr 3
        omega
    case isFalse => exact hnew
  case h_2 => exact hnew

/-- Rows in order are kept as ranges of them. -/
theorem foldl_keepRow_spec {rows : List ℕ} {ranges : List (ℕ × ℕ)} (h : Apart 0 ranges)
    (hrows : rows.Pairwise (· < ·)) (hbehind : ∀ row ∈ rows, ranges.getLast?.elim 0 Prod.snd ≤ row) :
    Apart 0 (rows.foldl keepRow ranges) ∧
      rowsOfRanges (rows.foldl keepRow ranges) = rowsOfRanges ranges ++ rows := by
  induction rows generalizing ranges with
  | nil => exact ⟨h, (List.append_nil _).symm⟩
  | cons row rows ih =>
    obtain ⟨hfirst, hrest⟩ := List.pairwise_cons.1 hrows
    obtain ⟨hapart, hlast, hall⟩ := keepRow_spec h (hbehind row List.mem_cons_self)
    obtain ⟨hapart', hall'⟩ := ih hapart hrest fun later hlater => by
      rw [hlast]
      exact hfirst later hlater
    refine ⟨hapart', ?_⟩
    rw [List.foldl_cons, hall', hall, List.append_assoc]
    rfl

theorem Apart.le_of_mem {ranges : List (ℕ × ℕ)} {lastEnd row : ℕ} (h : Apart lastEnd ranges)
    (hrow : row ∈ rowsOfRanges ranges) : lastEnd ≤ row := by
  induction ranges generalizing lastEnd with
  | nil => cases hrow
  | cons range ranges ih =>
    obtain ⟨start, stop⟩ := range
    obtain ⟨hle, hlt, hrest⟩ := h
    rw [rowsOfRanges, List.flatMap_cons] at hrow
    rcases List.mem_append.1 hrow with hrow | hrow
    · exact hle.trans (List.mem_range'_1.1 hrow).1
    · exact (hle.trans hlt.le).trans (ih hrest hrow)

theorem map_range'_of_all {p : ℕ → Bool} {first count : ℕ} {bit : Bool}
    (h : ∀ row, first ≤ row → row < first + count → p row = bit) :
    (List.range' first count).map p = List.replicate count bit := by
  refine List.eq_replicate_iff.2 ⟨by rw [List.length_map, List.length_range'], fun b hb => ?_⟩
  obtain ⟨row, hrow, rfl⟩ := List.mem_map.1 hb
  obtain ⟨hge, hlt⟩ := List.mem_range'_1.1 hrow
  exact h row hge hlt

/-- The runs of ranges have a bit for every row, and it is set for the rows of the ranges. -/
theorem bits_consecutiveRuns {ranges : List (ℕ × ℕ)} {lastEnd totalRows : ℕ}
    (h : Apart lastEnd ranges) (hend : ∀ row ∈ rowsOfRanges ranges, row < totalRows) :
    (consecutiveRuns totalRows lastEnd ranges).bits =
      (List.range' lastEnd (totalRows - lastEnd)).map fun row =>
        decide (row ∈ rowsOfRanges ranges) := by
  induction ranges generalizing lastEnd with
  | nil =>
    have hnone : (List.range' lastEnd (totalRows - lastEnd)).map (fun row =>
        decide (row ∈ rowsOfRanges [])) = List.replicate (totalRows - lastEnd) false :=
      map_range'_of_all fun row _ _ => rfl
    rw [consecutiveRuns, hnone]
    split
    case isTrue => rw [RowSelection.bits, List.flatMap_singleton]; rfl
    case isFalse hge =>
      rw [Nat.sub_eq_zero_of_le (Nat.le_of_not_lt hge)]
      rfl
  | cons range ranges ih =>
    obtain ⟨start, stop⟩ := range
    obtain ⟨hle, hlt, hrest⟩ := h
    have hmem : ∀ row, row ∈ rowsOfRanges ((start, stop) :: ranges) ↔
        (start ≤ row ∧ row < stop) ∨ row ∈ rowsOfRanges ranges := by
      intro row
      rw [rowsOfRanges, List.flatMap_cons, List.mem_append, List.mem_range'_1,
        show start + (stop - start) = stop by omega]
      rfl
    have hstop : stop ≤ totalRows := by
      have hlast := hend (stop - 1) ((hmem _).2 (.inl ⟨by omega, by omega⟩))
      omega
    have hskip : RowSelection.bits (if lastEnd < start then [⟨start - lastEnd, true⟩] else []) =
        List.replicate (start - lastEnd) false := by
      split
      · rw [RowSelection.bits, List.flatMap_singleton]
        rfl
      · rw [show start - lastEnd = 0 by omega]
        rfl
    have hcut : List.range' lastEnd (totalRows - lastEnd) = List.range' lastEnd (start - lastEnd) ++
        (List.range' start (stop - start) ++ List.range' stop (totalRows - stop)) := by
      rw [show List.range' stop (totalRows - stop) = List.range' (start + (stop - start))
          (totalRows - stop) by congr 1; omega, List.range'_append_1,
        show List.range' start (stop - start + (totalRows - stop)) =
          List.range' (lastEnd + (start - lastEnd)) (stop - start + (totalRows - stop)) by
            congr 1; omega, List.range'_append_1]
      congr 1
      omega
    rw [consecutiveRuns, RowSelection.bits, List.flatMap_append, ← RowSelection.bits, hskip,
      List.flatMap_cons, ← RowSelection.bits,
      ih hrest fun row hrow => hend row ((hmem row).2 (.inr hrow)), hcut, List.map_append,
      List.map_append]
    congr 1
    · -- the rows before the range
      refine (map_range'_of_all fun row _ hbefore => decide_eq_false fun hin => ?_).symm
      rcases (hmem row).1 hin with hin | hin
      · omega
      · have := hrest.le_of_mem hin
        omega
    congr 1
    · refine (map_range'_of_all fun row hge hbefore =>
        decide_eq_true ((hmem row).2 (.inl ⟨hge, ?_⟩))).symm
      dsimp only at hbefore
      omega
    · refine List.map_congr_left fun row hrow => ?_
      have hge := (List.mem_range'_1.1 hrow).1
      rw [decide_eq_decide, hmem]
      exact ⟨.inr, fun h => h.resolve_left (by omega)⟩

/-- **The rows that a narrow pass keeps** are the rows of its selection. -/
theorem keptSelection_spec {rows : List ℕ} {groupRows : ℕ} (hrows : rows.Pairwise (· < ·))
    (hend : ∀ row ∈ rows, row < groupRows) :
    if rows = [] then keptSelection rows groupRows = none
    else ∃ selection, keptSelection rows groupRows = some selection ∧
      selection.bits = (List.range groupRows).map fun row => decide (row ∈ rows) := by
  obtain ⟨hapart, hall⟩ := @foldl_keepRow_spec rows [] trivial hrows fun _ _ => Nat.zero_le _
  rw [show rowsOfRanges [] = [] from rfl, List.nil_append] at hall
  split
  case isTrue hnone =>
    subst hnone
    rfl
  case isFalse hsome =>
    have hne : (rows.foldl keepRow []).isEmpty = false := by
      cases hranges : rows.foldl keepRow [] with
      | nil =>
        rw [hranges] at hall
        exact absurd hall.symm hsome
      | cons => rfl
    refine ⟨fromConsecutiveRanges (rows.foldl keepRow []) groupRows, ?_, ?_⟩
    · rw [keptSelection, hne]
      rfl
    · rw [fromConsecutiveRanges, bits_consecutiveRuns hapart (by rwa [hall]), hall,
        List.range_eq_range', Nat.sub_zero]

theorem selectRows_zip {β : Type*} (selection : Selection) (xs : List α) (ys : List β) :
    selectRows selection (xs.zip ys) = (selectRows selection xs).zip (selectRows selection ys) := by
  induction xs generalizing selection ys with
  | nil => rw [List.zip_nil_left, selectRows_nil, selectRows_nil, List.zip_nil_left]
  | cons x xs ih =>
    cases ys with
    | nil => rw [List.zip_nil_right, selectRows_nil, selectRows_nil, List.zip_nil_right]
    | cons y ys =>
      cases selection with
      | nil => rw [selectRows_of_nil, selectRows_of_nil, List.zip_nil_left]
      | cons bit selection =>
        rw [List.zip_cons_cons, selectRows_cons, selectRows_cons, selectRows_cons, ih]
        cases bit <;> rfl

theorem selectedIndices_eq {selection : Option RowSelection} {groupRows : ℕ}
    (h : ∀ runs, selection = some runs → runs.bits.length ≤ groupRows) :
    selectedIndices selection groupRows =
      selectRows (selectionBits selection groupRows) (List.range groupRows) := by
  cases selection with
  | none =>
    have hall := selectRows_allRows (List.range groupRows)
    rw [List.length_range] at hall
    exact hall.symm
  | some runs =>
    have hranges := flatMap_selectedRanges runs 0 (List.range groupRows)
    rw [List.drop_zero] at hranges
    rw [selectionBits, ← hranges, selectedIndices]
    have hle := h runs rfl
    have hwithin : ∀ {selection : RowSelection} {row : ℕ},
        row + selection.bits.length ≤ groupRows →
        ∀ range ∈ selectedRanges selection row, range.1 ≤ range.2 ∧ range.2 ≤ groupRows := by
      intro selection
      induction selection with
      | nil => intro row _ range hrange; cases hrange
      | cons run selection ih =>
        intro row hrow range hrange
        rw [RowSelection.bits, List.flatMap_cons, List.length_append, List.length_replicate,
          ← RowSelection.bits] at hrow
        have hrest := @ih (row + run.rowCount) (by omega)
        rw [selectedRanges] at hrange
        split at hrange
        · rcases List.mem_cons.1 hrange with rfl | hrange
          · exact ⟨Nat.le_add_right _ _, by dsimp only; omega⟩
          · exact hrest range hrange
        · exact hrest range hrange
    refine List.flatMap_congr fun range hrange => ?_
    obtain ⟨hle, hend⟩ := @hwithin runs 0 (by rw [Nat.zero_add]; exact hle) range hrange
    rw [rangeOf, List.range_eq_range', List.drop_range', List.take_range'_of_length_ge (by omega),
      Nat.zero_add, Nat.mul_one]

theorem mem_selectRows {selection : Selection} {rows : List α} {row : α} :
    row ∈ selectRows selection rows ↔ ∃ i : ℕ, rows[i]? = some row ∧ selection[i]? = some true := by
  rw [selectRows, List.mem_filterMap]
  constructor
  · rintro ⟨r, hr, heq⟩
    split at heq
    case isTrue hbit =>
      obtain rfl := Option.some.inj heq
      obtain ⟨i, hi⟩ := List.mem_iff_getElem?.1 hr
      obtain ⟨hrow, hselected⟩ := List.getElem?_zip_eq_some.1 hi
      exact ⟨i, hrow, hbit ▸ hselected⟩
    case isFalse => cases heq
  · rintro ⟨i, hrow, hselected⟩
    exact ⟨(row, true), List.mem_of_getElem? (List.getElem?_zip_eq_some.2 ⟨hrow, hselected⟩), rfl⟩

/-- The rows that a narrow pass is to keep. -/
def narrowBits (keep : α → Bool) (selection : Selection) (rows : List α) : Selection :=
  (rows.zip selection).map fun r => r.2 && keep r.1

theorem getElem?_narrowBits {keep : α → Bool} {selection : Selection} {rows : List α}
    (h : selection.length = rows.length) {i : ℕ} (hi : i < rows.length) :
    (narrowBits keep selection rows)[i]? = some true ↔
      ∃ row, rows[i]? = some row ∧ selection[i]? = some true ∧ keep row = true := by
  have hrow := List.getElem?_eq_getElem hi
  have hbit := List.getElem?_eq_getElem (h ▸ hi : i < selection.length)
  have hzip : (rows.zip selection)[i]? = some (rows[i], selection[i]) :=
    List.getElem?_zip_eq_some.2 ⟨hrow, hbit⟩
  rw [narrowBits, List.getElem?_map, hzip, hrow, hbit]
  simp

theorem length_narrowBits {keep : α → Bool} {selection : Selection} {rows : List α}
    (h : selection.length = rows.length) :
    (narrowBits keep selection rows).length = rows.length := by
  rw [narrowBits, List.length_map, List.length_zip, h, Nat.min_self]

/-- **A narrow pass** keeps the rows that it is to keep. -/
theorem keptSelection_rowsKept {keep : α → Bool} {selection : Option RowSelection} {rows : List α}
    (h : ∀ runs, selection = some runs → runs.bits.length ≤ rows.length) :
    let bits := narrowBits keep (padded rows.length (selectionBits selection rows.length)) rows
    let kept := keptSelection (rowsKept keep (selectedIndices selection rows.length)
      (selectRows (selectionBits selection rows.length) rows)) rows.length
    if bits.any id then ∃ selection, kept = some selection ∧ selection.bits = bits
    else kept = none := by
  intro bits kept
  have hlen : (padded rows.length (selectionBits selection rows.length)).length = rows.length := by
    refine length_padded ?_
    cases selection with
    | none => exact List.length_replicate.le
    | some runs => exact h runs rfl
  have hbits : bits.length = rows.length := length_narrowBits hlen
  set shown := rowsKept keep (selectedIndices selection rows.length)
    (selectRows (selectionBits selection rows.length) rows) with hshown
  have hpairs : shown = ((selectRows (padded rows.length (selectionBits selection rows.length))
      ((List.range rows.length).zip rows)).filter fun r => keep r.2).map Prod.fst := by
    rw [hshown, rowsKept, selectedIndices_eq h, ← selectRows_zip, selectRows_padded]
  have hmem : ∀ row, row ∈ shown ↔ bits[row]? = some true := by
    intro row
    rw [hpairs, List.mem_map]
    constructor
    · rintro ⟨r, hr, rfl⟩
      obtain ⟨hr, hkeep⟩ := List.mem_filter.1 hr
      obtain ⟨i, hi, hbit⟩ := mem_selectRows.1 hr
      obtain ⟨hindex, hrow⟩ := List.getElem?_zip_eq_some.1 hi
      obtain ⟨hlt, heq⟩ := List.getElem?_eq_some_iff.1 hindex
      rw [List.getElem_range] at heq
      subst heq
      rw [List.length_range] at hlt
      exact (getElem?_narrowBits hlen hlt).2 ⟨r.2, hrow, hbit, hkeep⟩
    · intro hrow
      have hlt := (List.getElem?_eq_some_iff.1 hrow).1
      rw [hbits] at hlt
      obtain ⟨cell, hcell, hbit, hkeep⟩ := (getElem?_narrowBits hlen hlt).1 hrow
      refine ⟨(row, cell), List.mem_filter.2 ⟨mem_selectRows.2 ⟨row, ?_, hbit⟩, hkeep⟩, rfl⟩
      exact List.getElem?_zip_eq_some.2 ⟨List.getElem?_range hlt, hcell⟩
  have hsorted : shown.Pairwise (· < ·) := by
    have hsub : shown.Sublist (((List.range rows.length).zip rows).map Prod.fst) := by
      rw [hpairs]
      exact (List.filter_sublist.trans (selectRows_sublist _ _)).map _
    rw [List.map_fst_zip (List.length_range ▸ le_rfl)] at hsub
    exact List.pairwise_lt_range.sublist hsub
  have hend : ∀ row ∈ shown, row < rows.length := fun row hrow =>
    hbits ▸ (List.getElem?_eq_some_iff.1 ((hmem row).1 hrow)).1
  have hspec := keptSelection_spec hsorted hend
  split
  case isTrue hany =>
    obtain ⟨bit, hbit, htrue⟩ := List.any_eq_true.1 hany
    obtain ⟨row, hrow⟩ := List.mem_iff_getElem?.1 hbit
    have hin : row ∈ shown := (hmem row).2 (by rw [hrow]; exact congrArg some htrue)
    rw [if_neg (List.ne_nil_of_mem hin)] at hspec
    obtain ⟨kept', hkept, hkeptBits⟩ := hspec
    refine ⟨kept', hkept, hkeptBits.trans ?_⟩
    refine List.ext_getElem (by rw [List.length_map, List.length_range, hbits]) fun i hi hi' => ?_
    rw [List.getElem_map, List.getElem_range]
    have hiff := hmem i
    rw [List.getElem?_eq_getElem hi', Option.some.injEq] at hiff
    rw [Bool.eq_iff_iff, decide_eq_true_iff]
    exact hiff
  case isFalse hany =>
    have hempty : shown = [] := by
      refine List.eq_nil_iff_forall_not_mem.2 fun row hrow => hany ?_
      exact List.any_eq_true.2 ⟨true, List.mem_of_getElem? ((hmem row).1 hrow), rfl⟩
    rwa [if_pos hempty] at hspec

end Part

end Obsy
