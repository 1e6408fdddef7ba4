import Obsy.Part.Limits

/-!
# Budgets of a log query

A query may be given a number of rows and of bytes that it reads at most.  What is left of them goes
down to the memtable and to every part, and only the query decides between an answer and an error.

* `PartRegistry.scanWithin`: the scan of the parts, which stops at a limit that is met.
* `LogScan.runWithin`: the query within its budgets.
* `LogScan.CutAt`: the bytes that it may read end with a part, and an answer lies behind it.
* `LogScan.budgets_iff`: exactly then it answers with less, and without an error.
* `LogScan.budget_truncates`: two parts of which it reads one.
-/

namespace Obsy

namespace Part

open Runs (Step)
open Select (Best)

/-! ### The memtable and the parts -/

namespace MemTable

variable {σ : Type*} (sink : RowSink σ) (request : ScanRequest) (scanLimit : Option ℕ)

/-- Offers entries in the order of the query, and counts those that it examines. -/
def offerEntriesWithin : List LogEntry → σ × ℕ → Except String (σ × ℕ)
  | [], state => .ok state
  | entry :: entries, (s, scanned) =>
    if beyondFrontier (sink.frontierNs s) request.forward entry.timestampNs then .ok (s, scanned)
    else if scanLimit.any (· ≤ scanned) then .ok (s, scanned)
    else if request.range.contains entry.timestampNs &&
        request.lineFilters.all fun filter => filter.matches entry.line then
      sink.accept s entry >>= fun s => offerEntriesWithin entries (s, scanned + 1)
    else offerEntriesWithin entries (s, scanned + 1)

/-- `MemTable::scan_into`. -/
def scanWithin (memtable : MemTable) (s : σ) : Except String (σ × ℕ) :=
  if sink.isClosed s then .ok (s, 0)
  else offerEntriesWithin sink request scanLimit (inDirection request.forward
    ((memtable.entriesOf request.tenant).mergeSort fun a b => a.timestampNs ≤ b.timestampNs)) (s, 0)

variable {sink request scanLimit}

/-- Without a limit the entries are offered as by the plain scan. -/
theorem offerEntriesWithin_none (entries : List LogEntry) (state : σ × ℕ) :
    (offerEntriesWithin sink request none entries state).map Prod.fst =
      offerEntries sink request entries state.1 := by
  induction entries generalizing state with
  | nil => rfl
  | cons entry entries ih =>
    rw [offerEntriesWithin, offerEntries]
    split
    · rfl
    rw [Option.any_none, if_neg Bool.false_ne_true]
    split
    · cases sink.accept state.1 entry with
      | error e => rfl
      | ok s' => exact ih (s', state.2 + 1)
    · exact ih (state.1, state.2 + 1)

/-- Without a limit the memtable is scanned as by the plain scan. -/
theorem scanWithin_none (memtable : MemTable) (s : σ) :
    (memtable.scanWithin sink request none s).map Prod.fst = memtable.scanInto sink request s := by
  rw [scanWithin, scanInto]
  split
  · rfl
  · exact offerEntriesWithin_none _ _

theorem scanned_le {entries : List LogEntry} {state state' : σ × ℕ}
    (h : offerEntriesWithin sink request none entries state = .ok state') : state.2 ≤ state'.2 := by
  induction entries generalizing state with
  | nil =>
    cases h
    exact le_rfl
  | cons entry entries ih =>
    rw [offerEntriesWithin] at h
    split at h
    · cases h
      exact le_rfl
    rw [Option.any_none, if_neg Bool.false_ne_true] at h
    split at h
    · obtain ⟨s', -, hrest⟩ := Runs.exists_of_bind h
      exact (Nat.le_succ _).trans (ih hrest)
    · exact (Nat.le_succ _).trans (ih h)

/-- A limit changes nothing, unless as many entries are examined with it and without. -/
theorem offerEntriesWithin_cases (entries : List LogEntry) (state : σ × ℕ) :
    offerEntriesWithin sink request scanLimit entries state =
        offerEntriesWithin sink request none entries state ∨
      (∃ state', offerEntriesWithin sink request scanLimit entries state = .ok state' ∧
        scanLimit.any (· ≤ state'.2) = true) ∧
      ∀ state', offerEntriesWithin sink request none entries state = .ok state' →
        scanLimit.any (· ≤ state'.2) = true := by
  induction entries generalizing state with
  | nil => exact .inl rfl
  | cons entry entries ih =>
    obtain ⟨s, scanned⟩ := state
    rw [offerEntriesWithin]
    by_cases hbeyond : beyondFrontier (sink.frontierNs s) request.forward entry.timestampNs = true
    · rw [if_pos hbeyond, offerEntriesWithin, if_pos hbeyond]
      exact .inl rfl
    rw [if_neg hbeyond]
    by_cases hlimit : scanLimit.any (· ≤ scanned) = true
    · rw [if_pos hlimit]
      refine .inr ⟨⟨_, rfl, hlimit⟩, fun state' h => ?_⟩
      obtain ⟨budget, hbudget, hle⟩ := (Option.any_eq_true ..).1 hlimit
      exact (Option.any_eq_true ..).2
        ⟨budget, hbudget, decide_eq_true ((of_decide_eq_true hle).trans (scanned_le h))⟩
    rw [if_neg hlimit, offerEntriesWithin, if_neg hbeyond, Option.any_none,
      if_neg Bool.false_ne_true]
    split
    · cases sink.accept s entry with
      | error e => exact .inl rfl
      | ok s' => exact ih (s', scanned + 1)
    · exact ih (s, scanned + 1)

theorem scanWithin_cases (memtable : MemTable) (s : σ) :
    memtable.scanWithin sink request scanLimit s = memtable.scanWithin sink request none s ∨
      (∃ state', memtable.scanWithin sink request scanLimit s = .ok state' ∧
        scanLimit.any (· ≤ state'.2) = true) ∧
      ∀ state', memtable.scanWithin sink request none s = .ok state' →
        scanLimit.any (· ≤ state'.2) = true := by
  rw [scanWithin, scanWithin]
  split
  · exact .inl rfl
  · exact offerEntriesWithin_cases _ _

end MemTable

namespace PartRegistry

variable (P : Platform) {σ : Type*} (sink : RowSink σ) (request : ScanRequest)
  (limits : ScanLimits) (decoding : LogPart → Decoding σ) (evict : LogPart → ℕ → GroupCache.Eviction)

/-- The parts in turn, up to a limit that is met; with the parts that are left then. -/
def scanReaders : List PartReader → σ × ScanStats → Except String ((σ × ScanStats) × List PartReader)
  | [], state => .ok (state, [])
  | reader :: readers, (s, stats) =>
    match reader.part.info.tenantSegment request.tenant with
    | none => scanReaders readers (s, stats)
    | some segment =>
      if spanBeyondFrontier (sink.frontierNs s) request.forward segment.minTsNs segment.maxTsNs then
        scanReaders readers (s, stats)
      else
        let partLimits := limits.after stats
        if partLimits.rows = some 0 then .ok ((s, stats), reader :: readers)
        else if partLimits.bytes = some 0 then .ok ((s, stats), reader :: readers)
        else do
          let result ← (scanIntoWithin P sink request partLimits (decoding reader.part)
            (evict reader.part) reader s).mapError
              fun error => "failed to query part " ++ reader.part.info.id ++ ": " ++ error
          let ((s, _), partStats) := result.state
          let stats := stats.add partStats
          if partLimits.rows.any (· ≤ partStats.scannedRows) then .ok ((s, stats), readers)
          else if partLimits.bytes.any (· ≤ partStats.scannedBytes) then .ok ((s, stats), readers)
          else scanReaders readers (s, stats)

/-- `PartRegistry::scan_into`, with the parts that are left when it stops. -/
def scanWithin (readers : List PartReader) (s : σ) :
    Except String ((σ × ScanStats) × List PartReader) :=
  if readers.isEmpty || sink.isClosed s then .ok ((s, .zero), [])
  else scanReaders P sink request limits decoding evict (candidates request readers) (s, .zero)

/-! ### What is read without stopping -/

/-- Reads one part without limits, in batches as large as with a limit on rows. -/
def readPart (rows : Option ℕ) (state : σ × ScanStats) (reader : PartReader) :
    Except String (σ × ScanStats) :=
  match reader.part.info.tenantSegment request.tenant with
  | none => .ok state
  | some segment =>
    if spanBeyondFrontier (sink.frontierNs state.1) request.forward segment.minTsNs
        segment.maxTsNs then .ok state
    else
      ((scanIntoWithin P sink request .none
        ((decoding reader.part).sized (rows.map (· - state.2.scannedRows))) (evict reader.part) reader
        state.1).mapError fun error =>
          "failed to query part " ++ reader.part.info.id ++ ": " ++ error).map
            fun result => (result.state.1.1, state.2.add result.state.2)

variable {P sink request limits decoding evict}

/-- It leaves what the plain scan leaves. -/
theorem readPart_fst (rows : Option ℕ) (state : σ × ScanStats) (reader : PartReader) :
    (readPart P sink request decoding evict rows state reader).map Prod.fst =
      scanReader P sink request evict state.1 reader := by
  rw [readPart, scanReader]
  cases reader.part.info.tenantSegment request.tenant with
  | none => rfl
  | some segment =>
    dsimp only
    split
    · rfl
    · rw [← (scanIntoWithin_none (evict reader.part) reader state.1).1]
      cases scanIntoWithin P sink request .none
        ((decoding reader.part).sized (rows.map (· - state.2.scannedRows))) (evict reader.part) reader
        state.1 <;> rfl

theorem foldlM_readPart_fst (rows : Option ℕ) (readers : List PartReader) (state : σ × ScanStats) :
    (readers.foldlM (readPart P sink request decoding evict rows) state).map Prod.fst =
      readers.foldlM (scanReader P sink request evict) state.1 := by
  induction readers generalizing state with
  | nil => rfl
  | cons reader readers ih =>
    rw [List.foldlM_cons, List.foldlM_cons, ← @readPart_fst P σ sink request decoding evict rows]
    cases readPart P sink request decoding evict rows state reader with
    | error e => rfl
    | ok state' => exact ih state'

theorem grows_of_readPart {rows : Option ℕ} {state state' : σ × ScanStats} {reader : PartReader}
    (h : readPart P sink request decoding evict rows state reader = .ok state') :
    state.2.scannedRows ≤ state'.2.scannedRows ∧ state.2.scannedBytes ≤ state'.2.scannedBytes := by
  rw [readPart] at h
  split at h
  · cases h
    exact ⟨le_rfl, le_rfl⟩
  split at h
  · cases h
    exact ⟨le_rfl, le_rfl⟩
  · obtain ⟨result, -, rfl⟩ := Runs.exists_of_map h
    exact ⟨Nat.le_add_right _ _, Nat.le_add_right _ _⟩

theorem grows_of_foldlM {rows : Option ℕ} {readers : List PartReader} {state state' : σ × ScanStats}
    (h : readers.foldlM (readPart P sink request decoding evict rows) state = .ok state') :
    state.2.scannedRows ≤ state'.2.scannedRows ∧ state.2.scannedBytes ≤ state'.2.scannedBytes := by
  induction readers generalizing state with
  | nil =>
    cases h
    exact ⟨le_rfl, le_rfl⟩
  | cons reader readers ih =>
    rw [List.foldlM_cons] at h
    obtain ⟨state₁, hreader, hrest⟩ := Runs.exists_of_bind h
    obtain ⟨hrows, hbytes⟩ := grows_of_readPart hreader
    obtain ⟨hrows', hbytes'⟩ := ih hrest
    exact ⟨hrows.trans hrows', hbytes.trans hbytes'⟩

end PartRegistry

namespace ScanLimits

variable {limits : ScanLimits}

/-- The bytes that may be read have been read. -/
def bytesMet (limits : ScanLimits) (stats : ScanStats) : Bool :=
  limits.bytes.any (· ≤ stats.scannedBytes)

theorem after_rows_eq_zero (stats : ScanStats) :
    (limits.after stats).rows = some 0 ↔ limits.rowsReached stats = true := by
  rw [after, rowsReached]
  cases limits.rows with
  | none => simp
  | some budget => simp [Nat.sub_eq_zero_iff_le]

theorem after_bytes_eq_zero (stats : ScanStats) :
    (limits.after stats).bytes = some 0 ↔ limits.bytesMet stats = true := by
  rw [after, bytesMet]
  cases limits.bytes with
  | none => simp
  | some budget => simp [Nat.sub_eq_zero_iff_le]

theorem rowsReached_after (stats read : ScanStats) :
    (limits.after stats).rowsReached read = limits.rowsReached (stats.add read) := by
  rw [after, rowsReached, rowsReached]
  cases limits.rows with
  | none => rfl
  | some budget => exact decide_eq_decide.2 tsub_le_iff_left

theorem bytesMet_after (stats read : ScanStats) :
    (limits.after stats).bytesMet read = limits.bytesMet (stats.add read) := by
  rw [after, bytesMet, bytesMet]
  cases limits.bytes with
  | none => rfl
  | some budget => exact decide_eq_decide.2 tsub_le_iff_left

theorem bytesExceeded_of_after {stats read : ScanStats}
    (h : (limits.after stats).bytesExceeded read = true) :
    limits.bytesExceeded (stats.add read) = true := by
  obtain ⟨left, hleft, hlt⟩ := (Option.any_eq_true ..).1 h
  obtain ⟨budget, hbudget, rfl⟩ := Option.map_eq_some_iff.1 hleft
  refine (Option.any_eq_true ..).2 ⟨budget, hbudget, decide_eq_true ?_⟩
  have hless : budget - stats.scannedBytes < read.scannedBytes := of_decide_eq_true hlt
  change budget < stats.scannedBytes + read.scannedBytes
  omega

end ScanLimits

namespace PartRegistry

variable {P : Platform} {σ : Type*} {sink : RowSink σ} {request : ScanRequest} {limits : ScanLimits}
  {decoding : LogPart → Decoding σ} {evict : LogPart → ℕ → GroupCache.Eviction}

theorem candidates_nil : candidates request [] = [] := by
  rw [candidates, List.filter_nil, List.mergeSort_nil]
  cases request.forward <;> rfl

/-- A part that is read within limits is read as without, or the rows are reached. -/
theorem scanIntoWithin_cases {decoding : Decoding σ} {evict : ℕ → GroupCache.Eviction}
    {reader : PartReader} {s : σ} {result : Step ((σ × GroupCache) × ScanStats)}
    (h : scanIntoWithin P sink request limits decoding evict reader s = .ok result) :
    limits.rowsReached result.state.2 = true ∨
      scanIntoWithin P sink request .none (decoding.sized limits.rows) evict reader s = .ok result := by
  have hfollows := @scanIntoWithin_follows P σ sink request decoding limits evict reader s
  cases result with
  | next b => exact .inr (hfollows.next b h)
  | stop b => exact .inl (hfollows.stop b h).1

/-- Where the bytes are met no further part is read. -/
theorem scanReaders_of_met (readers : List PartReader) {state : σ × ScanStats}
    (hmet : limits.bytesMet state.2 = true) :
    ∃ left, scanReaders P sink request limits decoding evict readers state = .ok (state, left) := by
  induction readers with
  | nil => exact ⟨[], rfl⟩
  | cons reader readers ih =>
    rw [scanReaders]
    cases reader.part.info.tenantSegment request.tenant with
    | none => exact ih
    | some segment =>
      dsimp only
      split
      · exact ih
      split
      · exact ⟨_, rfl⟩
      · rw [if_pos (ScanLimits.after_bytes_eq_zero state.2 |>.2 hmet)]
        exact ⟨_, rfl⟩

/-- The loop ends where the rows are reached, or it has read some parts as without limits, and has
gone through them or met the bytes, at the first part that did. -/
theorem scanReaders_spec {readers left : List PartReader} {state result : σ × ScanStats}
    (h : scanReaders P sink request limits decoding evict readers state = .ok (result, left)) :
    limits.rowsReached result.2 = true ∨
      ∃ read, readers = read ++ left ∧
        read.foldlM (readPart P sink request decoding evict limits.rows) state = .ok result ∧
        (left = [] ∨ limits.bytesMet result.2 = true) ∧
        ∀ first rest reached, read = first ++ rest →
          first.foldlM (readPart P sink request decoding evict limits.rows) state = .ok reached →
          limits.bytesMet reached.2 = true → reached = result := by
  induction readers generalizing state with
  | nil =>
    cases h
    refine .inr ⟨[], rfl, rfl, .inl rfl, fun first rest reached hread hfirst _ => ?_⟩
    obtain ⟨rfl, -⟩ := List.append_eq_nil_iff.1 hread.symm
    exact (Except.ok.inj hfirst).symm
  | cons reader readers ih =>
    -- a part that is read or skipped, before the others
    have hcons : ∀ state₁, readPart P sink request decoding evict limits.rows state reader
          = .ok state₁ →
        scanReaders P sink request limits decoding evict readers state₁ = .ok (result, left) →
        (limits.bytesMet state.2 = true → state = result) →
        limits.rowsReached result.2 = true ∨
          ∃ read, reader :: readers = read ++ left ∧
            read.foldlM (readPart P sink request decoding evict limits.rows) state = .ok result ∧
            (left = [] ∨ limits.bytesMet result.2 = true) ∧
            ∀ first rest reached, read = first ++ rest →
              first.foldlM (readPart P sink request decoding evict limits.rows) state = .ok reached →
              limits.bytesMet reached.2 = true → reached = result := by
      intro state₁ hreader hrest hmet
      rcases ih hrest with hreached | ⟨read, rfl, hfold, hleft, hfirst⟩
      · exact .inl hreached
      refine .inr ⟨reader :: read, rfl, ?_, hleft, fun first rest reached hread hrun hbytes => ?_⟩
      · rw [List.foldlM_cons, hreader]
        exact hfold
      cases first with
      | nil =>
        cases hrun
        exact hmet hbytes
      | cons reader' first =>
        obtain ⟨rfl, rfl⟩ := List.cons.inj hread
        rw [List.foldlM_cons, hreader] at hrun
        exact hfirst first rest reached rfl hrun hbytes
    have hskip : readPart P sink request decoding evict limits.rows state reader = .ok state →
        scanReaders P sink request limits decoding evict readers state = .ok (result, left) → _ :=
      fun hreader hrest => hcons state hreader hrest fun hmet => by
        obtain ⟨left', hrest'⟩ := @scanReaders_of_met P σ sink request limits decoding evict readers
          state hmet
        rw [hrest] at hrest'
        exact (congrArg Prod.fst (Except.ok.inj hrest')).symm
    -- nothing was read before
    have hnone : ∀ (first rest : List PartReader) reached, [] = first ++ rest →
        first.foldlM (readPart P sink request decoding evict limits.rows) state = .ok reached →
        reached = state := by
      intro first rest reached hread hrun
      obtain ⟨rfl, -⟩ := List.append_eq_nil_iff.1 hread.symm
      exact (Except.ok.inj hrun).symm
    rw [scanReaders] at h
    cases hsegment : reader.part.info.tenantSegment request.tenant with
    | none =>
      rw [hsegment] at h
      exact hskip (by rw [readPart, hsegment]) h
    | some segment =>
      rw [hsegment] at h
      dsimp only at h
      split at h
      case isTrue hbeyond =>
        exact hskip (by rw [readPart, hsegment]; exact if_pos hbeyond) h
      case isFalse hopen =>
      split at h
      case isTrue hrows =>
        cases h
        exact .inl ((ScanLimits.after_rows_eq_zero _).1 hrows)
      case isFalse =>
      split at h
      case isTrue hbytes =>
        cases h
        exact .inr ⟨[], rfl, rfl, .inr ((ScanLimits.after_bytes_eq_zero _).1 hbytes),
          fun first rest reached hread hrun _ => hnone first rest reached hread hrun⟩
      case isFalse hroom =>
      obtain ⟨step, hstep, hrest⟩ := Runs.exists_of_bind h
      obtain hscan := Runs.of_mapError_ok hstep
      rcases scanIntoWithin_cases hscan with hrows | hunlimited
      · rw [show ((limits.after state.2).rows.any (· ≤ step.state.2.scannedRows)) = true from hrows,
          if_pos rfl] at hrest
        cases hrest
        exact .inl ((ScanLimits.rowsReached_after _ _).symm.trans hrows)
      have hreader : readPart P sink request decoding evict limits.rows state reader
          = .ok (step.state.1.1, state.2.add step.state.2) := by
        rw [readPart, hsegment]
        dsimp only
        rw [if_neg hopen, show limits.rows.map (· - state.2.scannedRows) = (limits.after state.2).rows
          from rfl, hunlimited]
        rfl
      split at hrest
      case isTrue hrows =>
        cases hrest
        exact .inl ((ScanLimits.rowsReached_after _ _).symm.trans hrows)
      case isFalse =>
      split at hrest
      case isTrue hbytes =>
        cases hrest
        refine .inr ⟨[reader], rfl, by rw [List.foldlM_cons, hreader]; rfl,
          .inr ((ScanLimits.bytesMet_after _ _).symm.trans hbytes),
          fun first rest reached hread hrun hmet => ?_⟩
        cases first with
        | nil =>
          cases hrun
          exact absurd ((ScanLimits.after_bytes_eq_zero _).2 hmet) hroom
        | cons reader' first =>
          obtain ⟨rfl, hnil⟩ := List.cons.inj hread
          obtain ⟨rfl, -⟩ := List.append_eq_nil_iff.1 hnil.symm
          rw [List.foldlM_cons, hreader] at hrun
          exact (Except.ok.inj hrun).symm
      case isFalse =>
        exact hcons _ hreader hrest fun hmet =>
          absurd ((ScanLimits.after_bytes_eq_zero _).2 hmet) hroom

/-- Parts that can be read within the limits up to the last byte leave no error. -/
theorem scanReaders_of_within {read unread : List PartReader} {state result : σ × ScanStats}
    (h : read.foldlM (readPart P sink request decoding evict limits.rows) state = .ok result)
    (hrows : limits.rowsReached result.2 = false) (hbytes : limits.bytesExceeded result.2 = false)
    (hmet : limits.bytesMet result.2 = true) :
    ∃ result' left,
      scanReaders P sink request limits decoding evict (read ++ unread) state = .ok (result', left) ∧
      result'.2.scannedRows ≤ result.2.scannedRows ∧
      result'.2.scannedBytes ≤ result.2.scannedBytes := by
  induction read generalizing state with
  | nil =>
    cases h
    obtain ⟨left, hleft⟩ := scanReaders_of_met unread hmet
    exact ⟨_, left, hleft, le_rfl, le_rfl⟩
  | cons reader read ih =>
    rw [List.foldlM_cons] at h
    obtain ⟨state₁, hreader, hrest⟩ := Runs.exists_of_bind h
    obtain ⟨hrows₁, hbytes₁⟩ := grows_of_foldlM hrest
    have hunreached : limits.rowsReached state₁.2 = false := by
      refine Bool.eq_false_of_not_eq_true fun hreached => ?_
      have := (@ScanLimits.grows limits σ state₁ result hrows₁ hbytes₁).reached hreached
      exact Bool.false_ne_true (hrows.symm.trans this)
    have hunexceeded : limits.bytesExceeded state₁.2 = false := by
      refine Bool.eq_false_of_not_eq_true fun hexceeded => ?_
      have := (@ScanLimits.grows limits σ state₁ result hrows₁ hbytes₁).exceeded hexceeded
      exact Bool.false_ne_true (hbytes.symm.trans this)
    obtain ⟨hrows₀, hbytes₀⟩ := grows_of_readPart hreader
    rw [List.cons_append, scanReaders]
    rw [readPart] at hreader
    cases hsegment : reader.part.info.tenantSegment request.tenant with
    | none =>
      rw [hsegment] at hreader
      cases hreader
      exact ih hrest
    | some segment =>
      rw [hsegment] at hreader
      dsimp only at hreader ⊢
      split at hreader
      case isTrue hbeyond =>
        cases hreader
        rw [if_pos hbeyond]
        exact ih hrest
      case isFalse hopen =>
      rw [if_neg hopen]
      split
      case isTrue => exact ⟨state, _, rfl, hrows₀.trans hrows₁, hbytes₀.trans hbytes₁⟩
      case isFalse =>
      split
      case isTrue => exact ⟨state, _, rfl, hrows₀.trans hrows₁, hbytes₀.trans hbytes₁⟩
      case isFalse =>
      obtain ⟨step, hstep, rfl⟩ := Runs.exists_of_map hreader
      have hunlimited := Runs.of_mapError_ok hstep
      have hfollows := @scanIntoWithin_follows P σ sink request (decoding reader.part)
        (limits.after state.2) (evict reader.part) reader state.1
      cases step with
      | stop b => exact absurd hunlimited (hfollows.endless b)
      | next b =>
        have hlimited := hfollows.eq_of_within hunlimited
          (fun hreached => by
            rw [← ScanLimits.rowsReached_after] at hunreached
            exact Bool.false_ne_true (hunreached.symm.trans hreached))
          (fun hexceeded => Bool.false_ne_true
            (hunexceeded.symm.trans (ScanLimits.bytesExceeded_of_after hexceeded)))
        rw [hlimited]
        dsimp only [Except.mapError, Bind.bind, Except.bind]
        split
        case isTrue => exact ⟨_, _, rfl, hrows₁, hbytes₁⟩
        case isFalse =>
        split
        case isTrue => exact ⟨_, _, rfl, hrows₁, hbytes₁⟩
        case isFalse => exact ih hrest

end PartRegistry

/-- How many rows and bytes a query may read. -/
structure ScanBudgets where
  rows : Option ℕ
  bytes : Option ℕ

namespace LogScan

/-- `check_scan_budget`. -/
def checkScanBudget (budgets : ScanBudgets) (scannedRows : ℕ) : Except String Unit :=
  match budgets.rows with
  | some budget =>
    if budget < scannedRows then
      .error ("query exceeds the maximum of " ++ toString budget ++ " scanned rows")
    else .ok ()
  | none => .ok ()

/-- The error of a query that has read too many bytes. -/
def checkScanBytes (budgets : ScanBudgets) (scannedBytes : ℕ) : Except String Unit :=
  match budgets.bytes with
  | some budget =>
    if budget < scannedBytes then
      .error ("query exceeds the maximum of " ++ toString budget ++ " scanned bytes")
    else .ok ()
  | none => .ok ()

variable (P : Platform) (scan : LogScan) (decoding : LogPart → Decoding TopKRows)
  (budgets : ScanBudgets) (evict : LogPart → ℕ → GroupCache.Eviction) (memtable : MemTable)
  (readers : List PartReader)

/-- `LogScan::run_into` with the sink of the query: the sink, the rows that were read, and the parts
that were not. -/
def runIntoWithin : Except String ((TopKRows × ScanStats) × List PartReader) := do
  let sink := pipelineSink P scan.query scan.hidden
  let scanLimit := budgets.rows.map (· + 1)
  let (s, scannedRows) ← memtable.scanWithin sink scan.request scanLimit
    (.new scan.limit scan.forward)
  checkScanBudget budgets scannedRows
  let ((s, stats), left) ← PartRegistry.scanWithin P sink scan.request
    ⟨scanLimit.map (· - scannedRows), budgets.bytes⟩ decoding evict readers s
  checkScanBudget budgets (scannedRows + stats.scannedRows)
  checkScanBytes budgets stats.scannedBytes
  .ok ((s, ⟨scannedRows + stats.scannedRows, stats.scannedBytes⟩), left)

/-- `LogScan::run` within budgets. -/
def runWithin : Except String (List StreamResult) :=
  (scan.runIntoWithin P decoding budgets evict memtable readers).map
    fun result => groupByLabels result.1.1.intoRows

/-- What the query has read when it has gone through the memtable and some parts without stopping,
in batches as large as with its budget of rows. -/
def readThrough (rows : Option ℕ) (read : List PartReader) : Except String (TopKRows × ScanStats) := do
  let sink := pipelineSink P scan.query scan.hidden
  let (s, scannedRows) ← memtable.scanWithin sink scan.request none (.new scan.limit scan.forward)
  let (s, stats) ← read.foldlM (PartRegistry.readPart P sink scan.request decoding evict
    ((rows.map (· + 1)).map (· - scannedRows))) (s, .zero)
  .ok (s, ⟨scannedRows + stats.scannedRows, stats.scannedBytes⟩)

variable (parts : List (StoredPart P))

/-- The memtable and the parts up to one take exactly the bytes that the query may read, and no more
rows; and behind it is an answer before which fewer than the limit come in what was read. -/
structure CutAt (read unread : List (StoredPart P)) : Prop where
  order : scan.candidateParts parts = read ++ unread
  charged : ∃ s stats, scan.readThrough P decoding evict memtable budgets.rows
      (read.map StoredPart.reader) = .ok (s, stats) ∧
    (∀ budget ∈ budgets.rows, stats.scannedRows ≤ budget) ∧ budgets.bytes = some stats.scannedBytes
  missed : ∃ out ∈ scan.answersIn P (unread.flatMap fun part =>
      part.admittedOf scan.tenant scan.query.lineFilters),
    ((scan.answersIn P (memtable.entriesOf scan.tenant ++ read.flatMap fun part =>
      part.admittedOf scan.tenant scan.query.lineFilters)).filter fun other =>
        other.rank scan.forward ≤ out.rank scan.forward).length < scan.limit

/-! ### Answers that come too late -/

namespace Collects

variable {P scan} {rows : TopKRows} {seen : List LogEntry}

/-- An answer with enough others before it leaves the sink as it is. -/
theorem offerRow_stays (h : scan.Collects rows seen) (hlimit : scan.limit ≠ 0) {row : Row}
    (hmany : ∀ out ∈ scan.answersIn P [row.entry], scan.limit ≤
      (seen.filter fun other => other.rank scan.forward ≤ out.rank scan.forward).length) :
    Part.offerRow (pipelineSink P scan.query scan.hidden) scan.request rows row = .ok rows := by
  rw [Part.offerRow]
  split
  · rfl
  case isFalse hopen =>
  split
  · rfl
  case isFalse hin =>
  split
  · rfl
  case isFalse hmatched =>
  have hread : (scan.range.contains row.entry.timestampNs &&
      scan.query.lineFilters.all fun filter => filter.matches row.entry.line) = true := by
    rw [Bool.not_eq_true', Bool.not_eq_false] at hin hmatched
    exact Bool.and_eq_true_iff.2 ⟨hin, hmatched⟩
  have hfound : scan.found P row.entry = pipelineOutput P scan.query scan.hidden row.entry :=
    if_pos hread
  change Except.ok ((pipelineOutput P scan.query scan.hidden row.entry).elim rows rows.offer) = _
  cases hout : pipelineOutput P scan.query scan.hidden row.entry with
  | none => rfl
  | some out =>
    -- it would be beyond the frontier
    have hanswer : out ∈ scan.answersIn P [row.entry] := by
      rw [answersIn_singleton, hfound, hout]
      exact List.mem_singleton_self out
    have hbeyond := @TopKRows.Holds.beyond_of_many rows seen h.holds (h.limit ▸ hlimit) out
      (by rw [h.limit, h.forward]; exact hmany out hanswer)
    rw [pipelineOutput_timestampNs hout, h.forward] at hbeyond
    exact absurd hbeyond hopen

theorem foldlM_offerRow_stays (h : scan.Collects rows seen) (hlimit : scan.limit ≠ 0)
    {offered : List Row} (hmany : ∀ out ∈ scan.answersIn P (offered.map Row.entry), scan.limit ≤
      (seen.filter fun other => other.rank scan.forward ≤ out.rank scan.forward).length) :
    offered.foldlM (Part.offerRow (pipelineSink P scan.query scan.hidden) scan.request) rows
      = .ok rows := by
  induction offered with
  | nil => rfl
  | cons row offered ih =>
    have hsplit : scan.answersIn P ((row :: offered).map Row.entry)
        = scan.answersIn P [row.entry] ++ scan.answersIn P (offered.map Row.entry) := by
      rw [answersIn, answersIn, answersIn, ← List.filterMap_append]
      rfl
    rw [List.foldlM_cons, h.offerRow_stays hlimit fun out hout =>
      hmany out (hsplit ▸ List.mem_append_left _ hout)]
    exact ih fun out hout => hmany out (hsplit ▸ List.mem_append_right _ hout)

/-- Parts whose answers have enough others before them leave the sink as it is. -/
theorem foldlM_scanReader_stays (h : scan.Collects rows seen) (hlimit : scan.limit ≠ 0)
    (evict : LogPart → ℕ → GroupCache.Eviction) {unread : List (StoredPart P)}
    (hmany : ∀ out ∈ scan.answersIn P (unread.flatMap fun part =>
        part.admittedOf scan.tenant scan.query.lineFilters), scan.limit ≤
      (seen.filter fun other => other.rank scan.forward ≤ out.rank scan.forward).length) :
    (unread.map StoredPart.reader).foldlM (PartRegistry.scanReader P
      (pipelineSink P scan.query scan.hidden) scan.request evict) rows = .ok rows := by
  have hopen : rows.isClosed = false := by
    rw [TopKRows.isClosed, h.limit]
    exact beq_false_of_ne hlimit
  induction unread with
  | nil => rfl
  | cons part unread ih =>
    rw [List.flatMap_cons, answersIn, List.filterMap_append] at hmany
    have hpart : PartRegistry.scanReader P (pipelineSink P scan.query scan.hidden) scan.request evict
        rows part.reader = .ok rows := by
      rw [PartRegistry.scanReader]
      split
      · rfl
      split
      · rfl
      obtain ⟨offered, cache', hscan, hperm⟩ :=
        @scanInto_offers P scan part (evict part.reader.part) rows hopen
      rw [hscan, h.foldlM_offerRow_stays hlimit fun out hout =>
        hmany out (List.mem_append_left _ (hperm.mem_iff.1 hout))]
      rfl
    rw [List.map_cons, List.foldlM_cons, hpart]
    exact ih fun out hout => hmany out (List.mem_append_right _ hout)

end Collects

/-! ### The budgets -/

section

variable {P scan decoding budgets evict memtable parts}

/-- The memtable is read to its end, or to the frontier. -/
theorem exists_memtable (hlimit : scan.limit ≠ 0) :
    ∃ s scannedRows,
      memtable.scanWithin (pipelineSink P scan.query scan.hidden) scan.request none
        (.new scan.limit scan.forward) = .ok (s, scannedRows) ∧
      memtable.scanInto (pipelineSink P scan.query scan.hidden) scan.request
        (.new scan.limit scan.forward) = .ok s ∧
      scan.Collects s (scan.answersIn P (memtable.entriesOf scan.tenant)) := by
  have hstart : scan.Collects (.new scan.limit scan.forward) [] :=
    ⟨TopKRows.new_holds _ _, rfl, rfl⟩
  have hopen : (TopKRows.new scan.limit scan.forward).isClosed = false := beq_false_of_ne hlimit
  obtain ⟨s, hread, hcollects⟩ := @Collects.memtable P scan _ _ hstart memtable hopen
  have hsame := hread
  rw [← MemTable.scanWithin_none] at hsame
  obtain ⟨⟨s', scannedRows⟩, hwithin, rfl⟩ := Runs.exists_of_map hsame
  exact ⟨s', scannedRows, hwithin, hread, hcollects⟩

/-- A budget that the memtable exceeds is an error. -/
theorem runWithin_error {s : TopKRows} {scannedRows budget : ℕ} {readers : List PartReader}
    (hmem : memtable.scanWithin (pipelineSink P scan.query scan.hidden) scan.request none
      (.new scan.limit scan.forward) = .ok (s, scannedRows))
    (hbudget : budgets.rows = some budget) (hlt : budget < scannedRows) :
    ∃ e, scan.runWithin P decoding budgets evict memtable readers = .error e := by
  have hover : ∃ state',
      memtable.scanWithin (pipelineSink P scan.query scan.hidden) scan.request
        (budgets.rows.map (· + 1)) (.new scan.limit scan.forward) = .ok state' ∧
      budget < state'.2 := by
    rcases memtable.scanWithin_cases (TopKRows.new scan.limit scan.forward) with heq | ⟨hstop, -⟩
    · exact ⟨(s, scannedRows), heq.trans hmem, hlt⟩
    · obtain ⟨state', hlimited, hreached⟩ := hstop
      rw [hbudget, Option.map_some, Option.any_some] at hreached
      exact ⟨state', hlimited, of_decide_eq_true hreached⟩
  obtain ⟨state', hlimited, hlt'⟩ := hover
  refine ⟨"query exceeds the maximum of " ++ toString budget ++ " scanned rows", ?_⟩
  rw [runWithin, runIntoWithin]
  dsimp only
  rw [hlimited]
  dsimp only [Bind.bind, Except.bind]
  rw [checkScanBudget, hbudget]
  dsimp only
  rw [if_pos hlt']
  rfl

/-- Within it the parts decide. -/
theorem runWithin_eq {s : TopKRows} {scannedRows : ℕ} (hlimit : scan.limit ≠ 0)
    (hcollects : scan.Collects s (scan.answersIn P (memtable.entriesOf scan.tenant)))
    (hmem : memtable.scanWithin (pipelineSink P scan.query scan.hidden) scan.request none
      (.new scan.limit scan.forward) = .ok (s, scannedRows))
    (hwithin : ∀ budget ∈ budgets.rows, scannedRows ≤ budget) :
    scan.runWithin P decoding budgets evict memtable (parts.map StoredPart.reader) = (do
      let ((s, stats), _) ← PartRegistry.scanReaders P (pipelineSink P scan.query scan.hidden)
        scan.request ⟨(budgets.rows.map (· + 1)).map (· - scannedRows), budgets.bytes⟩ decoding evict
        ((scan.candidateParts parts).map StoredPart.reader) (s, .zero)
      checkScanBudget budgets (scannedRows + stats.scannedRows)
      checkScanBytes budgets stats.scannedBytes
      .ok (groupByLabels s.intoRows)) := by
  have hlimited : memtable.scanWithin (pipelineSink P scan.query scan.hidden) scan.request
      (budgets.rows.map (· + 1)) (.new scan.limit scan.forward) = .ok (s, scannedRows) := by
    rcases memtable.scanWithin_cases (TopKRows.new scan.limit scan.forward) with heq | ⟨-, hstop⟩
    · exact heq.trans hmem
    · have hreached := hstop _ hmem
      obtain ⟨limit, hlimit, hle⟩ := (Option.any_eq_true ..).1 hreached
      obtain ⟨budget, hbudget, rfl⟩ := Option.map_eq_some_iff.1 hlimit
      exact absurd (of_decide_eq_true hle) (not_le.2 (Nat.lt_succ_of_le (hwithin budget hbudget)))
  have hopen : (pipelineSink P scan.query scan.hidden).isClosed s = false := by
    change s.isClosed = false
    rw [TopKRows.isClosed, hcollects.limit]
    exact beq_false_of_ne hlimit
  have hregistry : PartRegistry.scanWithin P (pipelineSink P scan.query scan.hidden) scan.request
      ⟨(budgets.rows.map (· + 1)).map (· - scannedRows), budgets.bytes⟩ decoding evict
      (parts.map StoredPart.reader) s =
        PartRegistry.scanReaders P (pipelineSink P scan.query scan.hidden) scan.request
          ⟨(budgets.rows.map (· + 1)).map (· - scannedRows), budgets.bytes⟩ decoding evict
          ((scan.candidateParts parts).map StoredPart.reader) (s, .zero) := by
    rw [PartRegistry.scanWithin, hopen, Bool.or_false, ← Collects.candidates_eq]
    split
    case isTrue hempty =>
      rw [List.isEmpty_iff.1 hempty, PartRegistry.candidates_nil]
      rfl
    case isFalse => rfl
  have hcheck : checkScanBudget budgets scannedRows = .ok () := by
    rw [checkScanBudget]
    cases hbudget : budgets.rows with
    | none => rfl
    | some budget => exact if_neg (not_lt.2 (hwithin budget hbudget))
  rw [runWithin, runIntoWithin]
  dsimp only
  rw [hlimited]
  dsimp only [Bind.bind, Except.bind]
  rw [hcheck, hregistry]
  dsimp only
  cases PartRegistry.scanReaders P (pipelineSink P scan.query scan.hidden) scan.request
      ⟨(budgets.rows.map (· + 1)).map (· - scannedRows), budgets.bytes⟩ decoding evict
      ((scan.candidateParts parts).map StoredPart.reader) (s, .zero) with
  | error e => rfl
  | ok result =>
    dsimp only
    cases checkScanBudget budgets (scannedRows + result.1.2.scannedRows) with
    | error e => rfl
    | ok _ =>
      dsimp only
      cases checkScanBytes budgets result.1.2.scannedBytes <;> rfl

/-- The query without budgets, behind the memtable. -/
theorem run_eq {s : TopKRows} (hlimit : scan.limit ≠ 0)
    (hcollects : scan.Collects s (scan.answersIn P (memtable.entriesOf scan.tenant)))
    (hread : memtable.scanInto (pipelineSink P scan.query scan.hidden) scan.request
      (.new scan.limit scan.forward) = .ok s) :
    scan.run P evict memtable (parts.map StoredPart.reader) =
      (((scan.candidateParts parts).map StoredPart.reader).foldlM (PartRegistry.scanReader P
        (pipelineSink P scan.query scan.hidden) scan.request evict) s).map
          fun rows => groupByLabels rows.intoRows := by
  have hopen : (pipelineSink P scan.query scan.hidden).isClosed s = false := by
    change s.isClosed = false
    rw [TopKRows.isClosed, hcollects.limit]
    exact beq_false_of_ne hlimit
  rw [run, runInto, hread]
  change ((PartRegistry.scanInto P _ scan.request evict _ s).map _) = _
  rw [PartRegistry.scanInto, hopen, Bool.or_false, ← Collects.candidates_eq]
  split
  case isTrue hempty =>
    rw [List.isEmpty_iff.1 hempty, PartRegistry.candidates_nil]
    rfl
  case isFalse => rfl

/-- A closed sink takes nothing, whatever the budgets are. -/
theorem runWithin_of_closed (hlimit : scan.limit = 0) (readers : List PartReader) :
    scan.runWithin P decoding budgets evict memtable readers
      = scan.run P evict memtable readers := by
  have hclosed : (pipelineSink P scan.query scan.hidden).isClosed
      (.new scan.limit scan.forward) = true := beq_iff_eq.2 hlimit
  have hrows : checkScanBudget budgets 0 = .ok () := by
    rw [checkScanBudget]
    cases budgets.rows <;> rfl
  have hbytes : checkScanBytes budgets 0 = .ok () := by
    rw [checkScanBytes]
    cases budgets.bytes <;> rfl
  rw [runWithin, runIntoWithin, MemTable.scanWithin, hclosed, if_pos rfl]
  dsimp only [Bind.bind, Except.bind]
  rw [hrows, PartRegistry.scanWithin, hclosed, Bool.or_true, if_pos rfl]
  dsimp only [ScanStats.zero]
  rw [Nat.add_zero, hrows, hbytes, run, runInto, MemTable.scanInto, hclosed, if_pos rfl]
  change _ = ((PartRegistry.scanInto P _ scan.request evict _ _).map _)
  rw [PartRegistry.scanInto, hclosed, Bool.or_true, if_pos rfl]
  rfl

theorem groupByLabels_injective : Function.Injective groupByLabels := by
  intro rows rows' h
  rw [groupByLabels, groupByLabels] at h
  cases rows <;> cases rows' <;> simp_all

/-- What was read through leaves the best of its answers. -/
theorem collects_of_readPart {s : TopKRows} {result : TopKRows × ScanStats} {rows : Option ℕ}
    {read : List (StoredPart P)} (hlimit : scan.limit ≠ 0)
    (hcollects : scan.Collects s (scan.answersIn P (memtable.entriesOf scan.tenant)))
    (h : (read.map StoredPart.reader).foldlM (PartRegistry.readPart P
      (pipelineSink P scan.query scan.hidden) scan.request decoding evict rows) (s, .zero)
        = .ok result) :
    scan.Collects result.1 (scan.answersIn P (memtable.entriesOf scan.tenant ++ read.flatMap
      fun part => part.admittedOf scan.tenant scan.query.lineFilters)) := by
  obtain ⟨s', hfold, hcollects'⟩ := hcollects.foldlM_scanReader read evict hlimit
  have hsame := @PartRegistry.foldlM_readPart_fst P _ (pipelineSink P scan.query scan.hidden)
    scan.request decoding evict rows (read.map StoredPart.reader) (s, .zero)
  rw [hfold, h] at hsame
  rw [Except.ok.inj hsame, answersIn, List.filterMap_append]
  exact hcollects'

theorem readThrough_eq {s : TopKRows} {scannedRows : ℕ} {rows : Option ℕ}
    (hmem : memtable.scanWithin (pipelineSink P scan.query scan.hidden) scan.request none
      (.new scan.limit scan.forward) = .ok (s, scannedRows)) (read : List PartReader) :
    scan.readThrough P decoding evict memtable rows read =
      (read.foldlM (PartRegistry.readPart P (pipelineSink P scan.query scan.hidden) scan.request
        decoding evict ((rows.map (· + 1)).map (· - scannedRows))) (s, .zero)).map fun result =>
          (result.1, ⟨scannedRows + result.2.scannedRows, result.2.scannedBytes⟩) := by
  rw [readThrough]
  dsimp only
  rw [hmem]
  dsimp only [Bind.bind, Except.bind]
  cases read.foldlM (PartRegistry.readPart P (pipelineSink P scan.query scan.hidden) scan.request
    decoding evict ((rows.map (· + 1)).map (· - scannedRows))) (s, .zero) <;> rfl

/-- A sink that has not seen an answer of the result is not the result. -/
theorem run_ne_of_missed {read unread : List (StoredPart P)} {rows : TopKRows} {out : LogEntry}
    (horder : scan.candidateParts parts = read ++ unread)
    (hrows : scan.Collects rows (scan.answersIn P (memtable.entriesOf scan.tenant ++
      read.flatMap fun part => part.admittedOf scan.tenant scan.query.lineFilters)))
    (hout : out ∈ scan.answersIn P (unread.flatMap fun part =>
      part.admittedOf scan.tenant scan.query.lineFilters))
    (hfew : ((scan.answersIn P (memtable.entriesOf scan.tenant ++ read.flatMap fun part =>
      part.admittedOf scan.tenant scan.query.lineFilters)).filter fun other =>
        other.rank scan.forward ≤ out.rank scan.forward).length < scan.limit) :
    scan.run P evict memtable (parts.map StoredPart.reader)
      ≠ .ok (groupByLabels rows.intoRows) := by
  intro hsame
  obtain ⟨rows', hrun, -, hbest⟩ := run_spec scan evict memtable parts
  rw [hrun] at hsame
  obtain rfl := groupByLabels_injective (Except.ok.inj hsame)
  have hall : (scan.answersIn P (memtable.entriesOf scan.tenant ++ read.flatMap fun part =>
      part.admittedOf scan.tenant scan.query.lineFilters) ++
        scan.answersIn P (unread.flatMap fun part =>
          part.admittedOf scan.tenant scan.query.lineFilters)).Perm (scan.admitted memtable parts) := by
    have hparts := @Collects.answersIn_candidateParts P scan parts
    rw [horder, List.flatMap_append] at hparts
    rw [admitted, answersIn, answersIn, answersIn, List.filterMap_append, List.filterMap_append,
      List.append_assoc, ← List.filterMap_append]
    exact List.Perm.append_left _ hparts
  have hkept := hrows.holds.intoRows.1
  rw [hrows.limit, hrows.forward] at hkept
  exact absurd ((hkept.iff_of_rejected hall).1 hbest out hout) (not_le.2 hfew)

/-- Where the bytes end with a part and an answer lies behind it, the query answers with less. -/
theorem CutAt.truncates {read unread : List (StoredPart P)}
    (hcut : scan.CutAt P decoding budgets evict memtable parts read unread) :
    ∃ results, scan.runWithin P decoding budgets evict memtable (parts.map StoredPart.reader)
        = .ok results ∧
      scan.run P evict memtable (parts.map StoredPart.reader) ≠ .ok results := by
  obtain ⟨horder, ⟨s₁, stats, hcharged, hrows, hbytes⟩, out, hout, hfew⟩ := hcut
  have hlimit : scan.limit ≠ 0 := (Nat.zero_le _).trans_lt hfew |>.ne'
  obtain ⟨s, scannedRows, hmem, -, hcollects⟩ := @exists_memtable P scan memtable hlimit
  rw [readThrough_eq hmem] at hcharged
  obtain ⟨⟨s₁', stats₁⟩, hfold, hstats⟩ := Runs.exists_of_map hcharged
  obtain ⟨rfl, rfl⟩ := Prod.mk.inj hstats
  dsimp only at hrows hbytes
  have hwithin : ∀ budget ∈ budgets.rows, scannedRows ≤ budget := fun budget hbudget =>
    (Nat.le_add_right _ _).trans (hrows budget hbudget)
  rw [runWithin_eq hlimit hcollects hmem hwithin]
  set limits : ScanLimits := ⟨(budgets.rows.map (· + 1)).map (· - scannedRows), budgets.bytes⟩
    with hlimits
  have hunreached : ∀ {stats : ScanStats}, stats.scannedRows ≤ stats₁.scannedRows →
      limits.rowsReached stats = false := by
    intro stats hle
    refine Bool.eq_false_of_not_eq_true fun hreached => ?_
    obtain ⟨limit, hlimit, hmet⟩ := (Option.any_eq_true ..).1 hreached
    obtain ⟨limit', hlimit', rfl⟩ := Option.map_eq_some_iff.1 hlimit
    obtain ⟨budget, hbudget, rfl⟩ := Option.map_eq_some_iff.1 hlimit'
    have hmet := of_decide_eq_true hmet
    have := hrows budget hbudget
    omega
  have hbytesOf : limits.bytes = some stats₁.scannedBytes := hbytes
  have hmet : limits.bytesMet stats₁ = true := by
    rw [ScanLimits.bytesMet, hbytesOf]
    exact decide_eq_true le_rfl
  have hunexceeded : limits.bytesExceeded stats₁ = false := by
    rw [ScanLimits.bytesExceeded, hbytesOf]
    exact decide_eq_false (lt_irrefl _)
  obtain ⟨result, left, hrun, hrows', hbytes'⟩ := @PartRegistry.scanReaders_of_within P _
    (pipelineSink P scan.query scan.hidden) scan.request limits decoding evict
    (read.map StoredPart.reader) (unread.map StoredPart.reader) (s, .zero) (s₁', stats₁) hfold
    (hunreached le_rfl) hunexceeded hmet
  rw [← List.map_append, ← horder] at hrun
  have hcheckRows : checkScanBudget budgets (scannedRows + result.2.scannedRows) = .ok () := by
    rw [checkScanBudget]
    cases hbudget : budgets.rows with
    | none => rfl
    | some budget =>
      exact if_neg (not_lt.2 ((Nat.add_le_add_left hrows' _).trans (hrows budget hbudget)))
  have hcheckBytes : checkScanBytes budgets result.2.scannedBytes = .ok () := by
    rw [checkScanBytes, hbytes]
    exact if_neg (not_lt.2 hbytes')
  refine ⟨groupByLabels result.1.intoRows, ?_, ?_⟩
  · rw [hrun]
    dsimp only [Bind.bind, Except.bind]
    rw [hcheckRows, hcheckBytes]
  -- the loop has stopped at the part or before it
  rcases PartRegistry.scanReaders_spec hrun with hreached | ⟨read', hsplit, hfold', -, hfirst⟩
  · exact absurd hreached (Bool.eq_false_iff.1 (hunreached hrows'))
  obtain ⟨before, behind, horder', rfl, rfl⟩ := List.map_eq_append_iff.1 hsplit
  rcases List.append_eq_append_iff.1 (horder.symm.trans horder') with ⟨mid, rfl, rfl⟩ | ⟨mid, rfl, rfl⟩
  · have hsame : (s₁', stats₁) = result :=
      hfirst (read.map StoredPart.reader) (mid.map StoredPart.reader) _ List.map_append hfold hmet
    rw [← hsame]
    exact run_ne_of_missed horder (collects_of_readPart hlimit hcollects hfold) hout hfew
  · have hout' : out ∈ scan.answersIn P ((mid ++ unread).flatMap fun part =>
        part.admittedOf scan.tenant scan.query.lineFilters) := by
      rw [List.flatMap_append, answersIn, List.filterMap_append]
      exact List.mem_append_right _ hout
    refine run_ne_of_missed horder' (collects_of_readPart hlimit hcollects hfold') hout'
      (lt_of_le_of_lt (List.Sublist.length_le (List.Sublist.filter _ ?_)) hfew)
    rw [List.flatMap_append, ← List.append_assoc]
    exact (List.sublist_append_left _ _).filterMap _

/-- **The budgets.**  A query answers with an error or as without budgets, if and only if there is no
part with which the bytes that it may read end while an answer lies behind it. -/
theorem budgets_iff (P : Platform) (scan : LogScan) (decoding : LogPart → Decoding TopKRows)
    (budgets : ScanBudgets) (evict : LogPart → ℕ → GroupCache.Eviction) (memtable : MemTable)
    (parts : List (StoredPart P)) :
    ((∃ e, scan.runWithin P decoding budgets evict memtable (parts.map StoredPart.reader) = .error e) ∨
      scan.runWithin P decoding budgets evict memtable (parts.map StoredPart.reader)
        = scan.run P evict memtable (parts.map StoredPart.reader)) ↔
    ∀ read unread, ¬ scan.CutAt P decoding budgets evict memtable parts read unread := by
  constructor
  · intro h read unread hcut
    obtain ⟨results, hwithin, hne⟩ := hcut.truncates
    rw [hwithin] at h
    rcases h with ⟨e, he⟩ | hsame
    · cases he
    · exact hne hsame.symm
  · intro hno
    by_cases hlimit : scan.limit = 0
    · exact .inr (runWithin_of_closed hlimit _)
    obtain ⟨s, scannedRows, hmem, hread, hcollects⟩ := @exists_memtable P scan memtable hlimit
    by_cases hwithin : ∀ budget ∈ budgets.rows, scannedRows ≤ budget
    case neg =>
      push Not at hwithin
      obtain ⟨budget, hbudget, hlt⟩ := hwithin
      exact .inl (runWithin_error hmem hbudget hlt)
    rw [runWithin_eq hlimit hcollects hmem hwithin, run_eq hlimit hcollects hread]
    set limits : ScanLimits := ⟨(budgets.rows.map (· + 1)).map (· - scannedRows), budgets.bytes⟩
      with hlimits
    rcases hrun : PartRegistry.scanReaders P (pipelineSink P scan.query scan.hidden) scan.request
      limits decoding evict ((scan.candidateParts parts).map StoredPart.reader) (s, .zero)
      with e | ⟨result, left⟩
    · exact .inl ⟨e, rfl⟩
    dsimp only [Bind.bind, Except.bind]
    rcases hrows : checkScanBudget budgets (scannedRows + result.2.scannedRows) with e | u
    · exact .inl ⟨e, rfl⟩
    rcases hbytes : checkScanBytes budgets result.2.scannedBytes with e | u'
    · exact .inl ⟨e, rfl⟩
    refine .inr ?_
    have hrowsLe : ∀ budget ∈ budgets.rows, scannedRows + result.2.scannedRows ≤ budget := by
      intro budget hbudget
      rw [checkScanBudget, Option.mem_def.1 hbudget] at hrows
      dsimp only at hrows
      split at hrows
      · cases hrows
      case isFalse hle => exact not_lt.1 hle
    have hbytesLe : ∀ budget ∈ budgets.bytes, result.2.scannedBytes ≤ budget := by
      intro budget hbudget
      rw [checkScanBytes, Option.mem_def.1 hbudget] at hbytes
      dsimp only at hbytes
      split at hbytes
      · cases hbytes
      case isFalse hle => exact not_lt.1 hle
    rcases PartRegistry.scanReaders_spec hrun with hreached | ⟨read', hsplit, hfold, hleft, -⟩
    · obtain ⟨limit, hlimit, hmet⟩ := (Option.any_eq_true ..).1 hreached
      obtain ⟨limit', hlimit', rfl⟩ := Option.map_eq_some_iff.1 hlimit
      obtain ⟨budget, hbudget, rfl⟩ := Option.map_eq_some_iff.1 hlimit'
      have hmet := of_decide_eq_true hmet
      have := hrowsLe budget hbudget
      omega
    obtain ⟨before, behind, horder, rfl, rfl⟩ := List.map_eq_append_iff.1 hsplit
    have hseen := collects_of_readPart hlimit hcollects hfold
    have hbefore := @PartRegistry.foldlM_readPart_fst P _ (pipelineSink P scan.query scan.hidden)
      scan.request decoding evict limits.rows (before.map StoredPart.reader) (s, .zero)
    rw [hfold] at hbefore
    have hbehind : (behind.map StoredPart.reader).foldlM (PartRegistry.scanReader P
        (pipelineSink P scan.query scan.hidden) scan.request evict) result.1 = .ok result.1 := by
      refine hseen.foldlM_scanReader_stays hlimit evict fun out hout => ?_
      by_contra hfew
      rcases hleft with hnil | hmet
      · rw [List.map_eq_nil_iff.1 hnil] at hout
        cases hout
      · -- the bytes end with the last part that was read
        obtain ⟨budget, hbudget, hle⟩ := (Option.any_eq_true ..).1 hmet
        have hexact : budget = result.2.scannedBytes :=
          le_antisymm (of_decide_eq_true hle) (hbytesLe budget hbudget)
        refine hno before behind ⟨horder, ⟨result.1,
          ⟨scannedRows + result.2.scannedRows, result.2.scannedBytes⟩, ?_, hrowsLe, hexact ▸ hbudget⟩,
          out, hout, not_le.1 hfew⟩
        rw [readThrough_eq hmem, hfold]
        rfl
    rw [horder, List.map_append, List.foldlM_append, ← hbefore]
    change _ = Except.map _ ((behind.map StoredPart.reader).foldlM _ result.1)
    rw [hbehind]
    rfl

/-! ### Two parts -/

/-- Without line filters every row group is admitted. -/
theorem admittedOf_nil (part : StoredPart P) (tenant : String) :
    part.admittedOf tenant [] = part.entriesOf tenant := by
  have hall : (List.range part.groups.length).filter (trigramsAdmit P [] part.reader.part)
      = List.range part.groups.length := by
    refine List.filter_eq_self.2 fun g _ => ?_
    rw [trigramsAdmit]
    exact (Option.all_eq_true _ _).2 fun _ _ => rfl
  rw [StoredPart.admittedOf, admittedRows, hall, flatMap_rowsOf]
  rfl

/-- A part that is charged nothing leaves the sink as it is. -/
theorem readPart_charged {sink : RowSink TopKRows} {request : ScanRequest} {rows : Option ℕ}
    {state state' : TopKRows × ScanStats} {reader : PartReader} (hcache : reader.cache.enabled = false)
    (h : PartRegistry.readPart P sink request (fun _ => oneByte TopKRows) evict rows state reader
      = .ok state') : 0 < state'.2.scannedBytes ∨ state'.1 = state.1 := by
  rw [PartRegistry.readPart] at h
  split at h
  · cases h
    exact .inr rfl
  split at h
  · cases h
    exact .inr rfl
  · obtain ⟨step, hstep, rfl⟩ := Runs.exists_of_map h
    have hscan : scanIntoWithin P sink request .none (oneByte TopKRows) (evict reader.part) reader
        state.1 = .ok step := Runs.of_mapError_ok hstep
    cases step with
    | stop b => exact absurd hscan ((scanIntoWithin_none (evict reader.part) reader state.1).2 b)
    | next b =>
      exact (scanIntoWithin_charged hcache hscan).imp_left fun hpos =>
        Nat.lt_of_lt_of_le hpos (Nat.le_add_left _ _)

end

def downEntry : String × LogEntry := ("tenant", ⟨.one, "down", []⟩)

def downRow : Row := Row.fromEntry downEntry.1 downEntry.2.canonicalized

def wholeScan : LogScan := ⟨"tenant", ⟨[], [], []⟩, .unbounded, 10, true, none⟩

/-- A part of one row, without a cache. -/
theorem exists_uncached (entry : String × LogEntry) (htenant : entry.1 = "tenant")
    (hnone : indexedFields (Row.fromEntry entry.1 entry.2.canonicalized)
      (Logql.extractJson plainPlatform.parseJson entry.2.line) = []) :
    ∃ stored : StoredPart plainPlatform,
      Written plainPlatform stored.reader.part [Row.fromEntry entry.1 entry.2.canonicalized] ∧
      stored.reader.cache.enabled = false ∧
      ∃ out, wholeScan.answersIn plainPlatform (stored.admittedOf "tenant" []) = [out] := by
  obtain ⟨part, hwritten, -⟩ := @exists_partOf plainPlatform entry fun p hp => by
    rw [hnone] at hp
    cases hp
  obtain ⟨groups, hlayout, hrows⟩ := hwritten.layout
  refine ⟨⟨⟨part, ⟨false, [], []⟩⟩, groups, hlayout, GroupCache.sound_empty false⟩, hwritten, rfl,
    (Row.fromEntry entry.1 entry.2.canonicalized).entry, ?_⟩
  rw [admittedOf_nil, StoredPart.entriesOf]
  dsimp only
  have hmine : ∀ row ∈ [Row.fromEntry entry.1 entry.2.canonicalized],
      (row.tenant == "tenant") = true := by
    intro row hrow
    rw [List.mem_singleton.1 hrow]
    exact beq_iff_eq.2 htenant
  have hfound : wholeScan.found plainPlatform (Row.fromEntry entry.1 entry.2.canonicalized).entry
      = some (Row.fromEntry entry.1 entry.2.canonicalized).entry := by
    have hrange : wholeScan.range.contains
        (Row.fromEntry entry.1 entry.2.canonicalized).entry.timestampNs = true :=
      QueryTimeRange.contains_unbounded _
    rw [found, hrange]
    rfl
  rw [hrows, entriesOfTenant, List.filter_eq_self.2 hmine, List.map_singleton, answersIn_singleton,
    hfound]
  rfl

/-- Two parts of a row each, and as many bytes as the first takes: the query answers without an error,
and not as without budgets. -/
theorem budget_truncates : ∃ (a b : StoredPart plainPlatform) (bytes : ℕ) (results : List StreamResult),
    Written plainPlatform a.reader.part [plainRow] ∧ Written plainPlatform b.reader.part [downRow] ∧
    0 < bytes ∧
    wholeScan.runWithin plainPlatform (fun _ => oneByte TopKRows) ⟨none, some bytes⟩
      (fun _ => calm.evict) ⟨[], none⟩ [a.reader, b.reader] = .ok results ∧
    wholeScan.run plainPlatform (fun _ => calm.evict) ⟨[], none⟩ [a.reader, b.reader]
      ≠ .ok results := by
  obtain ⟨a, ha, hacache, haout⟩ := exists_uncached plainEntry rfl (by decide +kernel)
  obtain ⟨b, hb, hbcache, hbout⟩ := exists_uncached downEntry rfl (by decide +kernel)
  have hboth : ∀ part ∈ [a, b], part.reader.cache.enabled = false ∧
      ∃ out, wholeScan.answersIn plainPlatform (part.admittedOf "tenant" []) = [out] := by
    simp [hacache, hbcache, haout, hbout]
  -- both are read, in some order
  obtain ⟨x, y, horder, hx, hy⟩ : ∃ x y, wholeScan.candidateParts [a, b] = [x, y] ∧
      x ∈ [a, b] ∧ y ∈ [a, b] := by
    have hperm : (wholeScan.candidateParts [a, b]).Perm [a, b] := by
      refine (inDirection_perm _ _).trans ((List.mergeSort_perm _ _).trans (.of_eq ?_))
      refine List.filter_eq_self.2 fun part hpart => ?_
      by_contra hnot
      obtain ⟨-, out, hout⟩ := hboth part hpart
      have hnil := @Collects.answersIn_of_not_candidate plainPlatform wholeScan part
        (Bool.eq_false_of_not_eq_true hnot)
      rw [show part.admittedOf wholeScan.tenant wholeScan.query.lineFilters
        = part.admittedOf "tenant" [] from rfl, hout] at hnil
      cases hnil
    obtain ⟨x, y, hxy⟩ := List.length_eq_two.1 hperm.length_eq
    rw [hxy] at hperm
    exact ⟨x, y, hxy, hperm.mem_iff.1 (by simp), hperm.mem_iff.1 (by simp)⟩
  obtain ⟨hxcache, outx, houtx⟩ := hboth x hx
  obtain ⟨-, outy, houty⟩ := hboth y hy
  have hlimit : wholeScan.limit ≠ 0 := by decide
  obtain ⟨s, scannedRows, hmem, -, hcollects⟩ := @exists_memtable plainPlatform wholeScan ⟨[], none⟩
    hlimit
  obtain ⟨s₁, hfold, hcollects₁⟩ := hcollects.foldlM_scanReader [x] (fun _ => calm.evict) hlimit
  have hread := @PartRegistry.foldlM_readPart_fst plainPlatform _
    (pipelineSink plainPlatform wholeScan.query wholeScan.hidden) wholeScan.request
    (fun _ => oneByte TopKRows) (fun _ => calm.evict) none [x.reader] (s, .zero)
  rw [show [x.reader] = [x].map StoredPart.reader from rfl, hfold] at hread
  obtain ⟨⟨s₁', stats⟩, hrun, rfl⟩ := Runs.exists_of_map hread
  have hseenx : wholeScan.answersIn plainPlatform ([x].flatMap fun part =>
      part.admittedOf wholeScan.tenant wholeScan.query.lineFilters) = [outx] := by
    rw [List.flatMap_singleton]
    exact houtx
  have hpos : 0 < stats.scannedBytes := by
    have hone : PartRegistry.readPart plainPlatform
        (pipelineSink plainPlatform wholeScan.query wholeScan.hidden) wholeScan.request
        (fun _ => oneByte TopKRows) (fun _ => calm.evict) none (s, .zero) x.reader
          = .ok (s₁', stats) := by
      rw [List.map_singleton, List.foldlM_cons] at hrun
      obtain ⟨state, hstate, hend⟩ := Runs.exists_of_bind hrun
      rw [hstate, Except.ok.inj hend]
    refine (readPart_charged hxcache hone).resolve_right fun hsame => ?_
    -- the row of the part is in the sink
    dsimp only at hsame hcollects₁
    rw [hseenx, hsame] at hcollects₁
    have hbefore := hcollects.holds.best.length_eq
    have hafter := hcollects₁.holds.best.length_eq
    rw [hbefore, hcollects.limit] at hafter
    cases hafter
  have hcut : wholeScan.CutAt plainPlatform (fun _ => oneByte TopKRows)
      ⟨none, some stats.scannedBytes⟩ (fun _ => calm.evict) ⟨[], none⟩ [a, b] [x] [y] := by
    refine ⟨horder, ⟨s₁', ⟨scannedRows + stats.scannedRows, stats.scannedBytes⟩, ?_,
      fun _ h => (by cases h), rfl⟩, outy, ?_, ?_⟩
    · rw [readThrough_eq hmem]
      exact congrArg (Except.map _) hrun
    · rw [List.flatMap_singleton]
      exact houty ▸ List.mem_singleton_self outy
    · refine lt_of_le_of_lt (List.length_filter_le ..) ?_
      rw [answersIn, List.filterMap_append]
      change (([] : List LogEntry) ++ wholeScan.answersIn plainPlatform ([x].flatMap fun part =>
        part.admittedOf wholeScan.tenant wholeScan.query.lineFilters)).length < 10
      rw [hseenx]
      exact (by decide : 1 < 10)
  obtain ⟨results, hwithin, hne⟩ := hcut.truncates
  exact ⟨a, b, stats.scannedBytes, results, ha, hb, hpos, hwithin, hne⟩

end LogScan

end Part

end Obsy
