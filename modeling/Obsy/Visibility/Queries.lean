import Obsy.Visibility.Memtables
import Obsy.Visibility.SeriesTable

/-!
# What a query sees

The runs of the three memtables with their flushes, parts and queries.  The log memtable moves in one
section what a query must not see in motion.  The trace memtable aborts a flush in two sections; the
metric memtable does so too, and its buffers are read one after the other.

* `SawOnce`: a query sees every row as often as it is held.
* `query_sees_once`: log queries always do; the others where no section falls between two of these.
* `passes_are_visible`: runs where one does.
-/

namespace Obsy

namespace Visibility

open Metrics (Floats MetricSample SeriesLabels SeriesMemTable SeriesRowKind seriesDiscipline
  seriesTable seriesTable_lawful)
open Part (MemTable logDiscipline logTable logTable_lawful)
open Trace (TraceMemTable TraceSpan traceDiscipline traceTable traceTable_lawful)

variable {M S β α κ : Type}

/-- Every finished query of a run has seen what it wanted as often as it was held when it took its
guard, and not more often than when it gave it up. -/
def SawOnce [DecidableEq α] [DecidableEq κ] (T : Table M S β α κ) (D : Discipline κ) (m : M)
    (events : List (Event β α κ)) : Prop :=
  ∀ store, (tableMachine T D).run (.new m) events = some store →
    ∀ reader ∈ store.readers, reader.free = true →
      ∀ a, reader.wanted (T.keyOf a) = true →
        reader.before.count a ≤ reader.seen.count a ∧ reader.seen.count a ≤ reader.after.count a

/-- A run whose steps are all smooth. -/
def SmoothRun [DecidableEq α] [DecidableEq κ] (T : Table M S β α κ) (D : Discipline κ)
    (fits : M → β → Prop) (m : M) (events : List (Event β α κ)) : Prop :=
  (tableMachine T D).Within (fun store event _ => Smooth D fits store event) (.new m) events

theorem sawOnce_of_smooth [DecidableEq α] [DecidableEq κ] {T : Table M S β α κ} {D : Discipline κ}
    {valid : M → Prop} {sound : S → Prop} {fits : M → β → Prop} (hT : T.Lawful valid sound fits)
    {m : M} (hvalid : valid m) (hlive : T.live m = 0) (hfrozen : T.frozen m = 0)
    {events : List (Event β α κ)} (h : SmoothRun T D fits m events) : SawOnce T D m events :=
  fun _ hrun _ hreader hfinished =>
    run_sawOnce hT hvalid hlive hfrozen hrun h hreader hfinished

/-- **Passes and queries.**  A log query sees every row once, whatever runs beside it.  A trace query
does if no abort is between its sections when it reads the memtable; a metric query does if moreover
nothing moves between the two reads of a series, and every series keeps its shape. -/
theorem query_sees_once (tenant : String) :
    (∀ events, SawOnce (logTable tenant) logDiscipline ⟨[], none⟩ events) ∧
    (∀ (π : Type) [DecidableEq π] (events : List (Event _ _ _)),
      SmoothRun (traceTable π tenant) traceDiscipline (fun _ _ => True) ⟨[], none⟩ events →
        SawOnce (traceTable π tenant) traceDiscipline ⟨[], none⟩ events) ∧
    ∀ (ν : Type) [DecidableEq ν] (F : Floats ν) (shape : SeriesLabels → SeriesRowKind)
      (events : List (Event _ _ _)),
      SmoothRun (seriesTable F tenant) (seriesDiscipline shape) (Metrics.FitsShape tenant shape)
        .new events →
        SawOnce (seriesTable F tenant) (seriesDiscipline shape) .new events := by
  refine ⟨fun events => ?_, fun π _ events h => ?_, fun ν _ F shape events h => ?_⟩
  · have hvalid : MemTable.Valid ⟨[], none⟩ := ⟨List.nodup_nil, List.nodup_nil⟩
    refine sawOnce_of_smooth (logTable_lawful tenant) hvalid rfl rfl ?_
    exact smooth_of_joint rfl rfl (fun _ _ => trivial) events
  · exact sawOnce_of_smooth (traceTable_lawful π tenant) trivial rfl rfl h
  · refine sawOnce_of_smooth (seriesTable_lawful F tenant shape) ?_ rfl rfl h
    exact ⟨⟨List.nodup_nil, fun _ hmem => absurd hmem List.not_mem_nil⟩,
      fun _ hmem => absurd hmem List.not_mem_nil⟩

def aSpan : TraceSpan Unit := ⟨"acme", "t", "s", .zero, .zero, ()⟩

def aSample : MetricSample Unit := ⟨"acme", ⟨[]⟩, .zero, .scalar (), .gauge⟩

def unitFloats : Floats Unit := ⟨fun _ => (), fun _ _ => (), fun _ => ""⟩

/-- A query reads while a flush is writing its parts. -/
theorem query_sees_once_flushing :
    SawOnce (traceTable Unit "acme") traceDiscipline ⟨[], none⟩
        [.insert [aSpan], .beginFlush, .start fun _ => true, .readAll 0, .readParts 0, .finish 0] ∧
      SawOnce (seriesTable unitFloats "acme") (seriesDiscipline fun _ => .scalar) .new
        [.insert [aSample], .beginFlush, .start fun _ => true, .readKeys 0, .probe 0, .probe 0,
          .read 0, .read 0, .read 0, .readParts 0, .finish 0] := by
  refine ⟨(query_sees_once "acme").2.1 Unit _ ?_,
    (query_sees_once "acme").2.2 Unit unitFloats (fun _ => .scalar) _ ?_⟩
  · exact ⟨trivial, fun _ hmem => absurd hmem List.not_mem_nil, trivial, fun _ _ _ => rfl, trivial,
      trivial, trivial⟩
  · refine ⟨?_, fun _ hmem => absurd hmem List.not_mem_nil, trivial, trivial, fun _ _ _ => rfl,
      fun _ _ _ => rfl, fun _ _ _ => rfl, fun _ _ _ => rfl, fun _ _ _ => rfl, trivial, trivial,
      trivial⟩
    intro sample hsample _
    rw [List.mem_singleton.1 hsample]
    rfl

/-! ### Sections that fall between -/

/-- Whether a finished query of a run has seen an item too seldom or too often. -/
def misses [DecidableEq α] [DecidableEq κ] (T : Table M S β α κ) (D : Discipline κ) (m : M)
    (events : List (Event β α κ)) (a : α) : Bool :=
  ((tableMachine T D).run (.new m) events).any fun store => store.readers.any fun reader =>
    reader.free && reader.wanted (T.keyOf a) &&
      !(decide (reader.before.count a ≤ reader.seen.count a) &&
        decide (reader.seen.count a ≤ reader.after.count a))

theorem not_sawOnce [DecidableEq α] [DecidableEq κ] {T : Table M S β α κ} {D : Discipline κ} {m : M}
    {events : List (Event β α κ)} {a : α} (h : misses T D m events a = true) :
    ¬ SawOnce T D m events := by
  intro hsaw
  rw [misses, Option.any_eq_true] at h
  obtain ⟨store, hrun, hany⟩ := h
  obtain ⟨reader, hreader, hmissed⟩ := List.any_eq_true.1 hany
  simp only [Bool.and_eq_true, Bool.not_eq_true', Bool.and_eq_false_iff,
    decide_eq_false_iff_not] at hmissed
  obtain ⟨⟨hfree, hwanted⟩, hcount⟩ := hmissed
  have hseen := hsaw store hrun reader hreader hfree a hwanted
  exact hcount.elim (fun h => h hseen.1) fun h => h hseen.2

/-- A query reads the spans in memory between the two sections of an abort. -/
def betweenAbort : List (Event (List (TraceSpan Unit)) (TraceSpan Unit) Unit) :=
  [.insert [aSpan], .beginFlush, .start fun _ => true, .abortClear, .readAll 0, .abortRestore,
    .readParts 0, .finish 0]

/-- A flush begins between the two reads of a series. -/
def betweenReads :
    List (Event (List (MetricSample Unit)) (Metrics.StoredSample Unit) SeriesLabels) :=
  [.insert [aSample], .start fun _ => true, .readKeys 0, .probe 0, .probe 0, .read 0, .beginFlush,
    .read 0, .read 0, .readParts 0, .finish 0]

/-- A flush is given back between them. -/
def givenBack : List (Event (List (MetricSample Unit)) (Metrics.StoredSample Unit) SeriesLabels) :=
  [.insert [aSample], .beginFlush, .start fun _ => true, .readKeys 0, .probe 0, .probe 0, .read 0,
    .abortClear, .abortRestore, .read 0, .read 0, .readParts 0, .finish 0]

/-- **Passes that a query sees.**  A trace query misses a span whose flush is aborted; a metric query
misses a sample when a flush begins, and sees it twice when one is aborted. -/
theorem passes_are_visible :
    ¬ SawOnce (traceTable Unit "acme") traceDiscipline ⟨[], none⟩ betweenAbort ∧
      ¬ SawOnce (seriesTable unitFloats "acme") (seriesDiscipline fun _ => .scalar) .new
        betweenReads ∧
      ¬ SawOnce (seriesTable unitFloats "acme") (seriesDiscipline fun _ => .scalar) .new
        givenBack := by
  refine ⟨not_sawOnce (a := aSpan) ?_, not_sawOnce (a := (⟨[]⟩, .zero, .scalar ())) ?_,
    not_sawOnce (a := (⟨[]⟩, .zero, .scalar ())) ?_⟩
  all_goals decide +kernel

end Visibility

end Obsy
