import Obsy.Trace.Scan

/-!
# The cap on spans

A scan hands its cap down: the memtable first, then part after part, each with what is left of it.

* `Affords`: what the parts charge in their turn stays within a cap.
* `querySelected_limited`: a part charges every span that it reads, before the window is looked at.
* `scan_refused_iff`: when a scan is refused for its cap.
* `cappedOf_scan`, `answer_of_run`: what is not refused has the whole answer.
-/

namespace Obsy

namespace Trace

open Obsy.Part (Nanos)
open TraceMemTable (limited)

variable {π : Type}

/-! ### Charging in turn -/

section Affords

variable {ρ : Type} {cap before : ℕ} {charge kept : ρ → ℕ} {parts : List ρ}

/-- Parts one after the other: what one charges, on top of what those before it returned, is within
the cap. -/
def Affords (cap : ℕ) (charge kept : ρ → ℕ) : ℕ → List ρ → Prop
  | _, [] => True
  | before, part :: parts =>
    before + charge part ≤ cap ∧ Affords cap charge kept (before + kept part) parts

instance Affords.decidable (cap : ℕ) (charge kept : ρ → ℕ) :
    ∀ before parts, Decidable (Affords cap charge kept before parts)
  | _, [] => inferInstanceAs (Decidable True)
  | before, part :: parts =>
    have := Affords.decidable cap charge kept (before + kept part) parts
    inferInstanceAs (Decidable (_ ∧ _))

/-- Parts that charge no less than they return, returned no more than the cap. -/
theorem Affords.sum_le (h : Affords cap charge kept before parts) (hbefore : before ≤ cap)
    (hkept : ∀ part ∈ parts, kept part ≤ charge part) : before + (parts.map kept).sum ≤ cap := by
  induction parts generalizing before with
  | nil => simpa using hbefore
  | cons part parts ih =>
    obtain ⟨hfirst, hrest⟩ := h
    have hpart := hkept part List.mem_cons_self
    have hsum := ih hrest (by omega) fun p hp => hkept p (List.mem_cons_of_mem _ hp)
    rw [List.map_cons, List.sum_cons]
    omega

/-- Parts that charge what they return are within the cap if all of it is. -/
theorem affords_self_iff (hbefore : before ≤ cap) :
    Affords cap kept kept before parts ↔ before + (parts.map kept).sum ≤ cap := by
  refine ⟨fun h => h.sum_le hbefore fun _ _ => le_rfl, fun h => ?_⟩
  induction parts generalizing before with
  | nil => trivial
  | cons part parts ih =>
    rw [List.map_cons, List.sum_cons] at h
    exact ⟨by omega, ih (by omega) (by omega)⟩

/-- What was returned already may as well be taken off the cap. -/
theorem affords_sub_iff {already : ℕ} (h : already ≤ cap) :
    Affords (cap - already) charge kept before parts ↔
      Affords cap charge kept (already + before) parts := by
  induction parts generalizing before with
  | nil => exact Iff.rfl
  | cons part parts ih =>
    have hfirst : before + charge part ≤ cap - already ↔ already + before + charge part ≤ cap := by
      omega
    rw [Affords, Affords, ih, hfirst, ← Nat.add_assoc]

theorem affords_congr {charge' kept' : ρ → ℕ} (hcharge : ∀ part ∈ parts, charge part = charge' part)
    (hkept : ∀ part ∈ parts, kept part = kept' part) :
    Affords cap charge kept before parts ↔ Affords cap charge' kept' before parts := by
  induction parts generalizing before with
  | nil => exact Iff.rfl
  | cons part parts ih =>
    rw [Affords, Affords, hcharge part List.mem_cons_self, hkept part List.mem_cons_self,
      ih (fun p hp => hcharge p (List.mem_cons_of_mem _ hp))
        fun p hp => hkept p (List.mem_cons_of_mem _ hp)]

end Affords

/-! ### Reads with a cap -/

/-- Whether a read is refused for its cap. -/
def Refused {α : Type} (result : Except String α) : Prop :=
  ∃ most : ℕ, result = .error s!"trace query exceeds the maximum of {most} spans"

theorem not_refused_ok {α : Type} (a : α) : ¬ Refused (.ok a : Except String α) :=
  fun ⟨_, h⟩ => (by cases h)

/-- An answer that is refused is refused in what is made of it. -/
theorem Refused.bind {α β : Type} {result : Except String α} (h : Refused result)
    (f : α → Except String β) : Refused (result >>= f) := by
  obtain ⟨most, rfl⟩ := h
  exact ⟨most, rfl⟩

theorem limited_of_le {limit : Option ℕ} {spans : List (TraceSpan π)}
    (h : ∀ most ∈ limit, spans.length ≤ most) : limited limit spans = .ok spans := by
  refine if_neg fun hany => ?_
  cases limit with
  | none => cases hany
  | some most => exact absurd (h most rfl) (Nat.not_le.2 (of_decide_eq_true hany))

theorem limited_some {most : ℕ} {spans : List (TraceSpan π)} :
    limited (some most) spans =
      if spans.length ≤ most then .ok spans
      else .error s!"trace query exceeds the maximum of {most} spans" := by
  rw [limited, Option.any_some, Option.getD_some]
  by_cases h : spans.length ≤ most
  · rw [if_neg (by simpa using h), if_pos h]
  · rw [if_pos (by simpa using h), if_neg h]

variable {P : Codec π}

/-- **The rows of the tenant** are charged up to the cap, those of another trace not. -/
theorem foldlM_takeRow_limited (reader : TracePartReader) {tenant : String}
    {traceId : Option String} {limit : Option ℕ} {spans : List (TraceSpan π)}
    (h : ∀ span ∈ spans, span.tenant = tenant) (hreads : ∀ span ∈ spans, P.Reads span)
    {taken : List (TraceSpan π)} (htaken : ∀ most ∈ limit, taken.length ≤ most) :
    (spans.map (spanRow P)).foldlM (reader.takeRow P tenant traceId limit) taken =
      limited limit (taken ++ spans.filter fun span => !traceId.any (span.traceId ≠ ·)) := by
  induction spans generalizing taken with
  | nil =>
    rw [List.filter_nil, List.append_nil, limited_of_le htaken]
    rfl
  | cons span spans ih =>
    obtain rfl := h span List.mem_cons_self
    have hrest := @ih (fun s hs => h s (List.mem_cons_of_mem _ hs))
      fun s hs => hreads s (List.mem_cons_of_mem _ hs)
    rw [List.map_cons, List.foldlM_cons]
    cases hskip : traceId.any (span.traceId ≠ ·) with
    | true =>
      rw [takeRow_skip reader hskip, List.filter_cons_of_neg (by rw [hskip]; decide)]
      exact hrest htaken
    | false =>
      rw [List.filter_cons_of_pos (by rw [hskip]; rfl)]
      by_cases hfull : limit.any (· ≤ taken.length) = true
      · -- one span too many
        have htake : reader.takeRow P span.tenant traceId limit taken (spanRow P span) =
            .error s!"trace query exceeds the maximum of {limit.getD 0} spans" :=
          (takeRow_kept reader hskip taken).trans (if_pos hfull)
        rw [htake]
        cases limit with
        | none => cases hfull
        | some most =>
          have hle : most ≤ taken.length := by simpa using hfull
          rw [limited_some, if_neg (by simp; omega)]
          rfl
      · have htake : reader.takeRow P span.tenant traceId limit taken (spanRow P span) =
            .ok (taken ++ [span]) := by
          rw [takeRow_kept reader hskip, if_neg hfull, hreads span List.mem_cons_self]
        have hroom : ∀ most ∈ limit, (taken ++ [span]).length ≤ most := by
          rintro most rfl
          have hlt : taken.length < most := by simpa using hfull
          rw [List.length_append]
          exact hlt
        rw [htake]
        refine (hrest hroom).trans ?_
        rw [List.append_assoc]
        rfl

variable {groups : List (List (TraceSpan π))} {reader : TracePartReader} {tenant : String}

/-- **A read** charges every span of its row groups, or of the trace in them. -/
theorem Layout.querySelected_limited (h : Layout P reader.part groups) {selected : List ℕ}
    (hchosen : Layout.Chosen groups tenant selected)
    (hreads : ∀ span ∈ groups.flatten, P.Reads span) (traceId : Option String) (limit : Option ℕ)
    (hdata : selected ≠ [] → reader.part.data = some (fileOf P groups)) :
    reader.querySelected P tenant selected traceId limit =
      limited limit (sortSpans ((selected.flatMap fun g => groups.getD g []).filter
        fun span => !traceId.any (span.traceId ≠ ·))) := by
  rw [TracePartReader.querySelected]
  cases hempty : selected.isEmpty with
  | true =>
    rw [List.isEmpty_iff.1 hempty, List.flatMap_nil, List.filter_nil, sortSpans, List.mergeSort_nil,
      limited_of_le fun _ _ => Nat.zero_le _, if_pos rfl]
  | false =>
    have hne : selected ≠ [] := fun hs => by simp [hs] at hempty
    let rows := selected.flatMap fun g => groups.getD g []
    let found := rows.filter fun span => !traceId.any (span.traceId ≠ ·)
    have hfold : (rows.map (spanRow P)).foldlM (reader.takeRow P tenant traceId limit) [] =
        limited limit ([] ++ found) :=
      foldlM_takeRow_limited reader (h.tenant_of_chosen hchosen)
        (fun span hs => hreads span (Layout.mem_of_chosen hchosen hs)) fun _ _ => Nat.zero_le _
    have hlength : (sortSpans found).length = found.length := (sortSpans_perm found).length_eq
    rw [hdata hne]
    simp only [Bool.false_eq_true, if_false, readRowGroups_fileOf hchosen.lt, bind, Except.bind]
    rw [hfold, List.nil_append, limited, limited, hlength]
    split_ifs <;> rfl

/-- A read by window charges all that its row groups have of the tenant. -/
theorem Layout.queryRange_limited (h : Layout P reader.part groups) {startNs endNs : Nanos}
    (hreads : ∀ span ∈ groups.flatten, P.Reads span) (limit : Option ℕ)
    (hdata : reader.part.info.tenantRowGroupsInRange tenant startNs endNs ≠ [] →
      reader.part.data = some (fileOf P groups)) :
    reader.queryRangeLimited P tenant startNs endNs limit =
      (limited limit (sortSpans ((reader.part.info.tenantRowGroupsInRange tenant startNs endNs).flatMap
        fun g => groups.getD g []))).map (List.filter fun span => spanOverlaps span startNs endNs) := by
  have hread := h.querySelected_limited (h.chosen_inRange tenant startNs endNs) hreads none limit hdata
  simp only [Option.any_none, Bool.not_false, List.filter_true] at hread
  rw [TracePartReader.queryRangeLimited, hread]
  cases limited limit _ <;> rfl

/-! ### Part after part -/

variable {query : TracePartReader → Option ℕ → Except String (List (TraceSpan π))}
  {charged : TracePartReader → List (TraceSpan π)} {wants : TraceSpan π → Bool}

/-- **Readers in their turn**: the gathering is refused if one of them charges too much. -/
theorem gather_refused_iff {readers : List TracePartReader} {cap : ℕ}
    (h : ∀ reader ∈ readers, ∀ limit,
      query reader limit = (limited limit (charged reader)).map (List.filter wants)) :
    Refused (TraceRegistry.gather query readers (some cap)) ↔
      ¬ Affords cap (fun reader => (charged reader).length)
        (fun reader => ((charged reader).filter wants).length) 0 readers := by
  let step := fun (spans : List (TraceSpan π)) reader => do
    let more ← query reader ((some cap).map (· - spans.length))
    (Except.ok (spans ++ more) : Except String (List (TraceSpan π)))
  -- the induction is on the readers left, with what those before them returned
  have hfold : ∀ before : List (TraceSpan π), before.length ≤ cap →
      (Affords cap (fun reader => (charged reader).length)
        (fun reader => ((charged reader).filter wants).length) before.length readers →
          ∃ gathered, readers.foldlM step before = .ok gathered) ∧
      (¬ Affords cap (fun reader => (charged reader).length)
        (fun reader => ((charged reader).filter wants).length) before.length readers →
          Refused (readers.foldlM step before)) := by
    induction readers with
    | nil => exact fun before _ => ⟨fun _ => ⟨before, rfl⟩, fun hno => absurd trivial hno⟩
    | cons reader readers ih =>
      intro before hbefore
      have hquery := h reader List.mem_cons_self (some (cap - before.length))
      rw [limited_some] at hquery
      rw [List.foldlM_cons]
      by_cases hroom : (charged reader).length ≤ cap - before.length
      · have hstep : step before reader = .ok (before ++ (charged reader).filter wants) := by
          simp only [step, Option.map_some, hquery, if_pos hroom]
          rfl
        have hkept := List.length_filter_le wants (charged reader)
        have hnext : (before ++ (charged reader).filter wants).length ≤ cap := by
          rw [List.length_append]
          omega
        obtain ⟨hyes, hno⟩ := ih (fun r hr => h r (List.mem_cons_of_mem _ hr)) _ hnext
        rw [List.length_append] at hyes hno
        have hfirst : before.length + (charged reader).length ≤ cap := by omega
        rw [hstep]
        exact ⟨fun hall => hyes hall.2, fun hnot => hno fun hrest => hnot ⟨hfirst, hrest⟩⟩
      · have hstep : Refused (step before reader) := by
          simp only [step, Option.map_some, hquery, if_neg hroom]
          exact ⟨_, rfl⟩
        have hover : ¬ before.length + (charged reader).length ≤ cap := by omega
        exact ⟨fun hall => absurd hall.1 hover, fun _ => hstep.bind _⟩
  obtain ⟨hyes, hno⟩ := hfold [] (Nat.zero_le _)
  refine ⟨fun hrefused hall => ?_, fun hnot => (hno hnot).bind _⟩
  obtain ⟨gathered, hgathered⟩ := hyes hall
  rw [TraceRegistry.gather, hgathered] at hrefused
  exact not_refused_ok _ hrefused

/-! ### A scan with a cap -/

/-- The rows that a read by window goes through. -/
def TracePartReader.rowsRead (reader : TracePartReader) (tenant : String) (startNs endNs : Nanos) :
    List SpanRow :=
  (reader.part.info.tenantRowGroupsInRange tenant startNs endNs).flatMap fun g =>
    (reader.part.data.getD []).getD g []

def SpanRow.overlaps (row : SpanRow) (startNs endNs : Nanos) : Bool :=
  startNs ≤ row.endTimeNs && row.startTimeNs ≤ endNs

variable {registry : TraceRegistry} {groupsOf : String → List (List (TraceSpan π))}
  {traceId : String} {startNs endNs : Nanos}

theorem Ready.rowsRead_eq (h : Ready P registry groupsOf tenant (.window startNs endNs))
    {entry : String × TracePartReader} (he : entry ∈ registry) :
    entry.2.rowsRead tenant startNs endNs =
      ((entry.2.part.info.tenantRowGroupsInRange tenant startNs endNs).flatMap fun g =>
        (groupsOf entry.1).getD g []).map (spanRow P) := by
  rw [TracePartReader.rowsRead, List.map_flatMap]
  by_cases hnil : entry.2.part.info.tenantRowGroupsInRange tenant startNs endNs = []
  · rw [hnil]
    rfl
  · refine List.flatMap_congr fun g _ => ?_
    rw [h.data entry he hnil, Option.getD_some, fileOf]
    exact List.getD_map _ (f := List.map (spanRow P)) (d := [])

/-- A scan is refused at the memtable or at the parts. -/
theorem refused_scan_iff {found : List (TraceSpan π)}
    {parts : Option ℕ → Except String (List (TraceSpan π))} {cap : ℕ} :
    Refused (do
      let spans ← limited (some cap) found
      let partSpans ← parts ((some cap).map (· - spans.length))
      Except.ok (sortSpans (spans ++ partSpans))) ↔
      cap < found.length ∨ Refused (parts (some (cap - found.length))) := by
  rw [limited_some]
  by_cases h : found.length ≤ cap
  · rw [if_pos h]
    refine Iff.trans ?_ (or_iff_right (Nat.not_lt.2 h)).symm
    show Refused (parts (some (cap - found.length)) >>= _) ↔ _
    cases hparts : parts (some (cap - found.length)) with
    | error e => exact Iff.rfl
    | ok more => exact iff_of_false (not_refused_ok _) (not_refused_ok _)
  · rw [if_neg h]
    exact iff_of_true ⟨_, rfl⟩ (.inl (Nat.not_le.1 h))

/-- The spans asked for, counted part by part. -/
theorem Ready.sum_wantedOf {target : TraceScanTarget} (h : Ready P registry groupsOf tenant target)
    {readers : List TracePartReader} (hreaders : readers.Perm (registry.map Prod.snd)) :
    (readers.map fun reader => (wantedOf groupsOf tenant target reader).length).sum =
      ((shelf registry groupsOf).filter fun span =>
        span.tenant = tenant && target.wants span).length := by
  rw [← h.flatMap_wantedOf, ← (hreaders.flatMap_right _).length_eq, List.length_flatMap]

/-- **A scan by id** is refused if more spans than the cap carry the id. -/
theorem Ready.scan_byId_refused_iff (h : Ready P registry groupsOf tenant (.byId traceId))
    (hreads : ∀ span ∈ shelf registry groupsOf, P.Reads span) (memtable : TraceMemTable π) (cap : ℕ) :
    Refused (scanTraceSpans P memtable registry tenant (.byId traceId) (some cap)) ↔
      cap < ((memtable.spans ++ shelf registry groupsOf).filter fun span =>
        span.tenant = tenant && (TraceScanTarget.byId traceId).wants span).length := by
  let readers := (registry.map Prod.snd).mergeSort fun a b => a.part.info.minTsNs ≤ b.part.info.minTsNs
  let charged := fun reader : TracePartReader =>
    sortSpans (((reader.traceRowGroups tenant traceId).flatMap fun g =>
      (groupsOf reader.part.info.id).getD g []).filter
        fun span => !(some traceId).any (span.traceId ≠ ·))
  have hreaders : readers.Perm (registry.map Prod.snd) := List.mergeSort_perm _ _
  have hmine : ∀ entry ∈ registry, ∀ span ∈ (groupsOf entry.1).flatten, P.Reads span :=
    fun entry he span hs => hreads span (List.mem_flatMap.2 ⟨entry, he, hs⟩)
  have hquery : ∀ reader ∈ readers, ∀ limit, reader.queryTraceIdLimited P tenant traceId limit =
      limited limit (charged reader) := by
    intro reader hreader limit
    obtain ⟨entry, he, rfl⟩ := List.mem_map.1 (hreaders.mem_iff.1 hreader)
    have hread := (h.opened entry he).layout.querySelected_limited
      ((h.opened entry he).layout.chosen_filter tenant (entry.2.bloomContains traceId))
      (hmine entry he) (some traceId) limit (h.data entry he)
    simp only [charged, h.name entry he]
    exact hread
  have hcharged : ∀ reader ∈ readers,
      (charged reader).length = (wantedOf groupsOf tenant (.byId traceId) reader).length := by
    intro reader hreader
    have hnone := hquery reader hreader none
    obtain ⟨entry, he, rfl⟩ := List.mem_map.1 (hreaders.mem_iff.1 hreader)
    obtain ⟨spans, hspans, hperm⟩ := (h.opened entry he).queryTraceId_spec (hmine entry he) (h.data entry he)
    rw [hspans] at hnone
    rw [wantedOf, h.name entry he]
    exact (congrArg List.length (Except.ok.inj hnone.symm)).trans hperm.length_eq
  have hparts : ∀ most, Refused (registry.queryTraceId P tenant traceId (some most)) ↔
      ¬ (readers.map fun reader => (charged reader).length).sum ≤ most := by
    intro most
    have hgather : Refused (registry.queryTraceId P tenant traceId (some most)) ↔
        ¬ Affords most (fun reader => (charged reader).length)
          (fun reader => ((charged reader).filter fun _ => true).length) 0 readers := by
      refine gather_refused_iff fun reader hreader limit => ?_
      rw [reader.queryTraceId_skip, hquery reader hreader]
      cases limited limit (charged reader) with
      | error e => rfl
      | ok spans => exact congrArg Except.ok (List.filter_true spans).symm
    simp only [List.filter_true] at hgather
    rw [affords_self_iff (Nat.zero_le _), Nat.zero_add] at hgather
    exact hgather
  have hsum := h.sum_wantedOf hreaders
  rw [← List.map_congr_left hcharged] at hsum
  rw [List.filter_append, List.length_append, ← hsum]
  refine refused_scan_iff.trans ?_
  rw [hparts]
  show _ ∨ _ ↔ cap < (memtable.spans.filter fun span =>
    span.tenant = tenant && (TraceScanTarget.byId traceId).wants span).length + _
  have hmine : (memtable.spans.filter fun span =>
      span.tenant = tenant && decide (span.traceId = traceId)).length =
      (memtable.spans.filter fun span =>
        span.tenant = tenant && (TraceScanTarget.byId traceId).wants span).length := rfl
  omega

/-- **A scan by window** is refused if more spans than the cap match in the memtable, or a part has
more rows in the row groups that it opens than what the matches before it left. -/
theorem Ready.scan_window_refused_iff (h : Ready P registry groupsOf tenant (.window startNs endNs))
    (hreads : ∀ span ∈ shelf registry groupsOf, P.Reads span) (memtable : TraceMemTable π) (cap : ℕ) :
    let found := memtable.spans.filter fun span =>
      span.tenant = tenant && spanOverlaps span startNs endNs
    let charge := fun reader : TracePartReader => (reader.rowsRead tenant startNs endNs).length
    let kept := fun reader : TracePartReader =>
      ((reader.rowsRead tenant startNs endNs).filter (·.overlaps startNs endNs)).length
    (Refused (scanTraceSpans P memtable registry tenant (.window startNs endNs) (some cap)) ↔
      cap < found.length ∨ ¬ Affords cap charge kept found.length (registry.map Prod.snd)) ∧
    (∀ reader ∈ registry.map Prod.snd, kept reader ≤ charge reader) ∧
    found.length + ((registry.map Prod.snd).map kept).sum =
      ((memtable.spans ++ shelf registry groupsOf).filter fun span =>
        span.tenant = tenant && (TraceScanTarget.window startNs endNs).wants span).length := by
  intro found charge kept
  let charged := fun reader : TracePartReader =>
    sortSpans ((reader.part.info.tenantRowGroupsInRange tenant startNs endNs).flatMap fun g =>
      (groupsOf reader.part.info.id).getD g [])
  let wants := fun span : TraceSpan π => spanOverlaps span startNs endNs
  have hmine : ∀ entry ∈ registry, ∀ span ∈ (groupsOf entry.1).flatten, P.Reads span :=
    fun entry he span hs => hreads span (List.mem_flatMap.2 ⟨entry, he, hs⟩)
  have hquery : ∀ reader ∈ registry.map Prod.snd, ∀ limit,
      reader.queryRangeLimited P tenant startNs endNs limit =
        (limited limit (charged reader)).map (List.filter wants) := by
    intro reader hreader limit
    obtain ⟨entry, he, rfl⟩ := List.mem_map.1 hreader
    have hread := (h.opened entry he).layout.queryRange_limited (hmine entry he) limit (h.data entry he)
    simp only [charged, h.name entry he]
    exact hread
  have hcharge : ∀ reader ∈ registry.map Prod.snd, (charged reader).length = charge reader := by
    intro reader hreader
    obtain ⟨entry, he, rfl⟩ := List.mem_map.1 hreader
    simp only [charged, charge, h.rowsRead_eq he, h.name entry he, List.length_map]
    exact (sortSpans_perm _).length_eq
  have hkept : ∀ reader ∈ registry.map Prod.snd,
      ((charged reader).filter wants).length = kept reader := by
    intro reader hreader
    obtain ⟨entry, he, rfl⟩ := List.mem_map.1 hreader
    simp only [charged, kept, h.rowsRead_eq he, h.name entry he, List.filter_map, List.length_map]
    exact ((sortSpans_perm _).filter _).length_eq
  have hwanted : ∀ reader ∈ registry.map Prod.snd,
      kept reader = (wantedOf groupsOf tenant (.window startNs endNs) reader).length := by
    intro reader hreader
    have hnone := hquery reader hreader none
    rw [← hkept reader hreader]
    obtain ⟨entry, he, rfl⟩ := List.mem_map.1 hreader
    obtain ⟨spans, hspans, hperm⟩ := (h.opened entry he).layout.queryRange_spec (hmine entry he) (h.data entry he)
    rw [hspans] at hnone
    rw [wantedOf, h.name entry he]
    exact (congrArg List.length (Except.ok.inj hnone.symm)).trans hperm.length_eq
  refine ⟨?_, fun reader _ => List.length_filter_le _ _, ?_⟩
  · have hparts : ∀ most, Refused (registry.queryRange P tenant startNs endNs (some most)) ↔
        ¬ Affords most charge kept 0 (registry.map Prod.snd) := by
      intro most
      rw [← affords_congr hcharge hkept]
      exact gather_refused_iff hquery
    have hscan : Refused (scanTraceSpans P memtable registry tenant (.window startNs endNs) (some cap)) ↔
        cap < found.length ∨
          Refused (registry.queryRange P tenant startNs endNs (some (cap - found.length))) :=
      refused_scan_iff
    rw [hscan, hparts]
    by_cases hfew : found.length ≤ cap
    · rw [affords_sub_iff hfew, Nat.add_zero]
    · exact iff_of_true (.inl (Nat.not_le.1 hfew)) (.inl (Nat.not_le.1 hfew))
  · have hsum := h.sum_wantedOf (.refl _)
    rw [← List.map_congr_left hwanted] at hsum
    rw [List.filter_append, List.length_append, ← hsum]
    rfl

/-- An answer under a cap is the answer without it, unless it is refused. -/
def CappedOf {α : Type} (capped free : Except String α) : Prop := Refused capped ∨ capped = free

theorem CappedOf.refl {α : Type} (result : Except String α) : CappedOf result result := .inr rfl

theorem CappedOf.bind {α β : Type} {capped free : Except String α} (h : CappedOf capped free)
    {f g : α → Except String β} (hfg : ∀ a, CappedOf (f a) (g a)) :
    CappedOf (capped >>= f) (free >>= g) := by
  rcases h with hrefused | rfl
  · exact .inl (hrefused.bind f)
  · cases capped with
    | error e => exact .inr rfl
    | ok a => exact hfg a

theorem CappedOf.foldlM {α β : Type} {f g : β → α → Except String β}
    (h : ∀ b a, CappedOf (f b a) (g b a)) (items : List α) (b : β) :
    CappedOf (items.foldlM f b) (items.foldlM g b) := by
  induction items generalizing b with
  | nil => exact .refl _
  | cons a items ih =>
    rw [List.foldlM_cons, List.foldlM_cons]
    exact (h b a).bind ih

theorem cappedOf_limited (limit : Option ℕ) (spans : List (TraceSpan π)) :
    CappedOf (limited limit spans) (limited none spans) := by
  rw [limited]
  split_ifs
  · exact .inl ⟨_, rfl⟩
  · exact .refl _

theorem cappedOf_takeRow (reader : TracePartReader) (tenant : String) (traceId : Option String)
    (limit : Option ℕ) (taken : List (TraceSpan π)) (row : SpanRow) :
    CappedOf (reader.takeRow P tenant traceId limit taken row)
      (reader.takeRow P tenant traceId none taken row) := by
  simp only [TracePartReader.takeRow, Option.any_none, Bool.false_eq_true, if_false]
  split_ifs with htenant hother hfull
  · exact .refl _
  · exact .refl _
  · exact .inl ⟨_, rfl⟩
  · exact .refl _

theorem cappedOf_querySelected (reader : TracePartReader) (tenant : String) (selected : List ℕ)
    (traceId : Option String) (limit : Option ℕ) :
    CappedOf (reader.querySelected P tenant selected traceId limit)
      (reader.querySelected P tenant selected traceId none) := by
  rw [TracePartReader.querySelected, TracePartReader.querySelected]
  split_ifs
  · exact .refl _
  · cases reader.part.data with
    | none => exact .refl _
    | some data =>
      refine (CappedOf.refl _).bind fun rows => CappedOf.bind ?_ fun _ => .refl _
      exact CappedOf.foldlM (cappedOf_takeRow reader tenant traceId limit) rows []

theorem cappedOf_gather {query : TracePartReader → Option ℕ → Except String (List (TraceSpan π))}
    (h : ∀ reader limit, CappedOf (query reader limit) (query reader none))
    (readers : List TracePartReader) (cap : Option ℕ) :
    CappedOf (TraceRegistry.gather query readers cap) (TraceRegistry.gather query readers none) := by
  refine CappedOf.bind (CappedOf.foldlM (fun spans reader => ?_) readers []) fun _ => .refl _
  exact (h reader _).bind fun _ => .refl _

/-- **A scan that is not refused** for its cap has the answer of the scan without one. -/
theorem cappedOf_scan (memtable : TraceMemTable π) (registry : TraceRegistry) (tenant : String)
    (target : TraceScanTarget) (cap : Option ℕ) :
    CappedOf (scanTraceSpans P memtable registry tenant target cap)
      (scanTraceSpans P memtable registry tenant target none) := by
  cases target with
  | byId traceId =>
    refine (cappedOf_limited cap _).bind fun spans => CappedOf.bind ?_ fun _ => .refl _
    refine cappedOf_gather (fun reader limit => ?_) _ _
    split_ifs
    · exact cappedOf_querySelected reader tenant _ _ limit
    · exact .refl _
  | window startNs endNs =>
    refine (cappedOf_limited cap _).bind fun spans => CappedOf.bind ?_ fun _ => .refl _
    refine cappedOf_gather (fun reader limit => ?_) _ _
    exact (cappedOf_querySelected reader tenant _ _ limit).bind fun _ => .refl _

/-- A query: the parts it may open are pinned, and then it scans. -/
def TraceStore.answer (P : Codec π) (store : TraceStore π) (registry : TraceRegistry)
    (tenant : String) (maxSpans : Option ℕ) (target : TraceScanTarget) :
    Except String (List (TraceSpan π)) := do
  let pinned ← registry.pin store.objects tenant target
  scanTraceSpans P store.memtable pinned tenant target maxSpans

/-- **A query** that is not refused for its cap has the accepted spans that it asks for. -/
theorem answer_of_run {events : List (StoreEvent π)} {store : TraceStore π}
    (hrun : (traceMachine P).run TraceStore.empty events = some store)
    (hreads : ∀ span ∈ events.flatMap StoreEvent.accepted, P.Reads span)
    {registry : TraceRegistry} (horder : registry.Perm store.registry) (tenant : String)
    (maxSpans : Option ℕ) (target : TraceScanTarget) :
    Refused (store.answer P registry tenant maxSpans target) ∨
      ∃ answer, store.answer P registry tenant maxSpans target = .ok answer ∧
        answer.Perm ((events.flatMap StoreEvent.accepted).filter fun span =>
          span.tenant = tenant && target.wants span) := by
  obtain ⟨pinned, groupsOf, hpin, hready, hperm, -⟩ :=
    exists_ready_of_run hrun (fun span hs => (hreads span hs).faithful) horder tenant target
  have hshelf : ∀ span ∈ shelf pinned groupsOf, P.Reads span := fun span hs =>
    hreads span (hperm.subset (List.mem_append_right _ hs))
  obtain ⟨answer, hanswer, hfound, -⟩ := hready.scanTraceSpans_spec hshelf store.memtable
  rw [TraceStore.answer, hpin]
  rcases cappedOf_scan (P := P) store.memtable pinned tenant target maxSpans with hrefused | hsame
  · exact .inl hrefused
  · exact .inr ⟨answer, hsame.trans hanswer, hfound.trans (hperm.filter _)⟩

/-! ### A span outside the window -/

theorem inRange_one : -2 ^ 63 ≤ (1 : ℤ) ∧ (1 : ℤ) < 2 ^ 63 := by decide

/-- A span at the start of time, and one of the same trace after it. -/
def oneAfterOther : List (TraceSpan Unit) :=
  [⟨"tenant", "a", "span", .zero, .zero, ()⟩,
    ⟨"tenant", "a", "span", ⟨1, inRange_one⟩, ⟨1, inRange_one⟩, ()⟩]

/-- The part of the two. -/
def partOfBoth : TracePart :=
  writeTracePartFiles tallyPlatform "0-uuid" 0 oneAfterOther 2

/-- The store after the flush of the two. -/
def flushedBoth : TraceStore Unit where
  memtable := ⟨[], none⟩
  registry := [("0-uuid", ⟨partOfBoth, partOfBoth.bloomFile⟩)]
  objects := fun id => if id = "0-uuid" then partOfBoth.data else none

/-- What happens: the two are accepted, and flushed. -/
def flushBoth : List (StoreEvent Unit) :=
  [.insert oneAfterOther, .beginFlush, .commitFlush 2 fun _ => "uuid"]

theorem daysOf_oneAfterOther : daysOf oneAfterOther = [0] := by
  simp [daysOf, oneAfterOther, Part.partitionOf, Nanos.zero]

theorem pairwise_oneAfterOther : oneAfterOther.Pairwise fun a b => partKey a ≤ partKey b := by
  refine List.pairwise_pair.2 (Prod.Lex.le_iff.2 (.inr ⟨rfl, Prod.Lex.le_iff.2 (.inr ⟨rfl, ?_⟩)⟩))
  exact Prod.Lex.le_iff.2 (.inl (show (0 : ℤ) < 1 by decide))

theorem load_partOfBoth : loadTracePart partOfBoth = .ok partOfBoth :=
  loadTracePart_writeTracePartFiles _ _ _ (by decide) two_pos pairwise_oneAfterOther (by decide)

theorem flush_oneAfterOther :
    flushTraceSpansWithId tallyPlatform 2 (fun _ => "uuid") none oneAfterOther =
      .ok [partOfBoth] := by
  have hday : (oneAfterOther.map fun span => Part.partitionOf span.startTimeNs).dedup.mergeSort
      (· ≤ ·) = [0] := daysOf_oneAfterOther
  have hmine : (oneAfterOther.filter fun span => Part.partitionOf span.startTimeNs = 0) =
      oneAfterOther := by
    refine List.filter_eq_self.2 fun span hspan => decide_eq_true ?_
    have hmem := mem_daysOf hspan
    rw [daysOf_oneAfterOther] at hmem
    exact List.mem_singleton.1 hmem
  have hsorted : (oneAfterOther.mergeSort fun left right => partKey left ≤ partKey right) =
      oneAfterOther := List.mergeSort_of_pairwise (by simpa using pairwise_oneAfterOther)
  rw [flushTraceSpansWithId, if_neg (by decide), if_neg (by decide), if_neg (by simp), hday,
    List.mapM_cons, hmine]
  dsimp only
  rw [hsorted, if_neg (by simp)]
  show (do
    let part ← loadTracePart partOfBoth
    let parts ← [].mapM _
    pure (part :: parts)) = _
  rw [load_partOfBoth]
  rfl

theorem run_flushBoth :
    (traceMachine tallyPlatform).run TraceStore.empty flushBoth = some flushedBoth := by
  let buffered : TraceStore Unit := ⟨⟨[], oneAfterOther⟩, [], fun _ => none⟩
  have hlayout := (layout_writeTracePartFiles two_pos pairwise_oneAfterOther
    (fun span hspan => by
      have hmem := mem_daysOf hspan
      rw [daysOf_oneAfterOther] at hmem
      exact List.mem_singleton.1 hmem) load_partOfBoth).2
  have hopen : TracePartReader.openInternal true partOfBoth =
      .ok ⟨partOfBoth, partOfBoth.bloomFile⟩ := by
    refine Written.openInternal_eq ⟨hlayout, rfl⟩ fun group _ => ?_
    obtain ⟨_, -, hbits⟩ := numBits_groupBloom tallyPlatform.sizing group
    rw [hbits]
    show 8 < 2 ^ 32
    decide
  have hflush : buffered.flush tallyPlatform 2 (fun _ => "uuid") = .ok flushedBoth := by
    show (do
      let parts ← flushTraceSpansWithId tallyPlatform 2 (fun _ => "uuid") none oneAfterOther
      let readers ← parts.mapM (TracePartReader.openInternal true)
      Except.ok { readers.foldl TraceStore.publish buffered with
        memtable := buffered.memtable.commitFlush }) = _
    rw [flush_oneAfterOther]
    show (do
      let readers ← [partOfBoth].mapM (TracePartReader.openInternal true)
      Except.ok { readers.foldl TraceStore.publish buffered with
        memtable := buffered.memtable.commitFlush }) = _
    rw [List.mapM_cons, hopen]
    rfl
  have hnew : NewIds buffered (newIds tallyPlatform (fun _ => "uuid") oneAfterOther) := by
    rw [newIds, daysOf_oneAfterOther]
    exact ⟨List.nodup_singleton _, fun _ _ => ⟨rfl, rfl⟩⟩
  have hstep : (traceMachine tallyPlatform).step buffered (.commitFlush 2 fun _ => "uuid") =
      some flushedBoth := by
    simp only [traceMachine, hflush]
    exact if_pos hnew
  refine Machine.run_cons_eq_some.2 ⟨_, rfl, Machine.run_cons_eq_some.2 ⟨buffered, rfl, ?_⟩⟩
  exact Machine.run_cons_eq_some.2 ⟨flushedBoth, hstep, rfl⟩

theorem pin_flushedBoth (target : TraceScanTarget) :
    flushedBoth.registry.pin flushedBoth.objects "tenant" target = .ok flushedBoth.registry := by
  have hmissing : flushedBoth.registry.missingDataIds
      (flushedBoth.registry.requiredParts "tenant" target) = [] := by
    simp [TraceRegistry.missingDataIds, flushedBoth, partOfBoth, writeTracePartFiles]
  rw [TraceRegistry.pin, hmissing]
  rfl

theorem rows_flushedBoth : ¬ Affords 1
    (fun reader => (TracePartReader.rowsRead reader "tenant" .zero .zero).length)
    (fun reader => ((TracePartReader.rowsRead reader "tenant" .zero .zero).filter
      (·.overlaps .zero .zero)).length) 0 (flushedBoth.registry.map Prod.snd) := by
  decide

end Trace

end Obsy
