import Mathlib.Algebra.Order.BigOperators.Group.List
import Mathlib.Data.List.Sort
import Mathlib.Data.String.Basic
import Mathlib.Tactic.Ring
import Obsy.Runs.Counters

/-!
# Compaction by size

A pass rewrites parts of one partition and of one size band, a tier, into one part.  The parts of a
full tier are to make one of a higher tier, so that no byte is rewritten more often than there are
tiers.

* `tierOf`, `selectTier`: what a pass is to rewrite.
* `Selection`: what every selection is.
* `Fills`: the smallest parts of a tier reach its ceiling before they reach the limits of a pass.
* `climbs_iff_fills`: then, and only then, a pass writes a part of a higher tier.
* `compaction_amortizes`: and in a run of such passes no byte is rewritten too often.
-/

namespace Obsy

namespace Compaction

/-! ### Tiers -/

def tierRatio : ℕ := 8

def tierZeroMaxBytes : ℕ := 4 * 1024

/-- In nanoseconds. -/
def idlePartitionAge : ℤ := 60 * 60 * 10 ^ 9

structure TierPolicy where
  /-- Parts of this size are never rewritten. -/
  maxPartBytes : ℕ
  minParts : ℕ
  maxParts : ℕ
  maxInputBytes : ℕ

/-- A part as the selection sees it. -/
structure TierCandidate where
  partition : String
  bytes : ℕ
  maxTsNs : ℤ
deriving DecidableEq

def tracePolicy : TierPolicy := ⟨16 * 1024 * 1024, 8, 32, 16 * 1024 * 1024⟩

def metricPolicy : TierPolicy := ⟨256 * 1024 * 1024, 8, 16, 256 * 1024 * 1024⟩

/-- The loop of `tier_of`: it also ends where the next ceiling is no `u64`. -/
def tierLoop (bytes : ℕ) : ℕ → ℕ → ℕ → ℕ
  | 0, tier, _ => tier
  | fuel + 1, tier, ceiling =>
    if bytes < ceiling then tier
    else if 2 ^ 64 ≤ ceiling * tierRatio then tier + 1
    else tierLoop bytes fuel (tier + 1) (ceiling * tierRatio)

/-- The size band of a part. -/
def tierOf (bytes : ℕ) : ℕ := tierLoop bytes 64 0 tierZeroMaxBytes

/-- Where a tier ends. -/
def ceilingOf (tier : ℕ) : ℕ := tierZeroMaxBytes * tierRatio ^ tier

theorem ceilingOf_succ (tier : ℕ) : ceilingOf (tier + 1) = ceilingOf tier * tierRatio := by
  rw [ceilingOf, pow_succ, ← Nat.mul_assoc]
  rfl

theorem ceilingOf_strictMono : StrictMono ceilingOf := by
  refine strictMono_nat_of_lt_succ fun tier => ?_
  have hpos : 0 < ceilingOf tier := Nat.mul_pos (by decide) (Nat.pow_pos (by decide))
  rw [ceilingOf_succ, tierRatio]
  omega

/-- The last ceiling that is a `u64` is that of tier 17. -/
theorem overflows_iff {tier : ℕ} : 2 ^ 64 ≤ ceilingOf tier * tierRatio ↔ 17 ≤ tier := by
  rw [← ceilingOf_succ]
  constructor
  · intro h
    by_contra hlt
    have hle := ceilingOf_strictMono.monotone (by omega : tier + 1 ≤ 17)
    have hlast : ceilingOf 17 < 2 ^ 64 := by decide
    omega
  · intro h
    have hfirst : 2 ^ 64 ≤ ceilingOf 18 := by decide
    exact hfirst.trans (ceilingOf_strictMono.monotone (by omega))

theorem lt_tierLoop {bytes fuel tier : ℕ} (hfuel : 18 ≤ tier + fuel) (htier : tier ≤ 17)
    (hbelow : ∀ k < tier, ceilingOf k ≤ bytes) (k : ℕ) :
    k < tierLoop bytes fuel tier (ceilingOf tier) ↔ k < 18 ∧ ceilingOf k ≤ bytes := by
  induction fuel generalizing tier with
  | zero => omega
  | succ fuel ih =>
    rw [tierLoop]
    split_ifs with hlt hover
    · constructor
      · exact fun hk => ⟨by omega, hbelow k hk⟩
      · rintro ⟨-, hk⟩
        exact ceilingOf_strictMono.lt_iff_lt.1 (hk.trans_lt hlt)
    · have hlast : tier = 17 := by
        have := overflows_iff.1 hover
        omega
      subst hlast
      constructor
      · intro hk
        exact ⟨hk, (ceilingOf_strictMono.monotone (by omega)).trans (not_lt.1 hlt)⟩
      · exact fun hk => hk.1
    · have hnext : ¬ 17 ≤ tier := fun h => hover (overflows_iff.2 h)
      rw [← ceilingOf_succ]
      refine ih (by omega) (by omega) fun j hj => ?_
      rcases Nat.lt_succ_iff_lt_or_eq.1 hj with hj | rfl
      · exact hbelow j hj
      · exact not_lt.1 hlt

/-- **A part is above a tier** if it reaches the ceiling of it; there are tiers 0 to 18. -/
theorem lt_tierOf {bytes k : ℕ} : k < tierOf bytes ↔ k < 18 ∧ ceilingOf k ≤ bytes :=
  lt_tierLoop (by decide) (by decide) (fun _ hk => absurd hk (Nat.not_lt_zero _)) k

theorem tierOf_le (bytes : ℕ) : tierOf bytes ≤ 18 := by
  by_contra h
  have := lt_tierOf.1 (not_le.1 h)
  omega

/-! ### Selecting -/

/-- The size band of a part of a partition. -/
abbrev Band := String × ℕ

/-- A candidate with its index. -/
abbrev Entry := TierCandidate × ℕ

def TierCandidate.band (candidate : TierCandidate) : Band :=
  (candidate.partition, tierOf candidate.bytes)

/-- What some candidates count for. -/
def bytesOf (entries : List Entry) : ℕ := (entries.map fun e => e.1.bytes).sum

section

variable (policy : TierPolicy) (candidates : List TierCandidate)

/-- The newest row of a partition. -/
def newestOf (partition : String) : ℤ :=
  ((candidates.filter fun c => c.partition = partition).map (·.maxTsNs)).foldl max (-2 ^ 63)

/-- Nobody writes to the partition any more. -/
def isIdle (nowNs : ℤ) (partition : String) : Bool :=
  newestOf candidates partition < max (nowNs - idlePartitionAge) (-2 ^ 63)

/-- The candidates that are not too large. -/
def eligible : List Entry := candidates.zipIdx.filter fun e => e.1.bytes < policy.maxPartBytes

/-- The bands with candidates, in order. -/
def bands : List Band :=
  ((eligible policy candidates).map fun e => e.1.band).dedup.mergeSort
    fun a b => a.1 < b.1 ∨ a.1 = b.1 ∧ a.2 ≤ b.2

/-- The candidates of a band, the smallest first. -/
def partsOf (band : Band) : List Entry :=
  ((eligible policy candidates).filter fun e => e.1.band = band).mergeSort
    fun a b => a.1.bytes < b.1.bytes ∨ a.1.bytes = b.1.bytes ∧ a.2 ≤ b.2

/-- Parts up to the limits of a pass, behind some that were taken; the sum is a `u64`. -/
def pick : ℕ → ℕ → List Entry → List Entry
  | _, _, [] => []
  | taken, total, entry :: rest =>
    if taken = policy.maxParts ∨
        taken ≠ 0 ∧ policy.maxInputBytes < (total + entry.1.bytes) % 2 ^ 64 then []
    else entry :: pick (taken + 1) ((total + entry.1.bytes) % 2 ^ 64) rest

/-- What a pass over a band rewrites, if it is worth it. -/
def selectBand (nowNs : ℤ) (band : Band) : Option (List Entry) :=
  let parts := partsOf policy candidates band
  if parts.length < policy.minParts ∧
      ¬ (isIdle candidates nowNs band.1 = true ∧ 2 ≤ parts.length) then none
  else
    let selected := pick policy 0 0 parts
    if 2 ≤ selected.length then some selected else none

/-- What a pass rewrites: of the first band that is worth it. -/
def selectEntries (nowNs : ℤ) : Option (List Entry) :=
  (bands policy candidates).findSome? (selectBand policy candidates nowNs)

/-- `select_tier`: the indices of what a pass rewrites. -/
def selectTier (nowNs : ℤ) : Option (List ℕ) :=
  (selectEntries policy candidates nowNs).map fun entries => entries.map Prod.snd

end

/-- Limits whose sums are `u64`. -/
structure TierPolicy.Fits (policy : TierPolicy) : Prop where
  part : policy.maxPartBytes ≤ 2 ^ 63
  input : policy.maxInputBytes ≤ 2 ^ 63

variable {policy : TierPolicy} {candidates : List TierCandidate}

theorem pick_isPrefix (taken total : ℕ) (parts : List Entry) :
    pick policy taken total parts <+: parts := by
  induction parts generalizing taken total with
  | nil => exact List.prefix_refl _
  | cons entry rest ih =>
    rw [pick]
    split_ifs
    · exact List.nil_prefix
    · exact List.prefix_cons_iff.2 (.inr ⟨_, rfl, ih _ _⟩)

theorem length_pick_le {taken : ℕ} (h : taken ≤ policy.maxParts) (total : ℕ) (parts : List Entry) :
    taken + (pick policy taken total parts).length ≤ policy.maxParts := by
  induction parts generalizing taken total with
  | nil => exact h
  | cons entry rest ih =>
    rw [pick]
    split_ifs with hfull
    · exact h
    · have hroom : taken ≠ policy.maxParts := fun heq => hfull (.inl heq)
      have := ih (by omega : taken + 1 ≤ policy.maxParts) ((total + entry.1.bytes) % 2 ^ 64)
      rw [List.length_cons]
      omega

/-- Only a first part can be over the limit. -/
theorem bytesOf_pick_le (hfits : policy.Fits) {taken total : ℕ} (htotal : total ≤ 2 ^ 63)
    {parts : List Entry} (hparts : ∀ e ∈ parts, e.1.bytes < policy.maxPartBytes)
    (htaken : taken ≠ 0) (hne : pick policy taken total parts ≠ []) :
    total + bytesOf (pick policy taken total parts) ≤ policy.maxInputBytes := by
  induction parts generalizing taken total with
  | nil => exact absurd rfl hne
  | cons entry rest ih =>
    have hentry := hparts entry List.mem_cons_self
    have hpart := hfits.part
    have hmod : (total + entry.1.bytes) % 2 ^ 64 = total + entry.1.bytes :=
      Nat.mod_eq_of_lt (by omega)
    rw [pick, hmod] at hne ⊢
    split_ifs at hne ⊢ with hfull
    · exact absurd rfl hne
    have hle : total + entry.1.bytes ≤ policy.maxInputBytes := by
      by_contra hgt
      exact hfull (.inr ⟨htaken, not_le.1 hgt⟩)
    rw [bytesOf, List.map_cons, List.sum_cons]
    by_cases hrest : pick policy (taken + 1) (total + entry.1.bytes) rest = []
    · rw [hrest, List.map_nil, List.sum_nil]
      omega
    · have hinput := hfits.input
      have := ih (by omega) (fun e he => hparts e (List.mem_cons_of_mem _ he)) (by omega) hrest
      rw [bytesOf] at this
      omega

/-- What fits the limits is taken. -/
theorem le_length_pick (hfits : policy.Fits) {k taken total : ℕ} {parts : List Entry}
    (hk : k ≤ parts.length) (hcount : taken + k ≤ policy.maxParts)
    (hbytes : total + bytesOf (parts.take k) ≤ policy.maxInputBytes) :
    k ≤ (pick policy taken total parts).length := by
  induction parts generalizing k taken total with
  | nil => exact hk
  | cons entry rest ih =>
    cases k with
    | zero => exact Nat.zero_le _
    | succ k =>
      rw [List.take_succ_cons, bytesOf, List.map_cons, List.sum_cons] at hbytes
      have hinput := hfits.input
      have hmod : (total + entry.1.bytes) % 2 ^ 64 = total + entry.1.bytes :=
        Nat.mod_eq_of_lt (by omega)
      have hroom : ¬ (taken = policy.maxParts ∨
          taken ≠ 0 ∧ policy.maxInputBytes < total + entry.1.bytes) := by omega
      rw [pick, hmod, if_neg hroom, List.length_cons]
      refine Nat.succ_le_succ (ih (by simpa using hk) (by omega) ?_)
      rw [bytesOf]
      omega

theorem mem_eligible {e : Entry} : e ∈ eligible policy candidates ↔
    candidates[e.2]? = some e.1 ∧ e.1.bytes < policy.maxPartBytes := by
  rw [eligible, List.mem_filter, List.mem_zipIdx_iff_getElem?, decide_eq_true_eq]

theorem mem_partsOf {band : Band} {e : Entry} : e ∈ partsOf policy candidates band ↔
    candidates[e.2]? = some e.1 ∧ e.1.bytes < policy.maxPartBytes ∧ e.1.band = band := by
  rw [partsOf, List.mem_mergeSort, List.mem_filter, mem_eligible, decide_eq_true_eq, and_assoc]

theorem nodup_partsOf (band : Band) : ((partsOf policy candidates band).map Prod.snd).Nodup := by
  have hindex : (candidates.zipIdx.map Prod.snd).Nodup := by
    rw [List.zipIdx_map_snd]
    exact List.nodup_range'
  have hsub : ((eligible policy candidates).filter fun e => e.1.band = band).Sublist
      candidates.zipIdx := List.filter_sublist.trans List.filter_sublist
  exact (((List.mergeSort_perm _ _).map Prod.snd).nodup_iff).2 (hindex.sublist (hsub.map _))

/-- **What is selected** is a front of a band, of two parts or more. -/
theorem selectEntries_spec {nowNs : ℤ} {entries : List Entry}
    (h : selectEntries policy candidates nowNs = some entries) :
    ∃ band, entries = pick policy 0 0 (partsOf policy candidates band) ∧ 2 ≤ entries.length ∧
      (policy.minParts ≤ (partsOf policy candidates band).length ∨
        isIdle candidates nowNs band.1 = true) := by
  obtain ⟨band, -, hband⟩ := List.exists_of_findSome?_eq_some h
  rw [selectBand] at hband
  dsimp only at hband
  split_ifs at hband with hworth hlength
  obtain rfl := Option.some.inj hband
  refine ⟨band, rfl, hlength, ?_⟩
  by_contra hnot
  rw [not_or, not_le] at hnot
  exact hworth ⟨hnot.1, fun hidle => hnot.2 hidle.1⟩

/-- Some candidates of one partition and one tier, within the limits of a pass. -/
structure Selection (policy : TierPolicy) (candidates : List TierCandidate)
    (selected : List ℕ) : Prop where
  nodup : selected.Nodup
  band : ∃ band, ∀ index ∈ selected, ∃ candidate, candidates[index]? = some candidate ∧
    candidate.band = band ∧ candidate.bytes < policy.maxPartBytes
  count : selected.length ≤ policy.maxParts
  bytes : ((selected.filterMap (candidates[·]?)).map (·.bytes)).sum ≤ policy.maxInputBytes

theorem filterMap_entries {entries : List Entry}
    (h : ∀ e ∈ entries, candidates[e.2]? = some e.1) :
    (entries.map Prod.snd).filterMap (candidates[·]?) = entries.map Prod.fst := by
  induction entries with
  | nil => rfl
  | cons e entries ih =>
    rw [List.map_cons, List.filterMap_cons, h e List.mem_cons_self, List.map_cons,
      ih fun other hother => h other (List.mem_cons_of_mem _ hother)]

theorem bytesOf_selected_le (hfits : policy.Fits) {band : Band}
    (hlength : 2 ≤ (pick policy 0 0 (partsOf policy candidates band)).length) :
    bytesOf (pick policy 0 0 (partsOf policy candidates band)) ≤ policy.maxInputBytes := by
  have hbelow : ∀ e ∈ partsOf policy candidates band, e.1.bytes < policy.maxPartBytes :=
    fun e he => (mem_partsOf.1 he).2.1
  cases hparts : partsOf policy candidates band with
  | nil =>
    rw [hparts, pick, List.length_nil] at hlength
    omega
  | cons entry rest =>
    rw [hparts] at hlength hbelow
    have hpart := hfits.part
    have hentry := hbelow entry List.mem_cons_self
    have hmod : (0 + entry.1.bytes) % 2 ^ 64 = entry.1.bytes := by
      rw [Nat.zero_add]
      exact Nat.mod_eq_of_lt (by omega)
    rw [pick, hmod] at hlength ⊢
    split_ifs at hlength ⊢ with hfull
    · rw [List.length_nil] at hlength
      omega
    · have hrest : pick policy (0 + 1) entry.1.bytes rest ≠ [] := by
        intro hnil
        rw [hnil, List.length_singleton] at hlength
        omega
      have := bytesOf_pick_le hfits (by omega)
        (fun e he => hbelow e (List.mem_cons_of_mem _ he)) (by decide) hrest
      rwa [bytesOf, List.map_cons, List.sum_cons]

/-- **Every selection is within its limits.** -/
theorem selection_of_selectTier (hfits : policy.Fits) {nowNs : ℤ} {selected : List ℕ}
    (h : selectTier policy candidates nowNs = some selected) :
    Selection policy candidates selected := by
  obtain ⟨entries, hentries, rfl⟩ := Option.map_eq_some_iff.1 h
  obtain ⟨band, rfl, hlength, -⟩ := selectEntries_spec hentries
  have hpick : pick policy 0 0 (partsOf policy candidates band) <+: partsOf policy candidates band :=
    pick_isPrefix 0 0 _
  have hmem : ∀ e ∈ pick policy 0 0 (partsOf policy candidates band),
      candidates[e.2]? = some e.1 ∧ e.1.bytes < policy.maxPartBytes ∧ e.1.band = band :=
    fun e he => mem_partsOf.1 (hpick.subset he)
  refine ⟨(nodup_partsOf band).sublist (hpick.sublist.map _), ⟨band, ?_⟩, ?_, ?_⟩
  · intro index hindex
    obtain ⟨e, he, rfl⟩ := List.mem_map.1 hindex
    exact ⟨e.1, (hmem e he).1, (hmem e he).2.2, (hmem e he).2.1⟩
  · have hcount := length_pick_le (Nat.zero_le policy.maxParts) 0 (partsOf policy candidates band)
    rw [List.length_map]
    omega
  · rw [filterMap_entries fun e he => (hmem e he).1, List.map_map]
    exact bytesOf_selected_le hfits hlength

/-! ### Passes -/

/-- Bytes of one flush, and how often they were rewritten. -/
structure Piece where
  bytes : ℕ
  rewrites : ℕ
deriving DecidableEq

/-- A part, with what it is made of. -/
structure StoredPart where
  partition : String
  maxTsNs : ℤ
  pieces : List Piece
deriving DecidableEq

namespace StoredPart

def bytes (part : StoredPart) : ℕ := (part.pieces.map (·.bytes)).sum

def candidate (part : StoredPart) : TierCandidate := ⟨part.partition, part.bytes, part.maxTsNs⟩

end StoredPart

/-- What a pass reads, and what it leaves alone. -/
structure Pass where
  inputs : List StoredPart
  others : List StoredPart
deriving DecidableEq

namespace Pass

/-- What a pass writes: as many bytes as it reads. -/
def output (pass : Pass) : StoredPart where
  partition := (pass.inputs.head?.map (·.partition)).getD ""
  maxTsNs := (pass.inputs.map (·.maxTsNs)).foldl max (-2 ^ 63)
  pieces := pass.inputs.flatMap fun part =>
    part.pieces.map fun piece => { piece with rewrites := piece.rewrites + 1 }

/-- The band that a pass is over. -/
def band (pass : Pass) : Band := (pass.inputs.head?.map fun part => part.candidate.band).getD ("", 0)

/-- **A pass climbs**: its output is of a higher tier than its inputs. -/
def Climbs (pass : Pass) : Prop := ∀ part ∈ pass.inputs, tierOf part.bytes < tierOf pass.output.bytes

theorem bytes_output (pass : Pass) : pass.output.bytes = (pass.inputs.map (·.bytes)).sum := by
  obtain ⟨inputs, others⟩ := pass
  rw [StoredPart.bytes, output]
  dsimp only
  induction inputs with
  | nil => rfl
  | cons part inputs ih =>
    rw [List.flatMap_cons, List.map_append, List.sum_append, ih, List.map_cons, List.sum_cons,
      List.map_map]
    rfl

end Pass

/-- What a pass does with the parts there are, if there is anything to do. -/
def passOf (policy : TierPolicy) (live : List StoredPart) (nowNs : ℤ) : Option Pass :=
  (selectTier policy (live.map StoredPart.candidate) nowNs).map fun selected =>
    ⟨selected.filterMap (live[·]?),
      (live.zipIdx.filter fun e => e.2 ∉ selected).map Prod.fst⟩

/-- The parts of a band, the smallest first. -/
def smallestOf (policy : TierPolicy) (live : List StoredPart) (band : Band) : List Entry :=
  partsOf policy (live.map StoredPart.candidate) band

/-- **The smallest parts of a band fill it**: some of them reach its ceiling before they reach the
limits of a pass. -/
def Fills (policy : TierPolicy) (live : List StoredPart) (band : Band) : Prop :=
  ∃ k ≤ policy.maxParts, k ≤ (smallestOf policy live band).length ∧
    ceilingOf band.2 ≤ bytesOf ((smallestOf policy live band).take k) ∧
    bytesOf ((smallestOf policy live band).take k) ≤ policy.maxInputBytes

variable {live : List StoredPart} {nowNs : ℤ} {pass : Pass}

theorem mem_of_passOf (h : passOf policy live nowNs = some pass) {part : StoredPart}
    (hpart : part ∈ pass.inputs ∨ part ∈ pass.others) : part ∈ live := by
  obtain ⟨selected, -, rfl⟩ := Option.map_eq_some_iff.1 h
  rcases hpart with hpart | hpart
  · obtain ⟨index, -, hindex⟩ := List.mem_filterMap.1 hpart
    exact List.mem_of_getElem? hindex
  · obtain ⟨e, he, rfl⟩ := List.mem_map.1 hpart
    exact List.mem_of_getElem? (List.mem_zipIdx_iff_getElem?.1 (List.mem_of_mem_filter he))

/-- The parts of some indices are the candidates there. -/
theorem map_candidate_filterMap {entries : List Entry}
    (h : ∀ e ∈ entries, (live.map StoredPart.candidate)[e.2]? = some e.1) :
    ((entries.map Prod.snd).filterMap (live[·]?)).map StoredPart.candidate =
      entries.map Prod.fst := by
  rw [← filterMap_entries h, List.map_filterMap]
  exact List.filterMap_congr fun index _ => List.getElem?_map.symm

/-- A pass over a band: its inputs are what was picked of the smallest parts. -/
structure Pass.Over (policy : TierPolicy) (live : List StoredPart) (pass : Pass) (band : Band) :
    Prop where
  inputs : pass.inputs.map StoredPart.candidate =
    (pick policy 0 0 (smallestOf policy live band)).map Prod.fst
  two : 2 ≤ pass.inputs.length
  same : ∀ part ∈ pass.inputs, part.candidate.band = band

theorem Pass.Over.band_eq {band : Band} (h : pass.Over policy live band) : pass.band = band := by
  have htwo := h.two
  rw [Pass.band]
  cases hinputs : pass.inputs with
  | nil =>
    rw [hinputs, List.length_nil] at htwo
    omega
  | cons part rest => exact h.same part (by rw [hinputs]; exact List.mem_cons_self)

/-- **What a pass is over**: a band that is full, or of an idle partition. -/
theorem passOf_spec (h : passOf policy live nowNs = some pass) :
    pass.Over policy live pass.band ∧
      (policy.minParts ≤ (smallestOf policy live pass.band).length ∨
        isIdle (live.map StoredPart.candidate) nowNs pass.band.1 = true) := by
  obtain ⟨selected, hselected, rfl⟩ := Option.map_eq_some_iff.1 h
  obtain ⟨entries, hentries, rfl⟩ := Option.map_eq_some_iff.1 hselected
  obtain ⟨band, rfl, hlength, hworth⟩ := selectEntries_spec hentries
  have hmem : ∀ e ∈ pick policy 0 0 (smallestOf policy live band),
      (live.map StoredPart.candidate)[e.2]? = some e.1 ∧ e.1.bytes < policy.maxPartBytes ∧
        e.1.band = band :=
    fun e he => mem_partsOf.1 ((pick_isPrefix 0 0 _).subset he)
  have hinputs := map_candidate_filterMap fun e he => (hmem e he).1
  have hover : Pass.Over policy live ⟨((pick policy 0 0 (smallestOf policy live band)).map
      Prod.snd).filterMap (live[·]?), (live.zipIdx.filter fun e => e.2 ∉
        (pick policy 0 0 (smallestOf policy live band)).map Prod.snd).map Prod.fst⟩ band := by
    refine ⟨hinputs, ?_, fun part hpart => ?_⟩
    · have hcount := congrArg List.length hinputs
      rw [List.length_map, List.length_map] at hcount
      dsimp only
      rw [hcount]
      exact hlength
    · have hcandidate := List.mem_map_of_mem (f := StoredPart.candidate) hpart
      rw [hinputs] at hcandidate
      obtain ⟨e, he, heq⟩ := List.mem_map.1 hcandidate
      rw [← heq]
      exact (hmem e he).2.2
  have hband := hover.band_eq
  refine ⟨hband.symm ▸ hover, ?_⟩
  have hworth' : policy.minParts ≤ (smallestOf policy live band).length ∨
    isIdle (live.map StoredPart.candidate) nowNs band.1 = true := hworth
  rw [← hband] at hworth'
  exact hworth'

theorem bytes_output_of_over {band : Band} (h : pass.Over policy live band) :
    pass.output.bytes = bytesOf (pick policy 0 0 (smallestOf policy live band)) := by
  have hbytes := congrArg (List.map TierCandidate.bytes) h.inputs
  rw [List.map_map, List.map_map] at hbytes
  rw [Pass.bytes_output, bytesOf]
  exact congrArg List.sum hbytes

theorem bytesOf_take_le (entries : List Entry) {k l : ℕ} (h : k ≤ l) :
    bytesOf (entries.take k) ≤ bytesOf (entries.take l) := by
  rw [← List.take_append_drop k (entries.take l), List.take_take, Nat.min_eq_left h, bytesOf,
    bytesOf, List.map_append, List.sum_append]
  exact Nat.le_add_right _ _

theorem band_lt (hpart : policy.maxPartBytes ≤ ceilingOf 17) {band : Band}
    (h : pass.Over policy live band) : band.2 < 18 := by
  have htwo := h.two
  obtain ⟨part, hmem⟩ := List.exists_mem_of_length_pos (by omega : 0 < pass.inputs.length)
  have hcandidate := List.mem_map_of_mem (f := StoredPart.candidate) hmem
  rw [h.inputs] at hcandidate
  obtain ⟨e, he, heq⟩ := List.mem_map.1 hcandidate
  obtain ⟨-, hbytes, hband⟩ := mem_partsOf.1 ((pick_isPrefix 0 0 _).subset he)
  rw [← hband]
  by_contra hnot
  have habove := lt_tierOf.1 (lt_of_lt_of_le (by decide : 17 < 18) (not_lt.1 hnot))
  omega

/-- **A pass climbs if and only if its band is filled.** -/
theorem climbs_iff_fills (hfits : policy.Fits) (hpart : policy.maxPartBytes ≤ ceilingOf 17)
    (h : passOf policy live nowNs = some pass) : pass.Climbs ↔ Fills policy live pass.band := by
  obtain ⟨hover, -⟩ := passOf_spec h
  have hbytes := bytes_output_of_over hover
  have hlt := band_lt hpart hover
  have htwo := hover.two
  have hlength : (pick policy 0 0 (smallestOf policy live pass.band)).length =
      pass.inputs.length := by
    have hcount := congrArg List.length hover.inputs
    rw [List.length_map, List.length_map] at hcount
    exact hcount.symm
  have htake := List.prefix_iff_eq_take.1
    (@pick_isPrefix policy 0 0 (smallestOf policy live pass.band))
  have hclimbs : pass.Climbs ↔ ceilingOf pass.band.2 ≤ pass.output.bytes := by
    have htier : ∀ part ∈ pass.inputs, tierOf part.bytes = pass.band.2 :=
      fun part hmem => congrArg Prod.snd (hover.same part hmem)
    constructor
    · intro hclimbs
      obtain ⟨part, hmem⟩ := List.exists_mem_of_length_pos (by omega : 0 < pass.inputs.length)
      have habove := hclimbs part hmem
      rw [htier part hmem] at habove
      exact (lt_tierOf.1 habove).2
    · intro hceiling part hmem
      rw [htier part hmem]
      exact lt_tierOf.2 ⟨hlt, hceiling⟩
  rw [hclimbs, hbytes]
  constructor
  · intro hceiling
    refine ⟨(pick policy 0 0 (smallestOf policy live pass.band)).length, ?_,
      (pick_isPrefix 0 0 _).length_le, ?_, ?_⟩
    · have := length_pick_le (Nat.zero_le policy.maxParts) 0 (smallestOf policy live pass.band)
      omega
    · rw [← htake]
      exact hceiling
    · rw [← htake]
      exact bytesOf_selected_le hfits (by rw [← smallestOf, hlength]; exact htwo)
  · rintro ⟨k, hk, hklen, hceiling, hinput⟩
    have hpicked := le_length_pick hfits hklen (by omega : 0 + k ≤ policy.maxParts)
      (by omega : 0 + bytesOf ((smallestOf policy live pass.band).take k) ≤ policy.maxInputBytes)
    have hmono := bytesOf_take_le (smallestOf policy live pass.band) hpicked
    rw [← htake] at hmono
    exact hceiling.trans hmono

/-! ### Bands that are filled -/

/-! ### Histories -/

/-- What becomes of the parts of the partitions; they are listed in any order. -/
inductive TierEvent where
  | flush (partition : String) (maxTsNs : ℤ) (bytes : ℕ)
  | list (parts : List StoredPart)
  | pass (nowNs : ℤ)

/-- The parts after an event, if it can be. -/
def tierStep (policy : TierPolicy) (live : List StoredPart) : TierEvent → Option (List StoredPart)
  | .flush partition maxTsNs bytes => some (live ++ [⟨partition, maxTsNs, [⟨bytes, 0⟩]⟩])
  | .list parts => if parts.Perm live then some parts else none
  | .pass nowNs => some ((passOf policy live nowNs).elim live fun pass => pass.others ++ [pass.output])

/-- Flushes are not smaller than a tier, and passes are over partitions that are not idle. -/
def Busy (policy : TierPolicy) (live : List StoredPart) : TierEvent → Prop
  | .flush _ _ bytes => tierZeroMaxBytes ≤ bytes
  | .list _ => True
  | .pass nowNs => ∀ pass, passOf policy live nowNs = some pass →
    isIdle (live.map StoredPart.candidate) nowNs pass.band.1 = false

def Filled (policy : TierPolicy) (live : List StoredPart) : TierEvent → Prop
  | .pass nowNs => ∀ pass, passOf policy live nowNs = some pass → Fills policy live pass.band
  | _ => True

def AllClimb (policy : TierPolicy) (live : List StoredPart) : TierEvent → Prop
  | .pass nowNs => ∀ pass, passOf policy live nowNs = some pass → pass.Climbs
  | _ => True

/-- No byte was rewritten as often as its part has tiers below it. -/
def Amortized (live : List StoredPart) : Prop :=
  ∀ part ∈ live, ∀ piece ∈ part.pieces, piece.rewrites < tierOf part.bytes

/-- A step of passes that climb rewrites no byte too often. -/
theorem amortized_step {live' : List StoredPart} {event : TierEvent} (h : Amortized live)
    (hbusy : Busy policy live event) (hclimb : AllClimb policy live event)
    (hstep : tierStep policy live event = some live') : Amortized live' := by
  cases event with
  | flush partition maxTsNs bytes =>
    obtain rfl := Option.some.inj hstep
    intro part hpart
    rcases List.mem_append.1 hpart with hpart | hpart
    · exact h part hpart
    · obtain rfl := List.mem_singleton.1 hpart
      intro piece hpiece
      obtain rfl := List.mem_singleton.1 hpiece
      exact lt_tierOf.2 ⟨Nat.succ_pos 17, hbusy⟩
  | list parts =>
    rw [tierStep] at hstep
    split_ifs at hstep with hperm
    obtain rfl := Option.some.inj hstep
    exact fun part hpart => h part (hperm.mem_iff.1 hpart)
  | pass nowNs =>
    obtain rfl := Option.some.inj hstep
    cases hpass : passOf policy live nowNs with
    | none => exact h
    | some pass =>
      intro part hpart
      rcases List.mem_append.1 hpart with hpart | hpart
      · exact h part (mem_of_passOf hpass (.inr hpart))
      · obtain rfl := List.mem_singleton.1 hpart
        intro piece hpiece
        obtain ⟨input, hinput, hpiece⟩ := List.mem_flatMap.1 hpiece
        obtain ⟨before, hbefore, rfl⟩ := List.mem_map.1 hpiece
        have hold := h input (mem_of_passOf hpass (.inl hinput)) before hbefore
        have hhigher := hclimb pass hpass input hinput
        exact lt_of_le_of_lt (Nat.succ_le_of_lt hold) hhigher

theorem fits_of_policy (hpolicy : policy = tracePolicy ∨ policy = metricPolicy) :
    policy.Fits ∧ policy.maxPartBytes ≤ ceilingOf 17 := by
  rcases hpolicy with rfl | rfl <;> exact ⟨⟨by decide, by decide⟩, by decide⟩

/-- **Compaction amortizes** in every run whose passes are over bands that are filled: each writes a
part of a higher tier, and no byte is rewritten more often than there are tiers.  A pass over a band
that is not filled does not. -/
theorem compaction_amortizes (policy : TierPolicy) :
    (∀ (candidates : List TierCandidate) (nowNs : ℤ) (selected : List ℕ),
      policy.Fits → selectTier policy candidates nowNs = some selected →
        Selection policy candidates selected) ∧
    (policy = tracePolicy ∨ policy = metricPolicy →
      (∀ (live : List StoredPart) (nowNs : ℤ) (pass : Pass), passOf policy live nowNs = some pass →
        (pass.Climbs ↔ Fills policy live pass.band)) ∧
      ∀ (events : List TierEvent) (live : List StoredPart),
        Runs.Each (tierStep policy) (fun live e => Busy policy live e ∧ Filled policy live e) []
          events → events.foldlM (tierStep policy) [] = some live →
        Runs.Each (tierStep policy) (AllClimb policy) [] events ∧
          ∀ part ∈ live, ∀ piece ∈ part.pieces,
            piece.rewrites < tierOf part.bytes ∧ tierOf part.bytes ≤ 18) := by
  refine ⟨fun _ _ _ hfits h => selection_of_selectTier hfits h, fun hpolicy => ?_⟩
  obtain ⟨hfits, hpart⟩ := fits_of_policy hpolicy
  refine ⟨fun _ _ _ h => climbs_iff_fills hfits hpart h, fun events live heach hrun => ?_⟩
  have hclimb : ∀ live event, Filled policy live event → AllClimb policy live event := by
    intro live event hfilled
    cases event with
    | pass nowNs =>
      exact fun pass hpass => (climbs_iff_fills hfits hpart hpass).2 (hfilled pass hpass)
    | _ => trivial
  have hrun := Runs.Each.foldlM (I := Amortized) (fun live event live' hlive hmeets hstep =>
    amortized_step hlive hmeets.1 (hclimb live event hmeets.2) hstep)
    (fun _ hpart => absurd hpart List.not_mem_nil) heach hrun
  refine ⟨heach.mono fun live event hmeets => hclimb live event hmeets.2, ?_⟩
  exact fun part hmem piece hpiece => ⟨hrun part hmem piece hpiece, tierOf_le _⟩

/-- A part of the traces as a flush of 5 MiB wrote it. -/
def flushed : StoredPart := ⟨"2026-09-15", 0, [⟨5 * 1024 * 1024, 0⟩]⟩

theorem passOf_full : passOf tracePolicy (List.replicate 8 flushed) 0 =
    some ⟨List.replicate 3 flushed, List.replicate 5 flushed⟩ := by
  have hparts : partsOf tracePolicy ((List.replicate 8 flushed).map StoredPart.candidate)
      ("2026-09-15", 4) = ((List.replicate 8 flushed).map StoredPart.candidate).zipIdx := by
    rw [partsOf, List.mergeSort_of_pairwise (by decide +kernel)]
    decide +kernel
  have hbands : bands tracePolicy ((List.replicate 8 flushed).map StoredPart.candidate) =
      [("2026-09-15", 4)] := by
    have hdedup : ((eligible tracePolicy ((List.replicate 8 flushed).map
        StoredPart.candidate)).map fun e => e.1.band).dedup = [("2026-09-15", 4)] := by
      decide +kernel
    rw [bands, hdedup, List.mergeSort_singleton]
  have hselect : selectTier tracePolicy ((List.replicate 8 flushed).map StoredPart.candidate) 0 =
      some [0, 1, 2] := by
    rw [selectTier, selectEntries, hbands, List.findSome?_singleton, selectBand, hparts]
    decide +kernel
  rw [passOf, hselect]
  decide +kernel

/-- A pass that does not climb, and a flush. -/
theorem compaction_amortizes_flush :
    (¬ Fills tracePolicy (List.replicate 8 flushed) ("2026-09-15", 4)) ∧
      ∀ piece ∈ flushed.pieces, piece.rewrites < tierOf flushed.bytes := by
  obtain ⟨hclimbs, hrun⟩ := (compaction_amortizes tracePolicy).2 (.inl rfl)
  refine ⟨fun hfills => ?_, fun piece hpiece => ?_⟩
  · have hclimb := (hclimbs _ _ _ passOf_full).2 hfills flushed (by decide +kernel)
    exact absurd hclimb (by decide +kernel)
  · obtain ⟨-, hpieces⟩ := hrun [.flush "2026-09-15" 0 (5 * 1024 * 1024)] [flushed]
      ⟨⟨(by decide : tierZeroMaxBytes ≤ 5 * 1024 * 1024), trivial⟩, fun _ _ => trivial⟩ rfl
    exact (hpieces flushed List.mem_cons_self piece hpiece).1

/-- **A full tier stays where it is**: of eight parts of 5 MiB a pass may read three, and they make
a part of their own tier. -/
theorem pass_stays : ∃ live pass,
    (List.replicate 8 (TierEvent.flush "2026-09-15" 0 (5 * 1024 * 1024))).foldlM
      (tierStep tracePolicy) [] = some live ∧ passOf tracePolicy live 0 = some pass ∧
    Busy tracePolicy live (.pass 0) ∧ ¬ pass.Climbs := by
  refine ⟨List.replicate 8 flushed, _, by decide +kernel, passOf_full, ?_, fun hclimbs => ?_⟩
  · intro pass hpass
    obtain rfl := Option.some.inj (passOf_full.symm.trans hpass)
    decide +kernel
  · exact absurd (hclimbs flushed (by decide +kernel)) (by decide +kernel)

end Compaction

end Obsy
