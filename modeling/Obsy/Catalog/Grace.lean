import Obsy.Catalog.Sweep

/-!
# The grace period

What a pass deletes was seen outside the active set by an earlier pass, longer ago than the grace
period.  What that is worth depends on the others: if an object is named soon after it comes or
never, and never again once it is no longer named, then nothing is deleted that a manifest names.
And what stays out of the active set is not forgotten: its first sighting is kept until it is
deleted.

* `deleted_was_seen`: two sightings, in every run.
* `Punctual`: the others keep within the grace period.
* `named_objects_stay`: then every object that a manifest names is there.
* `first_sighting_stays`: an orphan's first sighting is never lost.
-/

namespace Obsy

namespace Catalog

open Machine Machine.Program

open Std (ExtTreeMap)

variable {root : String} {lag : ℕ}

/-! ### The ledger -/

section Ledger

variable {ledger : OrphanLedger} {pass : OrphanPass} {seen : ObjectMeta} {key : String}
  {entry : OrphanLedgerEntry}

theorem OrphanLedger.mem_deletable :
    key ∈ ledger.deletable pass ↔ ∃ entry, ledger.orphans[key]? = some entry ∧
      entry.firstSeen < pass.now - pass.gracePeriod ∧ key ∉ pass.active := by
  simp only [deletable, List.mem_map, List.mem_filter, Prod.exists,
    ExtTreeMap.mem_toList_iff_getElem?_eq_some, Bool.and_eq_true, decide_eq_true_eq]
  constructor
  · rintro ⟨_, entry, ⟨hentry, hold, hactive⟩, rfl⟩
    exact ⟨entry, hentry, hold, hactive⟩
  · rintro ⟨entry, hentry, hold, hactive⟩
    exact ⟨key, entry, ⟨hentry, hold, hactive⟩, rfl⟩

theorem OrphanLedger.see_orphans : (ledger.see pass seen).orphans[key]? =
    if seen.location = key then
      if key ∈ pass.active then none else some (ledger.sighted pass seen)
    else ledger.orphans[key]? := by
  unfold see
  split_ifs with hactive hkey hkey' hkey' <;>
    simp_all [ExtTreeMap.getElem?_erase, ExtTreeMap.getElem?_insert]

theorem OrphanLedger.forget_orphans {other : String} : (ledger.forget other).orphans[key]? =
    if other = key then none else ledger.orphans[key]? := by
  simp [forget, ExtTreeMap.getElem?_erase]

theorem OrphanLedger.closeCycle_orphans : (ledger.closeCycle).orphans[key]? =
    (ledger.orphans[key]?).filter fun entry => entry.lastSeenCycle = ledger.scan.cycle := by
  simp [closeCycle]

/-- What is in the ledger after a sighting was there or is the sighting. -/
theorem OrphanLedger.see_entry (h : (ledger.see pass seen).orphans[key]? = some entry) :
    (∃ old, ledger.orphans[key]? = some old ∧ old.firstSeen = entry.firstSeen) ∨
      (seen.location = key ∧ key ∉ pass.active ∧ entry.firstSeen = pass.now) := by
  rw [see_orphans] at h
  split_ifs at h with hkey hactive
  · subst hkey
    cases h
    unfold sighted
    cases hold : ledger.orphans[seen.location]? with
    | some old => exact .inl ⟨old, rfl, rfl⟩
    | none => exact .inr ⟨rfl, hactive, rfl⟩
  · exact .inl ⟨entry, h, rfl⟩

end Ledger

/-! ### A sample -/

/-- A store with nothing in it. -/
def Bucket.empty : Bucket :=
  ⟨∅, none, fun _ => [], [], 0, fun _ => none, fun _ _ => none, [], []⟩

/-- A job that runs alone, for so many moves. -/
def alone (job : GcJob) (moves : ℕ) : List (Turn GcJob GcFate) :=
  .start job :: List.replicate moves (.move 0 .fine)

/-- The options of a pass with a grace period of ten. -/
def sampleOptions : OrphanCollectionOptions := ⟨10, 100, 50, 50, 1000, false⟩

/-- An object of a part that is never named. -/
def lostObject : String := "parts/d/lost/meta.json"

/-- The objects of a part come and are named, and one more comes; a pass runs before the grace
period is over and one after it. -/
def sampleSweep : List (Turn GcJob GcFate) :=
  ([lostObject, "parts/d/live/data.parquet", "parts/d/live/index.bin",
    "parts/d/live/meta.json"].flatMap fun key => alone (.put ⟨key, 3⟩) 2) ++
    alone (.commit .logs [⟨"live", "d"⟩]) 2 ++ alone (.collect sampleOptions) 19 ++
    alone (.wait 20) 2 ++ alone (.collect sampleOptions) 21

/-- The objects that passes have deleted. -/
def GcCrew.deleted (c : GcCrew) : List String := c.shared.removals.map (·.key)

/-! ### Two sightings -/

/-- A pass that began at a time has listed an object outside its active set. -/
def Bucket.Sighted (s : Bucket) (key : String) (time : ℤ) : Prop :=
  ∃ x ∈ s.sightings, x.key = key ∧ key ∉ x.pass.active ∧ x.pass.now = time

/-- The ledger says only what passes have seen. -/
def Bucket.Genuine (s : Bucket) (ledger : OrphanLedger) : Prop :=
  ∀ key entry, ledger.orphans[key]? = some entry → s.Sighted key entry.firstSeen

/-- A pass may delete an object: it is not in the active set, and was seen outside it before. -/
def Bucket.Due (s : Bucket) (pass : OrphanPass) (key : String) : Prop :=
  key ∉ pass.active ∧ ∃ time, s.Sighted key time ∧ time + pass.gracePeriod < pass.now

section Genuine

variable {s t : Bucket} {ledger : OrphanLedger} {pass : OrphanPass} {key : String}

theorem Bucket.Sighted.later {time : ℤ} (h : s.Sighted key time)
    (hst : ∀ x ∈ s.sightings, x ∈ t.sightings) : t.Sighted key time := by
  obtain ⟨x, hx, hkey⟩ := h
  exact ⟨x, hst x hx, hkey⟩

theorem Bucket.Genuine.later (h : s.Genuine ledger) (hst : ∀ x ∈ s.sightings, x ∈ t.sightings) :
    t.Genuine ledger := fun key entry hentry => (h key entry hentry).later hst

theorem Bucket.Due.later (h : s.Due pass key) (hst : ∀ x ∈ s.sightings, x ∈ t.sightings) :
    t.Due pass key := by
  obtain ⟨hactive, time, hseen, hgrace⟩ := h
  exact ⟨hactive, time, hseen.later hst, hgrace⟩

theorem Bucket.Genuine.see {seen : ObjectMeta} (h : s.Genuine ledger)
    (hseen : ∃ x ∈ s.sightings, x.pass = pass ∧ x.key = seen.location) :
    s.Genuine (ledger.see pass seen) := by
  intro key entry hentry
  rcases OrphanLedger.see_entry hentry with ⟨old, hold, hfirst⟩ | ⟨hkey, hactive, hfirst⟩
  · rw [← hfirst]
    exact h key old hold
  · obtain ⟨x, hx, rfl, hxkey⟩ := hseen
    exact ⟨x, hx, hxkey.trans hkey, hactive, hfirst.symm⟩

theorem Bucket.Genuine.forget (h : s.Genuine ledger) : s.Genuine (ledger.forget key) := by
  intro other entry hentry
  rw [OrphanLedger.forget_orphans] at hentry
  split_ifs at hentry
  exact h other entry hentry

theorem Bucket.Genuine.closeCycle (h : s.Genuine ledger) : s.Genuine ledger.closeCycle := by
  intro other entry hentry
  rw [OrphanLedger.closeCycle_orphans, Option.filter_eq_some_iff] at hentry
  exact h other entry hentry.1

theorem Bucket.Genuine.due (h : s.Genuine ledger) (hkey : key ∈ ledger.deletable pass) :
    s.Due pass key := by
  obtain ⟨entry, hentry, hold, hactive⟩ := OrphanLedger.mem_deletable.1 hkey
  exact ⟨hactive, entry.firstSeen, h key entry hentry, by omega⟩

theorem Bucket.see_sightings (s : Bucket) (pass : OrphanPass) (items : List ObjectMeta) :
    ∀ x ∈ s.sightings, x ∈ (s.see pass items).sightings := fun _ hx => List.mem_append_left _ hx

theorem Bucket.mem_see {items : List ObjectMeta} :
    ∀ seen ∈ items, ∃ x ∈ (s.see pass items).sightings, x.pass = pass ∧ x.key = seen.location :=
  fun seen hseen => ⟨⟨pass, seen.location, s.clock⟩,
    List.mem_append_right _ (List.mem_map_of_mem hseen), rfl, rfl⟩

end Genuine

/-- The ledger that is stored says only what passes have seen, and what was deleted was due. -/
structure Bucket.TwiceSeen (s : Bucket) : Prop where
  ledger : ∀ ledger, decodeOrphanLedger s.ledger = .ok ledger → s.Genuine ledger
  removals : ∀ r ∈ s.removals, s.Due r.pass r.key

theorem Bucket.TwiceSeen.mono {s t : Bucket} (h : s.TwiceSeen) (hledger : t.ledger = s.ledger)
    (hremovals : t.removals = s.removals) (hst : ∀ x ∈ s.sightings, x ∈ t.sightings) :
    t.TwiceSeen where
  ledger ledger hl := (h.ledger ledger (by rwa [← hledger])).later hst
  removals r hr := (h.removals r (by rwa [← hremovals])).later hst

theorem Bucket.TwiceSeen.store {s : Bucket} {ledger : OrphanLedger} (h : s.TwiceSeen)
    (hledger : s.Genuine ledger) : { s with ledger := some (.current ledger) }.TwiceSeen where
  ledger _ hl := by
    cases hl
    exact hledger
  removals := h.removals

theorem Bucket.TwiceSeen.remove {s : Bucket} {pass : OrphanPass} {key : String} (h : s.TwiceSeen)
    (hdue : s.Due pass key) : (s.remove pass key).TwiceSeen where
  ledger := h.ledger
  removals r hr := by
    rcases List.mem_append.1 hr with hr | hr
    · exact h.removals r hr
    · cases List.mem_singleton.1 hr
      exact hdue

/-- What holds of passes whatever the others do. -/
def sighting (root : String) (lag : ℕ) : Sweep root lag where
  inv := Bucket.TwiceSeen
  later s t := s.clock ≤ t.clock ∧ ∀ x ∈ s.sightings, x ∈ t.sightings
  asks _ _ := True
  grace _ := True
  read _ _ _ _ := True
  known _ ledger s := s.Genuine ledger
  page pass items _ _ s :=
    ∀ seen ∈ items, ∃ x ∈ s.sightings, x.pass = pass ∧ x.key = seen.location
  due pass key s := s.Due pass key
  refl _ := ⟨le_rfl, fun _ hx => hx⟩
  trans h h' := ⟨h.1.trans h'.1, fun x hx => h'.2 x (h.2 x hx)⟩
  clock h := h.1
  read_later _ _ := trivial
  known_later h hst := h.later hst.2
  page_later h hst seen hseen :=
    let ⟨x, hx, hpass⟩ := h seen hseen
    ⟨x, hst.2 x hx, hpass⟩
  due_later h hst := h.later hst.2
  reads _ _ _ := trivial
  loads _ _ _ ht hl := ht.ledger _ hl
  dues _ _ _ _ hk hkey := hk.due hkey
  stores ht hk := ⟨ht.store hk, le_rfl, fun _ hx => hx⟩
  lists ht _ _ _ := ⟨ht.mono rfl rfl (Bucket.see_sightings _ _ _),
    ⟨le_rfl, Bucket.see_sightings _ _ _⟩, Bucket.mem_see⟩
  sees hk hpage := ⟨hk.see (hpage _ List.mem_cons_self),
    fun seen hseen => hpage seen (List.mem_cons_of_mem _ hseen)⟩
  ends hk _ := hk
  closes hk _ := hk.closeCycle
  removes ht hdue hk := ⟨ht.remove hdue, ⟨le_rfl, fun _ hx => hx⟩, hk.forget⟩
  misses _ _ hk _ := hk.forget
  puts ht _ := ⟨ht.mono rfl rfl fun _ hx => hx, le_rfl, fun _ hx => hx⟩
  commits ht _ := ⟨ht.mono rfl rfl fun _ hx => hx, le_rfl, fun _ hx => hx⟩
  waits ht := ⟨ht.mono rfl rfl fun _ hx => hx, by dsimp only; omega, fun _ hx => hx⟩

theorem sighting_heeds (c : GcCrew) (turn : Turn GcJob GcFate) (c' : GcCrew) :
    (sighting root lag).Heeds c turn c' := by
  cases turn with
  | start job => exact ⟨by cases job <;> trivial, fun _ _ => ⟨trivial, trivial⟩⟩
  | move i fate => exact fun _ _ _ _ => trivial
  | kill i => trivial

/-- **Two sightings.**  Whatever passes overlap, fail or are stopped, and whatever the others do:
what a pass deletes is not in its active set, and a pass that began more than the grace period
earlier has listed it outside its own. -/
theorem deleted_was_seen {s : Bucket}
    (hledger : ∀ ledger, decodeOrphanLedger s.ledger = .ok ledger → s.Genuine ledger)
    (hnew : s.removals = []) {turns : List (Turn GcJob GcFate)} {c : GcCrew}
    (hrun : (gcMachine root lag).run (Contract.Crew.idle s) turns = some c) :
    ∀ r ∈ c.shared.removals, r.key ∉ r.pass.active ∧ ∃ x ∈ c.shared.sightings, x.key = r.key ∧
      r.key ∉ x.pass.active ∧ x.pass.now + r.pass.gracePeriod < r.pass.now := by
  have hinv : s.TwiceSeen := ⟨hledger, fun r hr => (by rw [hnew] at hr; cases hr)⟩
  have hend : c.shared.TwiceSeen :=
    (sighting root lag).run hinv (within_of_forall sighting_heeds _ _) hrun
  intro r hr
  obtain ⟨hactive, time, ⟨x, hx, hkey, hout, rfl⟩, hgrace⟩ := hend.removals r hr
  exact ⟨hactive, x, hx, hkey, hout, hgrace⟩

theorem Bucket.genuine_empty (ledger : OrphanLedger)
    (h : decodeOrphanLedger Bucket.empty.ledger = .ok ledger) : Bucket.empty.Genuine ledger := by
  cases h
  intro key entry hentry
  rw [OrphanLedger.empty, ExtTreeMap.getElem?_empty] at hentry
  cases hentry

/-- The second pass deletes what the first one has seen. -/
theorem deleted_was_seen_sample :
    ∃ c, (gcMachine "" 0).run (Contract.Crew.idle Bucket.empty) sampleSweep = some c ∧
      GcCrew.deleted c = [lostObject] ∧
      ∀ r ∈ c.shared.removals, r.key ∉ r.pass.active ∧ ∃ x ∈ c.shared.sightings, x.key = r.key ∧
        r.key ∉ x.pass.active ∧ x.pass.now + r.pass.gracePeriod < r.pass.now := by
  have hdeleted : ((gcMachine "" 0).run (Contract.Crew.idle Bucket.empty) sampleSweep).map
      GcCrew.deleted = some [lostObject] := by decide +kernel
  obtain ⟨c, hrun, hc⟩ := Option.map_eq_some_iff.1 hdeleted
  exact ⟨c, hrun, hc, deleted_was_seen Bucket.genuine_empty rfl hrun⟩

/-! ### Nothing that is named is deleted -/

/-- The rules that the grace period rests on: an object is named at most so long after it came, and
a pass lists nothing so long after it began. -/
structure Punctual where
  /-- How long after it came an object may be named. -/
  naming : ℕ
  /-- How long after it began a pass may list. -/
  listing : ℕ

/-- An object is named. -/
def Bucket.Names (root : String) (s : Bucket) (signal : Signal) (key : String) : Prop :=
  key ∈ partKeys root signal (s.manifests signal)

/-- An object came so long ago that it is not named for the first time any more. -/
def Bucket.Settled (s : Bucket) (rules : Punctual) (key : String) (time : ℤ) : Prop :=
  ∃ came, s.came key = some came ∧ came + rules.naming < time

/-- An object was first named at some time, and in time. -/
def Bucket.NamedAt (s : Bucket) (rules : Punctual) (signal : Signal) (key : String) (time : ℤ) :
    Prop :=
  s.named signal key = some time ∧ ∃ came, s.came key = some came ∧ time ≤ came + rules.naming

/-- A request that keeps the rules.  A commit names an object that it did not name before only if
no commit ever has, and if the object is there and came lately. -/
def Punctual.Asks (rules : Punctual) (root : String) (s : Bucket) : GcOp → Prop
  | .list pass _ _ => s.clock ≤ pass.now + rules.listing
  | .commit signal parts => ∀ key ∈ partKeys root signal parts, ¬ s.Names root signal key →
      s.named signal key = none ∧ key ∈ s.objects ∧
        ∃ came, s.came key = some came ∧ s.clock ≤ came + rules.naming
  | _ => True

instance (rules : Punctual) (root : String) (s : Bucket) (op : GcOp) :
    Decidable (rules.Asks root s op) :=
  match op with
  | .list pass _ _ => inferInstanceAs (Decidable (s.clock ≤ pass.now + rules.listing))
  | .commit signal parts =>
    have (key : String) :
        Decidable (∃ came, s.came key = some came ∧ s.clock ≤ came + rules.naming) :=
      match h : s.came key with
      | none => isFalse fun ⟨_, hcame, _⟩ => (by cases hcame)
      | some came => decidable_of_iff (s.clock ≤ came + rules.naming)
          ⟨fun hle => ⟨came, rfl, hle⟩, fun ⟨_, hcame, hle⟩ => (by cases hcame; exact hle)⟩
    have (key : String) : Decidable (s.Names root signal key) :=
      inferInstanceAs (Decidable (key ∈ partKeys root signal (s.manifests signal)))
    inferInstanceAs (Decidable (∀ key ∈ partKeys root signal parts,
      ¬ s.Names root signal key → s.named signal key = none ∧ key ∈ s.objects ∧
        ∃ came, s.came key = some came ∧ s.clock ≤ came + rules.naming))
  | .loadManifest _ | .loadLedger | .storeLedger _ | .now | .deleteStream _ _ | .put _ | .wait _ =>
    isTrue trivial

/-- How a store changes whose users keep the rules. -/
structure Bucket.Grows (rules : Punctual) (root : String) (s t : Bucket) : Prop where
  clock : s.clock ≤ t.clock
  sightings : ∀ x ∈ s.sightings, x ∈ t.sightings
  came : ∀ key time, s.came key = some time → t.came key = some time
  named : ∀ signal key time, s.named signal key = some time → t.named signal key = some time
  fresh : ∀ signal key, t.Names root signal key →
    s.Names root signal key ∨ ∃ time, t.NamedAt rules signal key time ∧ s.clock ≤ time

section Grows

variable {rules : Punctual} {s t u : Bucket} {signal : Signal} {key : String} {time : ℤ}

theorem Bucket.NamedAt.later (h : s.NamedAt rules signal key time)
    (hst : s.Grows rules root t) : t.NamedAt rules signal key time := by
  obtain ⟨hnamed, came, hcame, hle⟩ := h
  exact ⟨hst.named _ _ _ hnamed, came, hst.came _ _ hcame, hle⟩

theorem Bucket.Settled.later (h : s.Settled rules key time) (hst : s.Grows rules root t) :
    t.Settled rules key time := by
  obtain ⟨came, hcame, hlt⟩ := h
  exact ⟨came, hst.came _ _ hcame, hlt⟩

theorem Bucket.Settled.mono {time' : ℤ} (h : s.Settled rules key time) (hle : time ≤ time') :
    s.Settled rules key time' := by
  obtain ⟨came, hcame, hlt⟩ := h
  exact ⟨came, hcame, by omega⟩

/-- A settled object is not named after that. -/
theorem Bucket.NamedAt.lt (h : s.NamedAt rules signal key time) {time' : ℤ}
    (hsettled : s.Settled rules key time') : time < time' := by
  obtain ⟨-, came, hcame, hle⟩ := h
  obtain ⟨came', hcame', hlt⟩ := hsettled
  rw [hcame] at hcame'
  cases hcame'
  omega

theorem Bucket.Grows.of_same (hclock : s.clock ≤ t.clock)
    (hsightings : ∀ x ∈ s.sightings, x ∈ t.sightings)
    (hcame : ∀ key time, s.came key = some time → t.came key = some time)
    (hnamed : t.named = s.named) (hmanifests : t.manifests = s.manifests) :
    s.Grows rules root t where
  clock := hclock
  sightings := hsightings
  came := hcame
  named _ _ _ h := by rwa [hnamed]
  fresh signal key h := by
    unfold Bucket.Names at h ⊢
    rw [hmanifests] at h
    exact .inl h

theorem Bucket.Grows.refl (s : Bucket) : s.Grows rules root s :=
  .of_same le_rfl (fun _ hx => hx) (fun _ _ h => h) rfl rfl

theorem Bucket.Grows.trans (h : s.Grows rules root t) (h' : t.Grows rules root u) :
    s.Grows rules root u where
  clock := h.clock.trans h'.clock
  sightings x hx := h'.sightings x (h.sightings x hx)
  came key time hcame := h'.came _ _ (h.came _ _ hcame)
  named signal key time hnamed := h'.named _ _ _ (h.named _ _ _ hnamed)
  fresh signal key hnames := by
    rcases h'.fresh signal key hnames with hmid | ⟨time, hat, hle⟩
    · rcases h.fresh signal key hmid with hold | ⟨time, hat, hle⟩
      · exact .inl hold
      · exact .inr ⟨time, hat.later h', hle⟩
    · exact .inr ⟨time, hat, h.clock.trans hle⟩

end Grows

/-- What a read tells of a manifest: what it does not name was named only lately. -/
def Bucket.Read (s : Bucket) (rules : Punctual) (root : String) (lag : ℕ) (now : ℤ)
    (signal : Signal) (parts : List ManifestPart) : Prop :=
  now ≤ s.clock ∧ ∀ key, s.Names root signal key → key ∉ partKeys root signal parts →
    ∃ time, s.NamedAt rules signal key time ∧ now - lag ≤ time

/-- The ledger says what passes have seen, of objects that came before they ended. -/
def Bucket.Remembers (s : Bucket) (rules : Punctual) (ledger : OrphanLedger) : Prop :=
  ∀ key entry, ledger.orphans[key]? = some entry →
    ∃ came, s.came key = some came ∧ came ≤ entry.firstSeen + rules.listing

/-- An object is named neither now nor later. -/
def Bucket.Abandoned (s : Bucket) (rules : Punctual) (root key : String) : Prop :=
  (∀ signal, ¬ s.Names root signal key) ∧ s.Settled rules key s.clock

section Abandoned

variable {rules : Punctual} {s t : Bucket} {signal : Signal} {key : String}
  {ledger : OrphanLedger} {pass : OrphanPass}

theorem Bucket.Read.later {now : ℤ} {parts : List ManifestPart}
    (h : s.Read rules root lag now signal parts) (hst : s.Grows rules root t) :
    t.Read rules root lag now signal parts := by
  refine ⟨h.1.trans hst.clock, fun key hnames hkey => ?_⟩
  rcases hst.fresh signal key hnames with hold | ⟨time, hat, hle⟩
  · obtain ⟨time, hat, hle⟩ := h.2 key hold hkey
    exact ⟨time, hat.later hst, hle⟩
  · have := h.1
    exact ⟨time, hat, by omega⟩

theorem Bucket.Remembers.later (h : s.Remembers rules ledger) (hst : s.Grows rules root t) :
    t.Remembers rules ledger := fun key entry hentry =>
  let ⟨came, hcame, hle⟩ := h key entry hentry
  ⟨came, hst.came _ _ hcame, hle⟩

theorem Bucket.Abandoned.later (h : s.Abandoned rules root key) (hst : s.Grows rules root t) :
    t.Abandoned rules root key := by
  refine ⟨fun signal hnames => ?_, (h.2.later hst).mono hst.clock⟩
  rcases hst.fresh signal key hnames with hold | ⟨time, hat, hle⟩
  · exact h.1 signal hold
  · have := hat.lt (h.2.later hst)
    omega

theorem Bucket.Remembers.see {seen : ObjectMeta} (h : s.Remembers rules ledger)
    (hseen : ∃ came, s.came seen.location = some came ∧ came ≤ pass.now + rules.listing) :
    s.Remembers rules (ledger.see pass seen) := by
  intro key entry hentry
  rcases OrphanLedger.see_entry hentry with ⟨old, hold, hfirst⟩ | ⟨rfl, -, hfirst⟩
  · rw [← hfirst]
    exact h key old hold
  · rw [hfirst]
    exact hseen

theorem Bucket.Remembers.forget (h : s.Remembers rules ledger) :
    s.Remembers rules (ledger.forget key) := by
  intro other entry hentry
  rw [OrphanLedger.forget_orphans] at hentry
  split_ifs at hentry
  exact h other entry hentry

theorem Bucket.Remembers.closeCycle (h : s.Remembers rules ledger) :
    s.Remembers rules ledger.closeCycle := by
  intro other entry hentry
  rw [OrphanLedger.closeCycle_orphans, Option.filter_eq_some_iff] at hentry
  exact h other entry hentry.1

/-- **What is deletable is abandoned**: it came so long before the pass that the manifests it read
would name it. -/
theorem abandoned_of_deletable {now : ℤ} {gracePeriod : ℕ} {logs traces metrics : List ManifestPart}
    (hgrace : rules.naming + rules.listing + lag ≤ gracePeriod)
    (hlogs : s.Read rules root lag now .logs logs)
    (htraces : s.Read rules root lag now .traces traces)
    (hmetrics : s.Read rules root lag now .metrics metrics) (hledger : s.Remembers rules ledger)
    (hkey : key ∈ ledger.deletable (.of root now gracePeriod logs traces metrics)) :
    s.Abandoned rules root key := by
  obtain ⟨entry, hentry, hold, hactive⟩ := OrphanLedger.mem_deletable.1 hkey
  obtain ⟨came, hcame, hle⟩ := hledger key entry hentry
  have hold : entry.firstSeen < now - gracePeriod := hold
  have hsettled : s.Settled rules key (now - lag) := ⟨came, hcame, by omega⟩
  have hactive : key ∉ partKeys root .logs logs ++ partKeys root .traces traces ++
      partKeys root .metrics metrics := hactive
  simp only [List.mem_append, not_or] at hactive
  have hnot : ∀ signal parts, s.Read rules root lag now signal parts →
      key ∉ partKeys root signal parts → ¬ s.Names root signal key := by
    intro signal parts hread hparts hnames
    obtain ⟨time, hat, hle⟩ := hread.2 key hnames hparts
    have := hat.lt hsettled
    omega
  refine ⟨fun signal => ?_, hsettled.mono ?_⟩
  · cases signal with
    | logs => exact hnot .logs logs hlogs hactive.1.1
    | traces => exact hnot .traces traces htraces hactive.1.2
    | metrics => exact hnot .metrics metrics hmetrics hactive.2
  · have := hlogs.1
    omega

end Abandoned

/-- Every object that is named is there, and was named in time; what the ledger and the notes say
fits that. -/
structure Bucket.Guarded (s : Bucket) (rules : Punctual) (root : String) : Prop where
  ledger : ∀ ledger, decodeOrphanLedger s.ledger = .ok ledger → s.Remembers rules ledger
  objects : ∀ key ∈ s.objects, ∃ came, s.came key = some came
  times : ∀ key came, s.came key = some came → came ≤ s.clock
  current : ∀ signal key, s.Names root signal key →
    key ∈ s.objects ∧ ∃ time, s.NamedAt rules signal key time
  replaced : ∀ old ∈ s.replaced, old.2 ≤ s.clock ∧ ∀ signal key, s.Names root signal key →
    key ∉ partKeys root signal (old.1 signal) →
      ∃ time, s.NamedAt rules signal key time ∧ old.2 ≤ time
  removals : ∀ r ∈ s.removals, s.Abandoned rules root r.key

section Guarded

variable {rules : Punctual} {s t : Bucket} {signal : Signal} {key : String}
  {ledger : OrphanLedger} {pass : OrphanPass}

theorem Bucket.Guarded.grow (h : s.Guarded rules root) (hst : s.Grows rules root t)
    (hledger : ∀ ledger, decodeOrphanLedger t.ledger = .ok ledger → t.Remembers rules ledger)
    (hobjects : ∀ key ∈ t.objects, ∃ came, t.came key = some came)
    (htimes : ∀ key came, t.came key = some came → came ≤ t.clock)
    (hpresent : ∀ signal key, t.Names root signal key → key ∈ t.objects)
    (hreplaced : ∀ old ∈ t.replaced, old ∈ s.replaced ∨ old = (s.manifests, s.clock))
    (hremovals : ∀ r ∈ t.removals, r ∈ s.removals ∨ t.Abandoned rules root r.key) :
    t.Guarded rules root where
  ledger := hledger
  objects := hobjects
  times := htimes
  current signal key hnames := by
    refine ⟨hpresent signal key hnames, ?_⟩
    rcases hst.fresh signal key hnames with hold | ⟨time, hat, -⟩
    · obtain ⟨-, time, hat⟩ := h.current signal key hold
      exact ⟨time, hat.later hst⟩
    · exact ⟨time, hat⟩
  replaced old hold := by
    rcases hreplaced old hold with hold | rfl
    · obtain ⟨hle, hother⟩ := h.replaced old hold
      refine ⟨hle.trans hst.clock, fun signal key hnames hkey => ?_⟩
      rcases hst.fresh signal key hnames with hwas | ⟨time, hat, hlate⟩
      · obtain ⟨time, hat, hlate⟩ := hother signal key hwas hkey
        exact ⟨time, hat.later hst, hlate⟩
      · exact ⟨time, hat, hle.trans hlate⟩
    · refine ⟨hst.clock, fun signal key hnames hkey => ?_⟩
      rcases hst.fresh signal key hnames with hwas | hlate
      · exact absurd hwas hkey
      · exact hlate
  removals r hr := by
    rcases hremovals r hr with hr | hr
    · exact (h.removals r hr).later hst
    · exact hr

theorem Bucket.Guarded.store (h : s.Guarded rules root) (hledger : s.Remembers rules ledger) :
    { s with ledger := some (.current ledger) }.Guarded rules root ∧
      s.Grows rules root { s with ledger := some (.current ledger) } := by
  have hst : s.Grows rules root { s with ledger := some (.current ledger) } :=
    .of_same le_rfl (fun _ hx => hx) (fun _ _ hcame => hcame) rfl rfl
  refine ⟨h.grow hst ?_ h.objects h.times (fun signal key hnames => (h.current signal key hnames).1)
    (fun _ hold => .inl hold) (fun _ hr => .inl hr), hst⟩
  intro _ hl
  cases hl
  exact hledger

theorem Bucket.Guarded.see (h : s.Guarded rules root) (items : List ObjectMeta) :
    (s.see pass items).Guarded rules root ∧ s.Grows rules root (s.see pass items) := by
  have hst : s.Grows rules root (s.see pass items) :=
    .of_same le_rfl (Bucket.see_sightings _ _ _) (fun _ _ hcame => hcame) rfl rfl
  exact ⟨h.grow hst (fun ledger hl => (h.ledger ledger hl).later hst) h.objects h.times
    (fun signal key hnames => (h.current signal key hnames).1)
    (fun _ hold => .inl hold) (fun _ hr => .inl hr), hst⟩

theorem Bucket.Guarded.remove (h : s.Guarded rules root) (hkey : s.Abandoned rules root key) :
    (s.remove pass key).Guarded rules root ∧ s.Grows rules root (s.remove pass key) := by
  have hst : s.Grows rules root (s.remove pass key) :=
    .of_same le_rfl (fun _ hx => hx) (fun _ _ hcame => hcame) rfl rfl
  refine ⟨h.grow hst (fun ledger hl => (h.ledger ledger hl).later hst) ?_ h.times ?_
    (fun _ hold => .inl hold) ?_, hst⟩
  · intro other hother
    exact h.objects other (ExtTreeMap.mem_of_mem_erase hother)
  · -- what is named is another object
    intro signal other hnames
    have hne : key ≠ other := by
      rintro rfl
      exact hkey.1 signal hnames
    have hmem := (h.current signal other hnames).1
    simp only [Bucket.remove, ExtTreeMap.mem_erase]
    exact ⟨by simpa using hne, hmem⟩
  · intro r hr
    rcases List.mem_append.1 hr with hr | hr
    · exact .inl hr
    · cases List.mem_singleton.1 hr
      exact .inr (hkey.later hst)

theorem Bucket.Guarded.put (h : s.Guarded rules root) (object : ObjectMeta) :
    (s.put object).Guarded rules root ∧ s.Grows rules root (s.put object) := by
  have hcame : ∀ key time, s.came key = some time → (s.put object).came key = some time := by
    intro key time hcame
    simp only [Bucket.put, Function.update_apply]
    split_ifs with hkey
    · subst hkey
      rw [hcame]
      rfl
    · exact hcame
  have hst : s.Grows rules root (s.put object) :=
    .of_same le_rfl (fun _ hx => hx) hcame rfl rfl
  refine ⟨h.grow hst (fun ledger hl => (h.ledger ledger hl).later hst) ?_ ?_ ?_
    (fun _ hold => .inl hold) (fun _ hr => .inl hr), hst⟩
  · intro key hkey
    by_cases hold : key ∈ s.objects
    · obtain ⟨time, htime⟩ := h.objects key hold
      exact ⟨time, hcame _ _ htime⟩
    · have hkey : object.location = key := by
        simpa [Bucket.put, ExtTreeMap.mem_insert, hold] using hkey
      subst hkey
      exact ⟨(s.came object.location).getD s.clock, by simp [Bucket.put]⟩
  · intro key came htime
    simp only [Bucket.put, Function.update_apply] at htime
    split_ifs at htime with hkey
    · -- it comes now, or has come before
      cases htime
      cases hold : s.came object.location with
      | none => exact le_rfl
      | some time => exact h.times _ time hold
    · exact h.times key came htime
  · intro signal key hnames
    exact ExtTreeMap.mem_insert.2 (.inr (h.current signal key hnames).1)

theorem Bucket.commit_named (s : Bucket) (parts : List ManifestPart) {time : ℤ} {other : Signal}
    (h : s.named other key = some time) :
    (s.commit root signal parts).named other key = some time := by
  simp only [Bucket.commit, Function.update_apply]
  split_ifs with hsignal
  · subst hsignal
    dsimp only
    rw [h]
    split_ifs <;> rfl
  · exact h

theorem Bucket.commit_names {s : Bucket} {parts : List ManifestPart} {other : Signal}
    (h : (s.commit root signal parts).Names root other key) :
    s.Names root other key ∨ (other = signal ∧ key ∈ partKeys root signal parts) := by
  unfold Bucket.Names Bucket.commit at h
  dsimp only at h
  rw [Function.update_apply] at h
  split_ifs at h with hsignal
  · exact .inr ⟨hsignal, hsignal ▸ h⟩
  · exact .inl h

theorem Bucket.Guarded.commit (h : s.Guarded rules root) {parts : List ManifestPart}
    (hasks : rules.Asks root s (.commit signal parts)) :
    (s.commit root signal parts).Guarded rules root ∧
      s.Grows rules root (s.commit root signal parts) := by
  have hst : s.Grows rules root (s.commit root signal parts) := by
    refine ⟨le_rfl, fun _ hx => hx, fun _ _ hcame => hcame,
      fun _ _ _ hnamed => Bucket.commit_named s parts hnamed, fun other key hnames => ?_⟩
    rcases Bucket.commit_names hnames with hold | ⟨rfl, hkey⟩
    · exact .inl hold
    · by_cases hold : s.Names root other key
      · exact .inl hold
      · -- a name that is new is new to every commit
        obtain ⟨hnever, -, came, hcame, hle⟩ := hasks key hkey hold
        refine .inr ⟨s.clock, ⟨?_, came, hcame, hle⟩, le_rfl⟩
        simp [Bucket.commit, hkey, hnever]
  refine ⟨h.grow hst (fun ledger hl => (h.ledger ledger hl).later hst) h.objects h.times ?_ ?_
    (fun _ hr => .inl hr), hst⟩
  · intro other key hnames
    rcases Bucket.commit_names hnames with hold | ⟨rfl, hkey⟩
    · exact (h.current other key hold).1
    · by_cases hold : s.Names root other key
      · exact (h.current other key hold).1
      · exact (hasks key hkey hold).2.1
  · intro old hold
    rcases List.mem_cons.1 hold with rfl | hold
    · exact .inr rfl
    · exact .inl hold

theorem Bucket.Guarded.wait (h : s.Guarded rules root) (time : ℕ) :
    { s with clock := s.clock + time }.Guarded rules root ∧
      s.Grows rules root { s with clock := s.clock + time } := by
  have hle : s.clock ≤ s.clock + time := by omega
  have hst : s.Grows rules root { s with clock := s.clock + time } :=
    .of_same hle (fun _ hx => hx) (fun _ _ hcame => hcame) rfl rfl
  exact ⟨h.grow hst (fun ledger hl => (h.ledger ledger hl).later hst) h.objects
    (fun key came hcame => (h.times key came hcame).trans hle)
    (fun signal key hnames => (h.current signal key hnames).1)
    (fun _ hold => .inl hold) (fun _ hr => .inl hr), hst⟩

/-- What a read finds names all but what was named lately. -/
theorem Bucket.Guarded.read (h : s.Guarded rules root) {now : ℤ} (n : ℕ) (hnow : now ≤ s.clock) :
    s.Read rules root lag now signal (s.version lag n signal) := by
  refine ⟨hnow, fun key hnames hkey => ?_⟩
  cases n with
  | zero => exact absurd hnames hkey
  | succ n =>
    simp only [Bucket.version] at hkey
    cases hold : s.replaced[n]? with
    | none =>
      rw [hold] at hkey
      exact absurd hnames hkey
    | some old =>
      rw [hold] at hkey
      dsimp only at hkey
      split_ifs at hkey with hlag
      · obtain ⟨-, hother⟩ := h.replaced _ (List.mem_of_getElem? hold)
        obtain ⟨time, hat, hle⟩ := hother signal key hnames hkey
        exact ⟨time, hat, by omega⟩
      · exact absurd hnames hkey

/-- What a store lists is there. -/
theorem Bucket.mem_of_listed {path : String} {after : Option String} {seen : ObjectMeta}
    (h : seen ∈ s.listed path after) : seen.location ∈ s.objects := by
  simp only [Bucket.listed, List.mem_map, List.mem_filter, Prod.exists,
    ExtTreeMap.mem_toList_iff_getElem?_eq_some] at h
  obtain ⟨location, size, ⟨hsize, -⟩, rfl⟩ := h
  rw [ExtTreeMap.mem_iff_isSome_getElem?, hsize]
  rfl

end Guarded

/-- What holds of passes when the others keep the rules. -/
def guarding (rules : Punctual) (root : String) (lag : ℕ) : Sweep root lag where
  inv s := s.Guarded rules root
  later s t := s.Grows rules root t
  asks s op := rules.Asks root s op
  grace gracePeriod := rules.naming + rules.listing + lag ≤ gracePeriod
  read now signal parts s := s.Read rules root lag now signal parts
  known _ ledger s := s.Remembers rules ledger
  page pass items _ _ s := ∀ seen ∈ items,
    ∃ came, s.came seen.location = some came ∧ came ≤ pass.now + rules.listing
  due _ key s := s.Abandoned rules root key
  refl := Bucket.Grows.refl
  trans := Bucket.Grows.trans
  clock h := h.clock
  read_later h hst := h.later hst
  known_later h hst := h.later hst
  page_later h hst seen hseen :=
    let ⟨came, hcame, hle⟩ := h seen hseen
    ⟨came, hst.came _ _ hcame, hle⟩
  due_later h hst := h.later hst
  reads ht _ hnow := ht.read _ hnow
  loads _ _ _ ht hl := ht.ledger _ hl
  dues := abandoned_of_deletable
  stores ht hk := ht.store hk
  lists {pass _ _ t _} ht _ _ hasks := by
    refine ⟨(ht.see _).1, (ht.see _).2, fun seen hseen => ?_⟩
    obtain ⟨came, hcame⟩ := ht.objects _ (Bucket.mem_of_listed (List.mem_of_mem_take hseen))
    have hclock : t.clock ≤ pass.now + rules.listing := hasks
    exact ⟨came, hcame, (ht.times _ _ hcame).trans hclock⟩
  sees hk hpage := ⟨hk.see (hpage _ List.mem_cons_self),
    fun seen hseen => hpage seen (List.mem_cons_of_mem _ hseen)⟩
  ends hk _ := hk
  closes hk _ := hk.closeCycle
  removes ht hdue hk := ⟨(ht.remove hdue).1, (ht.remove hdue).2, hk.forget.later (ht.remove hdue).2⟩
  misses _ _ hk _ := hk.forget
  puts ht _ := ht.put _
  commits ht hasks := ht.commit hasks
  waits ht := ht.wait _

/-- **Nothing that is named is deleted.**  If an object is named within some time after it came or
never, and is never named again once it is no longer, if a pass lists nothing so long after it
began, and if these times and the age of the manifests that a pass reads are within the grace
period, then every object that a manifest names is there, in every run of any number of passes. -/
theorem named_objects_stay {rules : Punctual} {s : Bucket} (hs : s.Guarded rules root)
    {turns : List (Turn GcJob GcFate)} {c : GcCrew}
    (hheeds : (gcMachine root lag).Within (guarding rules root lag).Heeds
      (Contract.Crew.idle s) turns)
    (hrun : (gcMachine root lag).run (Contract.Crew.idle s) turns = some c) :
    (∀ signal, ∀ key ∈ partKeys root signal (c.shared.manifests signal), key ∈ c.shared.objects) ∧
      ∀ r ∈ c.shared.removals, ∀ signal,
        r.key ∉ partKeys root signal (c.shared.manifests signal) := by
  have hend : c.shared.Guarded rules root := (guarding rules root lag).run hs hheeds hrun
  exact ⟨fun signal key hkey => (hend.current signal key hkey).1,
    fun r hr signal => (hend.removals r hr).1 signal⟩

/-- A store with nothing in it is guarded. -/
theorem Bucket.guarded_empty (rules : Punctual) : Bucket.empty.Guarded rules root where
  ledger _ hl key entry hentry := by
    cases hl
    rw [OrphanLedger.empty, ExtTreeMap.getElem?_empty] at hentry
    cases hentry
  objects key hkey := (by simp [empty] at hkey)
  times _ _ h := (by cases h)
  current _ _ h := (by cases h)
  replaced _ h := (by cases h)
  removals _ h := (by cases h)

/-- Objects are named within two, and a pass lists within five. -/
def sampleRules : Punctual := ⟨2, 5⟩

instance (rules : Punctual) (root : String) (lag : ℕ) (s : Bucket) (op : GcOp) :
    Decidable ((guarding rules root lag).asks s op) :=
  inferInstanceAs (Decidable (rules.Asks root s op))

instance (rules : Punctual) (root : String) (lag : ℕ) :
    DecidablePred (guarding rules root lag).grace :=
  fun gracePeriod => inferInstanceAs (Decidable (rules.naming + rules.listing + lag ≤ gracePeriod))

theorem named_objects_stay_sample :
    ∃ c, (gcMachine "" 0).run (Contract.Crew.idle Bucket.empty) sampleSweep = some c ∧
      GcCrew.deleted c = [lostObject] ∧
      (∀ signal, ∀ key ∈ partKeys "" signal (c.shared.manifests signal), key ∈ c.shared.objects) ∧
      ∀ r ∈ c.shared.removals, ∀ signal,
        r.key ∉ partKeys "" signal (c.shared.manifests signal) := by
  have hdeleted : ((gcMachine "" 0).run (Contract.Crew.idle Bucket.empty) sampleSweep).map
      GcCrew.deleted = some [lostObject] := by decide +kernel
  have hheeds : (gcMachine "" 0).Within (guarding sampleRules "" 0).Heeds
      (Contract.Crew.idle Bucket.empty) sampleSweep := by decide +kernel
  obtain ⟨c, hrun, hc⟩ := Option.map_eq_some_iff.1 hdeleted
  exact ⟨c, hrun, hc, named_objects_stay (Bucket.guarded_empty sampleRules) hheeds hrun⟩

/-! ### First sightings are kept -/

/-- The scan of the current cycle has not come to an object of a directory. -/
def OrphanScanCursor.Ahead (scan : OrphanScanCursor) (directory : ℕ) (key : String) : Prop :=
  scan.directory < directory ∨ (scan.directory = directory ∧ ∀ last ∈ scan.after, last < key)

/-- The ledger has an object's first sighting, and this cycle has seen the object or comes to it. -/
def OrphanLedger.Fresh (ledger : OrphanLedger) (directory : ℕ) (key : String) (first : ℤ) : Prop :=
  ∃ entry, ledger.orphans[key]? = some entry ∧ entry.firstSeen = first ∧
    (entry.lastSeenCycle = ledger.scan.cycle ∨ ledger.scan.Ahead directory key)

/-- An object is among the ones that are left of a page, behind smaller ones, or on a later page. -/
def Coming (key : String) (items : List ObjectMeta) (more : Bool) : Prop :=
  (∃ before seen after, items = before ++ seen :: after ∧ seen.location = key ∧
    ∀ x ∈ before, x.location < key) ∨ (more = true ∧ ∀ x ∈ items, x.location < key)

/-- What is left of a page: ascending, behind the cursor, and with an object of the directory that
the cursor has not come to. -/
structure PageOf (directory : ℕ) (key : String) (items : List ObjectMeta) (more : Bool)
    (ledger : OrphanLedger) : Prop where
  ascending : items.Pairwise fun x y => x.location < y.location
  behind : ∀ last ∈ ledger.scan.after, ∀ x ∈ items, last < x.location
  coming : ledger.scan.directory = directory → (∀ last ∈ ledger.scan.after, last < key) →
    Coming key items more

section Fresh

variable {directory : ℕ} {key : String} {first : ℤ} {ledger : OrphanLedger} {pass : OrphanPass}
  {seen : ObjectMeta} {items : List ObjectMeta} {more : Bool}

theorem PageOf.tail (h : PageOf directory key (seen :: items) more ledger) :
    PageOf directory key items more (ledger.see pass seen) where
  ascending := h.ascending.of_cons
  behind last hlast x hx := by
    cases hlast
    exact List.rel_of_pairwise_cons h.ascending hx
  coming hdirectory hafter := by
    have hlt : seen.location < key := hafter seen.location rfl
    have hbefore : ∀ last ∈ ledger.scan.after, last < key := fun last hlast =>
      (h.behind last hlast seen List.mem_cons_self).trans hlt
    rcases h.coming hdirectory hbefore with ⟨before, x, after, hitems, hx, hsmall⟩ | ⟨hmore, hsmall⟩
    · cases before with
      | nil =>
        -- the object itself is behind the cursor
        cases hitems
        exact absurd hx hlt.ne
      | cons y before =>
        cases hitems
        exact .inl ⟨before, x, after, rfl, hx, fun z hz => hsmall z (List.mem_cons_of_mem _ hz)⟩
    · exact .inr ⟨hmore, fun z hz => hsmall z (List.mem_cons_of_mem _ hz)⟩

/-- **One object of a page** leaves the first sighting of another one, and of the same one. -/
theorem OrphanLedger.Fresh.see (h : ledger.Fresh directory key first) (hactive : key ∉ pass.active)
    (hpage : PageOf directory key (seen :: items) more ledger) :
    (ledger.see pass seen).Fresh directory key first := by
  obtain ⟨entry, hentry, hfirst, hcycle⟩ := h
  by_cases hkey : seen.location = key
  · -- it is seen in this cycle
    refine ⟨ledger.sighted pass seen, ?_, ?_, .inl ?_⟩
    · rw [OrphanLedger.see_orphans, if_pos hkey, if_neg hactive]
    all_goals
      subst hkey
      unfold OrphanLedger.sighted
      rw [hentry]
    · exact hfirst
    · rfl
  · refine ⟨entry, ?_, hfirst, ?_⟩
    · rw [OrphanLedger.see_orphans, if_neg hkey]
      exact hentry
    · rcases hcycle with hcycle | hahead | ⟨hdirectory, hafter⟩
      · exact .inl hcycle
      · exact .inr (.inl hahead)
      · -- the page comes to it after this one
        refine .inr (.inr ⟨hdirectory, fun last hlast => ?_⟩)
        cases hlast
        rcases hpage.coming hdirectory hafter with
          ⟨before, x, after, hitems, hx, hsmall⟩ | ⟨-, hsmall⟩
        · cases before with
          | nil =>
            cases hitems
            exact absurd hx hkey
          | cons y before =>
            cases hitems
            exact hsmall _ List.mem_cons_self
        · exact hsmall _ List.mem_cons_self

/-- At the end of its directory the cycle has seen it. -/
theorem OrphanLedger.Fresh.nextDirectory (h : ledger.Fresh directory key first)
    (hpage : PageOf directory key [] false ledger) :
    ledger.nextDirectory.Fresh directory key first := by
  obtain ⟨entry, hentry, hfirst, hcycle⟩ := h
  refine ⟨entry, hentry, hfirst, ?_⟩
  rcases hcycle with hcycle | hahead | ⟨hdirectory, hafter⟩
  · exact .inl hcycle
  · refine .inr ?_
    rcases Nat.lt_or_eq_of_le (Nat.succ_le_of_lt hahead) with hlt | heq
    · exact .inl hlt
    · exact .inr ⟨heq, fun last hlast => (by cases hlast)⟩
  · rcases hpage.coming hdirectory hafter with ⟨before, x, after, hitems, -⟩ | ⟨hmore, -⟩
    · cases before <;> cases hitems
    · cases hmore

/-- At the end of a cycle it is not dropped. -/
theorem OrphanLedger.Fresh.closeCycle (h : ledger.Fresh directory key first)
    (hdirectory : directory < orphanDirectories.length)
    (hend : orphanDirectories.length ≤ ledger.scan.directory) :
    ledger.closeCycle.Fresh directory key first := by
  obtain ⟨entry, hentry, hfirst, hcycle⟩ := h
  refine ⟨entry, ?_, hfirst, .inr ?_⟩
  · rw [OrphanLedger.closeCycle_orphans, hentry]
    rcases hcycle with hcycle | hahead | ⟨heq, -⟩
    · simp [hcycle]
    · omega
    · omega
  · rcases Nat.eq_zero_or_pos directory with rfl | hpos
    · exact .inr ⟨rfl, fun last hlast => (by cases hlast)⟩
    · exact .inl hpos

theorem OrphanLedger.Fresh.forget {other : String} (h : ledger.Fresh directory key first)
    (hne : other ≠ key) : (ledger.forget other).Fresh directory key first := by
  obtain ⟨entry, hentry, hfirst, hcycle⟩ := h
  exact ⟨entry, by rw [OrphanLedger.forget_orphans, if_neg hne]; exact hentry, hfirst, hcycle⟩

end Fresh

section Listing

variable {s : Bucket} {path : String} {last : Option String} {key : String}

theorem Bucket.listed_ascending (s : Bucket) (path : String) (last : Option String) :
    (s.listed path last).Pairwise fun x y => x.location < y.location := by
  have hkeys : s.objects.toList.Pairwise fun x y => compare x.1 y.1 = .lt :=
    ExtTreeMap.ordered_keys_toList
  unfold listed
  rw [List.pairwise_map]
  exact (hkeys.imp fun h => compare_lt_iff_lt.1 h).filter _

theorem Bucket.listed_behind {before : String} (hlast : last = some before) :
    ∀ x ∈ s.listed path last, before < x.location := by
  subst hlast
  intro x hx
  simp only [listed, List.mem_map, List.mem_filter, Option.all_some, Bool.and_eq_true,
    decide_eq_true_eq] at hx
  obtain ⟨item, ⟨-, -, hlt⟩, rfl⟩ := hx
  exact hlt

/-- A store lists what is under a path, behind the cursor. -/
theorem Bucket.exists_listed (hkey : key ∈ s.objects) (hpath : liesUnder path key = true)
    (hlast : ∀ before ∈ last, before < key) : ∃ x ∈ s.listed path last, x.location = key := by
  obtain ⟨size, hsize⟩ := Option.isSome_iff_exists.1 (ExtTreeMap.mem_iff_isSome_getElem?.1 hkey)
  refine ⟨⟨key, size⟩, ?_, rfl⟩
  simp only [listed, List.mem_map, List.mem_filter, Bool.and_eq_true]
  refine ⟨(key, size), ⟨ExtTreeMap.mem_toList_iff_getElem?_eq_some.2 hsize, hpath, ?_⟩, rfl⟩
  cases last with
  | none => rfl
  | some before => exact decide_eq_true (hlast before rfl)

/-- The first objects of a listing come to one of it, or there are more. -/
theorem coming_take {items : List ObjectMeta} {x : ObjectMeta} (n : ℕ)
    (hascending : items.Pairwise fun x y => x.location < y.location) (hx : x ∈ items) :
    Coming x.location (items.take n) (decide (n < items.length)) := by
  obtain ⟨before, after, rfl⟩ := List.append_of_mem hx
  have hsmall : ∀ y ∈ before, y.location < x.location := fun y hy =>
    (List.pairwise_append.1 hascending).2.2 y hy x List.mem_cons_self
  rcases Nat.lt_or_ge before.length n with hlt | hge
  · obtain ⟨m, rfl⟩ := Nat.exists_eq_add_of_lt hlt
    refine .inl ⟨before, x, after.take m, ?_, rfl, hsmall⟩
    rw [List.take_append, List.take_of_length_le (by omega), Nat.add_assoc,
      Nat.add_sub_cancel_left, List.take_succ_cons]
  · refine .inr ⟨decide_eq_true ?_, fun y hy => ?_⟩
    · rw [List.length_append, List.length_cons]
      omega
    · rw [List.take_append_of_le_length hge] at hy
      exact hsmall y (List.mem_of_mem_take hy)

end Listing

/-- An object that came under a directory and is out of the manifests, with its first sighting,
unless it was deleted. -/
structure Bucket.Ages (s : Bucket) (root : String) (lag directory : ℕ) (key : String) (first : ℤ) :
    Prop where
  unnamed : ∀ signal, ¬ s.Names root signal key
  unread : ∀ old ∈ s.replaced, s.clock - lag ≤ old.2 →
    ∀ signal, key ∉ partKeys root signal (old.1 signal)
  kept : (∃ r ∈ s.removals, r.key = key) ∨ (key ∈ s.objects ∧
    ∃ ledger, decodeOrphanLedger s.ledger = .ok ledger ∧ ledger.Fresh directory key first)

section Ages

variable {s t : Bucket} {directory : ℕ} {key : String} {first : ℤ} {ledger : OrphanLedger}
  {pass : OrphanPass}

/-- A change that names the object nowhere. -/
theorem Bucket.Ages.grow (h : s.Ages root lag directory key first) (hclock : s.clock ≤ t.clock)
    (hunnamed : ∀ signal, ¬ t.Names root signal key)
    (hreplaced : ∀ old ∈ t.replaced, old ∈ s.replaced ∨ old = (s.manifests, s.clock))
    (hkept : (∃ r ∈ t.removals, r.key = key) ∨ (key ∈ t.objects ∧
      ∃ ledger, decodeOrphanLedger t.ledger = .ok ledger ∧ ledger.Fresh directory key first)) :
    t.Ages root lag directory key first where
  unnamed := hunnamed
  unread old hold hlag := by
    rcases hreplaced old hold with hold | rfl
    · exact h.unread old hold (by omega)
    · exact h.unnamed
  kept := hkept

/-- No read finds a manifest that names the object. -/
theorem Bucket.Ages.read (h : s.Ages root lag directory key first) (signal : Signal) (n : ℕ) :
    key ∉ partKeys root signal (s.version lag n signal) := by
  cases n with
  | zero => exact h.unnamed signal
  | succ n =>
    simp only [Bucket.version]
    cases hold : s.replaced[n]? with
    | none => exact h.unnamed signal
    | some old =>
      dsimp only
      split_ifs with hlag
      · exact h.unread old (List.mem_of_getElem? hold) hlag signal
      · exact h.unnamed signal

theorem Bucket.Ages.page {name : String} (hname : orphanDirectories[directory]? = some name)
    (hunder : liesUnder (objectPath root name) key = true) (hkey : key ∈ s.objects) {found : String}
    (hfound : orphanDirectories[ledger.scan.directory]? = some found) (n : ℕ) :
    PageOf directory key ((s.listed (objectPath root found) ledger.scan.after).take n)
      (decide (n < (s.listed (objectPath root found) ledger.scan.after).length)) ledger where
  ascending := (s.listed_ascending _ _).sublist (List.take_sublist _ _)
  behind last hlast x hx := Bucket.listed_behind hlast x (List.mem_of_mem_take hx)
  coming hdirectory hafter := by
    rw [hdirectory, hname] at hfound
    cases hfound
    obtain ⟨x, hx, rfl⟩ := Bucket.exists_listed hkey hunder hafter
    exact coming_take n (s.listed_ascending _ _) hx

end Ages

/-- A request that does not name an object. -/
def Avoids (root key : String) : GcOp → Prop
  | .commit signal parts => key ∉ partKeys root signal parts
  | _ => True

/-- What passes keep of an object that stays out of the manifests. -/
def aging (root : String) (lag directory : ℕ) {name : String}
    (hname : orphanDirectories[directory]? = some name) {key : String}
    (hunder : liesUnder (objectPath root name) key = true) (first : ℤ) : Sweep root lag where
  inv s := s.Ages root lag directory key first
  later s t := s.clock ≤ t.clock ∧ ∀ r ∈ s.removals, r ∈ t.removals
  asks _ op := Avoids root key op
  grace _ := True
  read _ signal parts _ := key ∉ partKeys root signal parts
  known pass ledger s := key ∉ pass.active ∧
    ((∃ r ∈ s.removals, r.key = key) ∨ ledger.Fresh directory key first)
  page _ items more ledger s :=
    (∃ r ∈ s.removals, r.key = key) ∨ PageOf directory key items more ledger
  due _ _ _ := True
  refl _ := ⟨le_rfl, fun _ hr => hr⟩
  trans h h' := ⟨h.1.trans h'.1, fun r hr => h'.2 r (h.2 r hr)⟩
  clock h := h.1
  read_later h _ := h
  known_later h hst := ⟨h.1, h.2.imp_left fun ⟨r, hr, hkey⟩ => ⟨r, hst.2 r hr, hkey⟩⟩
  page_later h hst := h.imp_left fun ⟨r, hr, hkey⟩ => ⟨r, hst.2 r hr, hkey⟩
  due_later _ _ := trivial
  reads ht _ _ := ht.read _ _
  loads hlogs htraces hmetrics ht hl := by
    refine ⟨?_, ht.kept.imp_right fun h => ?_⟩
    · simp only [OrphanPass.of, List.mem_append, not_or]
      exact ⟨⟨hlogs, htraces⟩, hmetrics⟩
    · obtain ⟨-, ledger', hledger, hfresh⟩ := h
      rw [hl] at hledger
      cases hledger
      exact hfresh
  dues _ _ _ _ _ _ := trivial
  stores ht hk := by
    refine ⟨ht.grow le_rfl ht.unnamed (fun _ hold => .inl hold) ?_, le_rfl, fun _ hr => hr⟩
    rcases ht.kept with hgone | ⟨hkey, -⟩
    · exact .inl hgone
    · exact hk.2.imp_right fun hfresh => ⟨hkey, _, rfl, hfresh⟩
  lists ht _ hfound _ := by
    refine ⟨ht.grow le_rfl ht.unnamed (fun _ hold => .inl hold) ht.kept,
      ⟨le_rfl, fun _ hr => hr⟩, ht.kept.imp_right fun h => ?_⟩
    exact Bucket.Ages.page hname hunder h.1 hfound _
  sees hk hpage := by
    obtain ⟨hactive, hk⟩ := hk
    rcases hk with hgone | hfresh
    · exact ⟨⟨hactive, .inl hgone⟩, .inl hgone⟩
    · rcases hpage with hgone | hpage
      · exact ⟨⟨hactive, .inl hgone⟩, .inl hgone⟩
      · exact ⟨⟨hactive, .inr (hfresh.see hactive hpage)⟩, .inr hpage.tail⟩
  ends hk hpage := by
    obtain ⟨hactive, hk⟩ := hk
    refine ⟨hactive, ?_⟩
    rcases hpage with hgone | hpage
    · exact .inl hgone
    · exact hk.imp_right fun hfresh => hfresh.nextDirectory hpage
  closes hk hend :=
    ⟨hk.1, hk.2.imp_right fun hfresh =>
      hfresh.closeCycle (List.getElem?_eq_some_iff.1 hname).1 hend⟩
  removes {pass other ledger t} ht _ hk := by
    have hlater : ∀ r ∈ t.removals, r ∈ (t.remove pass other).removals := fun _ hr =>
      List.mem_append_left _ hr
    by_cases hother : other = key
    · have hgone : ∃ r ∈ (t.remove pass other).removals, r.key = key :=
        ⟨⟨pass, other⟩, List.mem_append_right _ List.mem_cons_self, hother⟩
      exact ⟨ht.grow le_rfl ht.unnamed (fun _ hold => .inl hold) (.inl hgone),
        ⟨le_rfl, hlater⟩, hk.1, .inl hgone⟩
    · refine ⟨ht.grow le_rfl ht.unnamed (fun _ hold => .inl hold) ?_, ⟨le_rfl, hlater⟩, hk.1, ?_⟩
      · refine ht.kept.imp (fun ⟨r, hr, hkey⟩ => ⟨r, hlater r hr, hkey⟩) fun h => ⟨?_, h.2⟩
        simp only [Bucket.remove, ExtTreeMap.mem_erase]
        exact ⟨by simpa using hother, h.1⟩
      · exact hk.2.imp (fun ⟨r, hr, hkey⟩ => ⟨r, hlater r hr, hkey⟩) fun h => h.forget hother
  misses {pass other ledger t} ht _ hk hmiss := by
    refine ⟨hk.1, ?_⟩
    rcases ht.kept with hgone | ⟨hkey, -⟩
    · exact .inl hgone
    · -- the object is there
      refine hk.2.imp_right fun hfresh => hfresh.forget ?_
      rintro rfl
      exact hmiss hkey
  puts ht _ := by
    refine ⟨ht.grow le_rfl ht.unnamed (fun _ hold => .inl hold) ?_, le_rfl, fun _ hr => hr⟩
    exact ht.kept.imp_right fun h => ⟨ExtTreeMap.mem_insert.2 (.inr h.1), h.2⟩
  commits {signal parts t} ht hasks := by
    refine ⟨ht.grow le_rfl (fun other hnames => ?_) (fun old hold => ?_) ht.kept,
      le_rfl, fun _ hr => hr⟩
    · rcases Bucket.commit_names hnames with hold | ⟨-, hkey⟩
      · exact ht.unnamed other hold
      · exact hasks hkey
    · rcases List.mem_cons.1 hold with rfl | hold
      · exact .inr rfl
      · exact .inl hold
  waits {time t} ht := by
    have hle : t.clock ≤ t.clock + time := by omega
    exact ⟨ht.grow hle ht.unnamed (fun _ hold => .inl hold) ht.kept, hle, fun _ hr => hr⟩

/-- **First sightings are kept.**  Once the ledger has an object that no manifest names again, it
has the object with the same first sighting until a pass deletes it, however passes overlap, fail,
are stopped and go on where another one stopped; every pass that begins more than the grace period
after it may delete the object. -/
theorem first_sighting_stays {directory : ℕ} {name : String}
    (hname : orphanDirectories[directory]? = some name) {key : String}
    (hunder : liesUnder (objectPath root name) key = true) {first : ℤ} {s : Bucket}
    (hs : s.Ages root lag directory key first) {turns : List (Turn GcJob GcFate)} {c : GcCrew}
    (hheeds : (gcMachine root lag).Within (aging root lag directory hname hunder first).Heeds
      (Contract.Crew.idle s) turns)
    (hrun : (gcMachine root lag).run (Contract.Crew.idle s) turns = some c) :
    (∃ r ∈ c.shared.removals, r.key = key) ∨
      ∃ ledger, decodeOrphanLedger c.shared.ledger = .ok ledger ∧
        ∀ pass : OrphanPass, key ∉ pass.active → first + pass.gracePeriod < pass.now →
          key ∈ ledger.deletable pass := by
  have hend : c.shared.Ages root lag directory key first :=
    (aging root lag directory hname hunder first).run hs hheeds hrun
  refine hend.kept.imp_right fun ⟨_, ledger, hledger, entry, hentry, hfirst, _⟩ => ?_
  refine ⟨ledger, hledger, fun pass hactive hold => ?_⟩
  exact OrphanLedger.mem_deletable.2 ⟨entry, hentry, by omega, hactive⟩

instance (root : String) (key : String) (op : GcOp) : Decidable (Avoids root key op) :=
  match op with
  | .commit signal parts => inferInstanceAs (Decidable (key ∉ partKeys root signal parts))
  | .loadManifest _ | .loadLedger | .storeLedger _ | .now | .list _ _ _ | .deleteStream _ _
  | .put _ | .wait _ => isTrue trivial

/-- A store with an object that a pass has seen at one, when it had not yet come to its end. -/
def seenOnce : Bucket :=
  { Bucket.empty with
    objects := (∅ : ExtTreeMap String ℕ).insert lostObject 3
    ledger := some (.current ⟨⟨0, some "parts/d", 0⟩,
      (∅ : ExtTreeMap String OrphanLedgerEntry).insert lostObject ⟨1, 0, 3⟩⟩)
    clock := 5 }

theorem parts_directory : orphanDirectories[0]? = some "parts" := rfl

theorem lostObject_under : liesUnder (objectPath "" "parts") lostObject = true := by decide +kernel

theorem seenOnce_ages : seenOnce.Ages "" 0 0 lostObject 1 where
  unnamed _ h := (by cases h)
  unread _ h := (by cases h)
  kept := .inr ⟨by decide +kernel, _, rfl, ⟨1, 0, 3⟩, by decide +kernel, rfl, .inl rfl⟩

instance {directory : ℕ} {name : String} (hname : orphanDirectories[directory]? = some name)
    {key : String} (hunder : liesUnder (objectPath root name) key = true) (first : ℤ) (s : Bucket)
    (op : GcOp) : Decidable ((aging root lag directory hname hunder first).asks s op) :=
  inferInstanceAs (Decidable (Avoids root key op))

instance {directory : ℕ} {name : String} (hname : orphanDirectories[directory]? = some name)
    {key : String} (hunder : liesUnder (objectPath root name) key = true) (first : ℤ) :
    DecidablePred (aging root lag directory hname hunder first).grace := fun _ => isTrue trivial

/-- A pass within the grace period finishes the cycle and keeps the first sighting. -/
theorem first_sighting_stays_sample :
    ∃ c, (gcMachine "" 0).run (Contract.Crew.idle seenOnce) (alone (.collect sampleOptions) 16) =
        some c ∧ GcCrew.deleted c = [] ∧
      ((∃ r ∈ c.shared.removals, r.key = lostObject) ∨
        ∃ ledger, decodeOrphanLedger c.shared.ledger = .ok ledger ∧
          ∀ pass : OrphanPass, lostObject ∉ pass.active → 1 + pass.gracePeriod < pass.now →
            lostObject ∈ ledger.deletable pass) := by
  have hdeleted : ((gcMachine "" 0).run (Contract.Crew.idle seenOnce)
      (alone (.collect sampleOptions) 16)).map GcCrew.deleted = some [] := by decide +kernel
  have hheeds : (gcMachine "" 0).Within (aging "" 0 0 parts_directory lostObject_under 1).Heeds
      (Contract.Crew.idle seenOnce) (alone (.collect sampleOptions) 16) := by decide +kernel
  obtain ⟨c, hrun, hc⟩ := Option.map_eq_some_iff.1 hdeleted
  exact ⟨c, hrun, hc,
    first_sighting_stays parts_directory lostObject_under seenOnce_ages hheeds hrun⟩

end Catalog

end Obsy
