import Obsy.Catalog.Orphans

/-!
# What a pass keeps

A pass is stopped and resumed, overlaps with other passes, and its requests fail.  What it may know
all the while is said once here: of the manifests it read, of the ledger in its memory, of a page it
has listed, and of what it is about to delete.

* `Sweep`: an invariant of the store with what a pass may know, and what each request does to it.
* `Sweep.guarded_collectOrphans`: a pass keeps it, whatever else is going on.
* `Sweep.run`: so does every run.
-/

namespace Obsy

namespace Catalog

open Machine Machine.Program

variable {root : String} {lag : ℕ}

/-! ### Deleting -/

/-- The ledger without an object. -/
def OrphanLedger.forget (ledger : OrphanLedger) (key : String) : OrphanLedger :=
  { ledger with orphans := ledger.orphans.erase key }

theorem Cleared.note_ledger (cleared : Cleared) (key : String) (answer : DeletionAnswer) :
    (cleared.note key answer).ledger =
      if answer = .failed then cleared.ledger else cleared.ledger.forget key := by
  unfold note
  split_ifs <;> rfl

theorem mem_of_planDeletions {options : OrphanCollectionOptions} {ledger : OrphanLedger}
    {deletable : List String} {key : String}
    (h : key ∈ (planDeletions options ledger deletable).withinBudget) : key ∈ deletable := by
  have hfold : ∀ (keys : List String) (plan : DeletionPlan),
      (∀ k ∈ plan.withinBudget, k ∈ deletable) → (∀ k ∈ keys, k ∈ deletable) →
      ∀ k ∈ (keys.foldl (DeletionPlan.add options ledger) plan).withinBudget,
        k ∈ deletable := by
    intro keys
    induction keys with
    | nil => exact fun plan hplan _ => hplan
    | cons first rest ih =>
      intro plan hplan hkeys
      refine ih _ (fun k hk => ?_) fun k hk => hkeys k (List.mem_cons_of_mem _ hk)
      unfold DeletionPlan.add at hk
      dsimp only at hk
      split_ifs at hk with hfull
      · exact hplan k hk
      · rcases List.mem_append.1 hk with hk | hk
        · exact hplan k hk
        · rw [List.mem_singleton.1 hk]
          exact hkeys first List.mem_cons_self
  exact hfold deletable _ (fun _ hk => (by cases hk)) (fun _ hk => hk) key h

theorem mem_of_mem_chunks {α : Type} {size n : ℕ} {xs chunk : List α}
    (h : chunk ∈ chunks size n xs) : ∀ x ∈ chunk, x ∈ xs := by
  induction n generalizing xs with
  | zero => cases h
  | succ n ih =>
    unfold chunks at h
    split_ifs at h with hxs
    · cases h
    · intro x hx
      rcases List.mem_cons.1 h with rfl | h
      · exact List.mem_of_mem_take hx
      · exact List.mem_of_mem_drop (ih h x hx)

/-! ### What passes know -/

/-- An invariant of the store, what a pass may know, and what each request does to it. -/
structure Sweep (root : String) (lag : ℕ) where
  inv : Bucket → Prop
  /-- How the store changes. -/
  later : Bucket → Bucket → Prop
  /-- When requests are made. -/
  asks : Bucket → GcOp → Prop
  grace : ℕ → Prop
  /-- What a read of a manifest tells a pass that began at a time. -/
  read : ℤ → Signal → List ManifestPart → Bucket → Prop
  known : OrphanPass → OrphanLedger → Bucket → Prop
  /-- What it knows of the objects that are left of a page, and whether there are more pages. -/
  page : OrphanPass → List ObjectMeta → Bool → OrphanLedger → Bucket → Prop
  /-- What it knows of an object that it may delete. -/
  due : OrphanPass → String → Bucket → Prop
  refl : ∀ s, later s s
  trans : ∀ {s t u}, later s t → later t u → later s u
  clock : ∀ {s t}, later s t → s.clock ≤ t.clock
  read_later : ∀ {now signal parts s t}, read now signal parts s → later s t →
    read now signal parts t
  known_later : ∀ {pass ledger s t}, known pass ledger s → later s t → known pass ledger t
  page_later : ∀ {pass items more ledger s t}, page pass items more ledger s → later s t →
    page pass items more ledger t
  due_later : ∀ {pass key s t}, due pass key s → later s t → due pass key t
  reads : ∀ {now signal t n}, inv t → asks t (.loadManifest signal) → now ≤ t.clock →
    read now signal (t.version lag n signal) t
  loads : ∀ {now gracePeriod logs traces metrics ledger t},
    read now .logs logs t → read now .traces traces t → read now .metrics metrics t →
    inv t → decodeOrphanLedger t.ledger = .ok ledger →
    known (.of root now gracePeriod logs traces metrics) ledger t
  dues : ∀ {now gracePeriod logs traces metrics ledger key s}, grace gracePeriod →
    read now .logs logs s → read now .traces traces s → read now .metrics metrics s →
    known (.of root now gracePeriod logs traces metrics) ledger s →
    key ∈ ledger.deletable (.of root now gracePeriod logs traces metrics) →
    due (.of root now gracePeriod logs traces metrics) key s
  stores : ∀ {pass ledger t}, inv t → known pass ledger t →
    inv { t with ledger := some (.current ledger) } ∧
      later t { t with ledger := some (.current ledger) }
  /-- Listing a page of the directory that the cursor is in. -/
  lists : ∀ {pass ledger directory t n}, inv t → known pass ledger t →
    orphanDirectories[ledger.scan.directory]? = some directory →
    asks t (.list pass (objectPath root directory) ledger.scan.after) →
    let items := (t.listed (objectPath root directory) ledger.scan.after).take (n + 1)
    let more := decide (n + 1 < (t.listed (objectPath root directory) ledger.scan.after).length)
    inv (t.see pass items) ∧ later t (t.see pass items) ∧
      page pass items more ledger (t.see pass items)
  /-- One object of a page. -/
  sees : ∀ {pass seen items more ledger s}, known pass ledger s →
    page pass (seen :: items) more ledger s →
    known pass (ledger.see pass seen) s ∧ page pass items more (ledger.see pass seen) s
  ends : ∀ {pass ledger s}, known pass ledger s → page pass [] false ledger s →
    known pass ledger.nextDirectory s
  /-- The end of a cycle. -/
  closes : ∀ {pass ledger s}, known pass ledger s →
    orphanDirectories.length ≤ ledger.scan.directory → known pass ledger.closeCycle s
  /-- Deleting an object. -/
  removes : ∀ {pass key ledger t}, inv t → due pass key t → known pass ledger t →
    inv (t.remove pass key) ∧ later t (t.remove pass key) ∧
      known pass (ledger.forget key) (t.remove pass key)
  /-- Not finding it. -/
  misses : ∀ {pass key ledger t}, inv t → due pass key t → known pass ledger t →
    key ∉ t.objects → known pass (ledger.forget key) t
  puts : ∀ {object t}, inv t → asks t (.put object) →
    inv (t.put object) ∧ later t (t.put object)
  commits : ∀ {signal parts t}, inv t → asks t (.commit signal parts) →
    inv (t.commit root signal parts) ∧ later t (t.commit root signal parts)
  waits : ∀ {time : ℕ} {t}, inv t →
    inv { t with clock := t.clock + time } ∧ later t { t with clock := t.clock + time }

namespace Sweep

variable (W : Sweep root lag)

def contract : Contract gcInterface Bucket GcJob OrphanError OrphanCollection where
  inv := W.inv
  later _ := W.later
  change _ := W.later
  begins job _ :=
    match job with
    | .collect options => W.grace options.gracePeriod
    | _ => True
  asks _ := W.asks
  fits _ _ := True
  post _ _ _ _ := True
  refl _ := W.refl
  trans := W.trans
  own h := h
  other _ h := h
  stable _ _ := trivial

variable {W} {k : GcJob} {s : Bucket} {pass : OrphanPass}

/-- A program that keeps the invariant and ends with a postcondition; an error says nothing. -/
def keeps {α : Type} (W : Sweep root lag) (k : GcJob) (p : GcProgram α) (Q : α → Bucket → Prop)
    (s : Bucket) : Prop :=
  p.guarded (gcDevice root lag) W.contract k
    (fun r t => match r with
      | .ok a => Q a t
      | .error _ => True) s

theorem keeps_ret {α : Type} {a : α} {Q : α → Bucket → Prop} (h : Q a s) :
    W.keeps k (ret a) Q s := h

theorem keeps_throw {α : Type} {e : OrphanError} {Q : α → Bucket → Prop} :
    W.keeps k (throw e) Q s := trivial

theorem keeps_bind {α β : Type} {p : GcProgram α} {q : α → GcProgram β} {R : α → Bucket → Prop}
    {Q : β → Bucket → Prop} (hp : W.keeps k p R s)
    (hq : ∀ a t, R a t → W.keeps k (q a) Q t) : W.keeps k (p.bind q) Q s := by
  refine guarded_bind (R := R) (guarded_mono hp fun r t h => ?_) hq
  cases r with
  | ok a => exact h
  | error e => trivial

/-- The rule for one request. -/
theorem keeps_perform {op : GcOp} {Q : op.Ans → Bucket → Prop}
    (h : ∀ t, W.later s t → W.inv t → W.asks t op → ∀ fate,
      W.inv ((gcDevice root lag).apply fate t op).2 ∧
        W.later t ((gcDevice root lag).apply fate t op).2 ∧
        Q ((gcDevice root lag).apply fate t op).1 ((gcDevice root lag).apply fate t op).2) :
    W.keeps k (perform (I := gcInterface) op) Q s := h

/-! ### Reading -/

theorem keeps_now {Q : ℤ → Bucket → Prop} (h : ∀ t, W.later s t → Q t.clock t) :
    W.keeps k (perform (I := gcInterface) .now) Q s :=
  keeps_perform (W := W) fun t hst ht _ _ => ⟨ht, W.refl t, h t hst⟩

/-- The rule for a request whose answer may be an error. -/
theorem keeps_request {α : Type} {op : GcOp} {result : op.Ans → Except OrphanError α}
    {Q : α → Bucket → Prop}
    (h : ∀ t, W.later s t → W.inv t → W.asks t op → ∀ fate,
      W.inv ((gcDevice root lag).apply fate t op).2 ∧
        W.later t ((gcDevice root lag).apply fate t op).2 ∧
        ∀ a, result ((gcDevice root lag).apply fate t op).1 = .ok a →
          Q a ((gcDevice root lag).apply fate t op).2) :
    W.keeps k (request op result) Q s := by
  refine keeps_bind (W := W) (R := fun r t => ∀ a, result r = .ok a → Q a t)
    (keeps_perform h) fun r t hr => ?_
  cases hresult : result r with
  | ok a => exact hr a hresult
  | error e => exact keeps_throw

theorem keeps_loadManifest {now : ℤ} {signal : Signal} (hnow : now ≤ s.clock) :
    W.keeps k (request (.loadManifest signal) id)
      (fun parts t => W.later s t ∧ W.read now signal parts t) s := by
  refine keeps_request fun t hst ht hasks fate => ⟨ht, W.refl t, fun parts h => ?_⟩
  obtain ⟨fails, applied, version, page, deletion⟩ := fate
  cases fails with
  | true => cases h
  | false =>
    cases h
    exact ⟨hst, W.reads ht hasks (hnow.trans (W.clock hst))⟩

theorem keeps_activeObjectKeys {now : ℤ} (hnow : now ≤ s.clock) :
    W.keeps k (activeObjectKeys root) (fun active t => ∃ logs traces metrics,
      active = partKeys root .logs logs ++ partKeys root .traces traces ++
        partKeys root .metrics metrics ∧
      W.read now .logs logs t ∧ W.read now .traces traces t ∧ W.read now .metrics metrics t) s := by
  refine keeps_bind (keeps_loadManifest hnow) fun logs t hlogs => ?_
  have ht : now ≤ t.clock := hnow.trans (W.clock hlogs.1)
  refine keeps_bind (keeps_loadManifest ht) fun traces u htraces => ?_
  refine keeps_bind (keeps_loadManifest (ht.trans (W.clock htraces.1))) fun metrics v hmetrics => ?_
  exact keeps_ret ⟨logs, traces, metrics, rfl,
    W.read_later (W.read_later hlogs.2 htraces.1) hmetrics.1,
    W.read_later htraces.2 hmetrics.1, hmetrics.2⟩

theorem keeps_loadOrphanLedger {now : ℤ} {gracePeriod : ℕ} {logs traces metrics : List ManifestPart}
    (hlogs : W.read now .logs logs s) (htraces : W.read now .traces traces s)
    (hmetrics : W.read now .metrics metrics s) :
    W.keeps k loadOrphanLedger (fun ledger t => W.later s t ∧
      W.known (.of root now gracePeriod logs traces metrics) ledger t) s := by
  refine keeps_request fun t hst ht _ fate => ⟨ht, W.refl t, fun ledger h => ⟨hst, ?_⟩⟩
  obtain ⟨fails, applied, version, page, deletion⟩ := fate
  cases fails with
  | true => cases h
  | false =>
    exact W.loads (W.read_later hlogs hst) (W.read_later htraces hst) (W.read_later hmetrics hst)
      ht h

/-! ### Walking -/

theorem keeps_storeOrphanLedger {ledger : OrphanLedger} (h : W.known pass ledger s) :
    W.keeps k (storeOrphanLedger ledger) (fun _ t => W.later s t) s := by
  refine keeps_request fun t hst ht _ fate => ?_
  obtain ⟨hinv, hlater⟩ := W.stores ht (W.known_later h hst)
  obtain ⟨fails, applied, version, page, deletion⟩ := fate
  cases fails with
  | false => exact ⟨hinv, hlater, fun _ _ => W.trans hst hlater⟩
  | true =>
    cases applied with
    | true => exact ⟨hinv, hlater, fun _ _ => W.trans hst hlater⟩
    | false => exact ⟨ht, W.refl t, fun _ _ => hst⟩

theorem keeps_spent {options : OrphanCollectionOptions} {deadline : ℤ} {scan : OrphanScan} :
    W.keeps k (spent options deadline scan) (fun _ t => W.later s t) s := by
  unfold spent
  split_ifs
  · exact keeps_ret (W.refl s)
  · exact keeps_bind (keeps_now (Q := fun _ t => W.later s t) fun _ h => h) fun _ _ h => keeps_ret h

theorem keeps_saveOften (scan : OrphanScan) (h : W.known pass scan.ledger s) :
    W.keeps k (saveOften scan) (fun scan' t => scan'.ledger = scan.ledger ∧ W.later s t) s := by
  unfold saveOften
  split_ifs
  · exact keeps_bind (keeps_storeOrphanLedger h) fun _ _ hst => keeps_ret ⟨rfl, hst⟩
  · exact keeps_ret ⟨rfl, W.refl s⟩

theorem keeps_scanPage {options : OrphanCollectionOptions} {deadline : ℤ} {more : Bool}
    {items : List ObjectMeta} {scan : OrphanScan} (hknown : W.known pass scan.ledger s)
    (hpage : W.page pass items more scan.ledger s) :
    W.keeps k (scanPage options pass deadline items scan) (fun done t =>
      done.1.ledger.scan.directory = scan.ledger.scan.directory ∧
        W.known pass done.1.ledger t ∧
        (done.2 = false → W.page pass [] more done.1.ledger t)) s := by
  induction items generalizing scan s with
  | nil => exact keeps_ret ⟨rfl, hknown, fun _ => hpage⟩
  | cons seen rest ih =>
    obtain ⟨hknown', hpage'⟩ := W.sees hknown hpage
    refine keeps_bind (keeps_saveOften (scan.see pass seen) hknown') fun saved t hsaved => ?_
    obtain ⟨hledger, hst⟩ := hsaved
    have hsame : saved.ledger.scan.directory = scan.ledger.scan.directory := by
      rw [hledger]
      rfl
    refine keeps_bind keeps_spent fun stop u htu => ?_
    have hk : W.known pass saved.ledger u := by
      rw [hledger]
      exact W.known_later hknown' (W.trans hst htu)
    have hp : W.page pass rest more saved.ledger u := by
      rw [hledger]
      exact W.page_later hpage' (W.trans hst htu)
    cases stop with
    | true => exact keeps_ret ⟨hsame, hk, fun h => (by cases h)⟩
    | false =>
      have hrest := ih hk hp
      rw [hsame] at hrest
      exact hrest

theorem keeps_scanDirectory (options : OrphanCollectionOptions) (deadline : ℤ)
    {directory : String} (pages : ℕ) {scan : OrphanScan}
    (hdirectory : orphanDirectories[scan.ledger.scan.directory]? = some directory)
    (hknown : W.known pass scan.ledger s) :
    W.keeps k (scanDirectory options pass deadline (objectPath root directory) pages scan)
      (fun done t => done.1.ledger.scan.directory = scan.ledger.scan.directory ∧
        W.known pass done.1.ledger t ∧
        (done.2 = .exhausted → W.page pass [] false done.1.ledger t)) s := by
  induction pages generalizing scan s with
  | zero => exact keeps_ret ⟨rfl, hknown, fun h => (by cases h)⟩
  | succ pages ih =>
    refine keeps_bind (W := W) (R := fun r t => W.known pass scan.ledger t ∧ ∀ items more,
      r = .ok (items, more) → W.page pass items more scan.ledger t)
      (keeps_perform fun t hst ht hasks fate => ?_) fun page t hpage => ?_
    · have hk := W.known_later hknown hst
      obtain ⟨fails, applied, version, size, deletion⟩ := fate
      cases fails with
      | true => exact ⟨ht, W.refl t, hk, fun _ _ h => (by cases h)⟩
      | false =>
        obtain ⟨hinv, hlater, hitems⟩ := W.lists (n := size) ht hk hdirectory hasks
        refine ⟨hinv, hlater, W.known_later hk hlater, fun items more h => ?_⟩
        cases h
        exact hitems
    · obtain ⟨hk, hpage⟩ := hpage
      cases page with
      | error e => exact keeps_ret ⟨rfl, hk, fun h => (by cases h)⟩
      | ok found =>
        obtain ⟨items, more⟩ := found
        refine keeps_bind (keeps_scanPage hk (hpage items more rfl)) fun done u hdone => ?_
        obtain ⟨hsame, hk', hend⟩ := hdone
        obtain ⟨scan', stopped⟩ := done
        cases stopped with
        | true => exact keeps_ret ⟨hsame, hk', fun h => (by cases h)⟩
        | false =>
          cases more with
          | true =>
            have hdirectory' :
                orphanDirectories[scan'.ledger.scan.directory]? = some directory :=
              (congrArg (orphanDirectories[·]?) hsame).trans hdirectory
            have hrest := ih hdirectory' hk'
            rw [hsame] at hrest
            exact hrest
          | false => exact keeps_ret ⟨hsame, hk', fun _ => hend rfl⟩

theorem keeps_scanCycle {options : OrphanCollectionOptions} {deadline : ℤ}
    {directories : List String} (scan : OrphanScan)
    (hdirectories : directories = orphanDirectories.drop scan.ledger.scan.directory)
    (hknown : W.known pass scan.ledger s) :
    W.keeps k (scanCycle root options pass deadline directories scan)
      (fun done t => W.later s t ∧ W.known pass done.1.ledger t) s := by
  induction directories generalizing scan s with
  | nil =>
    unfold scanCycle
    refine keeps_bind keeps_spent fun stop t hst => ?_
    have hk := W.known_later hknown hst
    cases stop with
    | true => exact keeps_ret ⟨hst, hk⟩
    | false => exact keeps_ret ⟨hst, W.closes hk (List.drop_eq_nil_iff.1 hdirectories.symm)⟩
  | cons directory rest ih =>
    unfold scanCycle
    refine keeps_bind keeps_spent fun stop t hst => ?_
    have hk := W.known_later hknown hst
    cases stop with
    | true => exact keeps_ret ⟨hst, hk⟩
    | false =>
      have hhead : orphanDirectories[scan.ledger.scan.directory]? = some directory := by
        rw [← List.head?_drop, ← hdirectories]
        rfl
      have hwalk : W.keeps k _ _ t := keeps_scanDirectory options deadline
        (options.maxScannedObjects - scan.outcome.scannedObjects) hhead hk
      have hframe := guarded_frame hwalk hst
      refine guarded_bind (R := fun done u => W.later s u ∧
          done.1.ledger.scan.directory = scan.ledger.scan.directory ∧
          W.known pass done.1.ledger u ∧
          (done.2 = .exhausted → W.page pass [] false done.1.ledger u))
        (guarded_mono hframe fun r u hr => ?_) fun done u hdone => ?_
      · cases r with
        | ok done => exact hr
        | error e => trivial
      · obtain ⟨hsu, hsame, hk', hend⟩ := hdone
        obtain ⟨scan', ending⟩ := done
        cases ending with
        | stopped => exact keeps_ret ⟨hsu, hk'⟩
        | failed => exact keeps_ret ⟨hsu, hk'⟩
        | exhausted =>
          have hdrop : rest = orphanDirectories.drop (scan'.ledger.scan.directory + 1) := by
            have hsame : scan'.ledger.scan.directory = scan.ledger.scan.directory := hsame
            rw [hsame, ← List.tail_drop, ← hdirectories]
            rfl
          have hnext : W.known pass scan'.nextDirectory.ledger u := W.ends hk' (hend rfl)
          refine guarded_mono (ih scan'.nextDirectory hdrop hnext) fun r v hr => ?_
          cases r with
          | ok result => exact ⟨W.trans hsu hr.1, hr.2⟩
          | error e => trivial

/-! ### Deleting -/

theorem tryRemove_spec {ledger : OrphanLedger} {key : String} (fate : DeletionFate)
    (hs : W.inv s) (hdue : W.due pass key s) (hknown : W.known pass ledger s) :
    W.inv (s.tryRemove pass key fate).2 ∧ W.later s (s.tryRemove pass key fate).2 ∧
      W.known pass (if (s.tryRemove pass key fate).1 = .failed then ledger else ledger.forget key)
        (s.tryRemove pass key fate).2 := by
  obtain ⟨hinv, hlater, hk⟩ := W.removes hs hdue hknown
  cases fate with
  | fails applied =>
    cases applied with
    | true => exact ⟨hinv, hlater, W.known_later hknown hlater⟩
    | false => exact ⟨hs, W.refl s, hknown⟩
  | succeeds =>
    unfold Bucket.tryRemove
    by_cases hkey : key ∈ s.objects
    · rw [if_pos hkey]
      exact ⟨hinv, hlater, hk⟩
    · rw [if_neg hkey]
      exact ⟨hs, W.refl s, W.misses hs hdue hknown hkey⟩

theorem tryRemoveAll_spec {cleared : Cleared} (fate : String → DeletionFate) {keys : List String}
    (hs : W.inv s) (hdue : ∀ key ∈ keys, W.due pass key s)
    (hknown : W.known pass cleared.ledger s) :
    W.inv (Bucket.tryRemoveAll pass fate keys s).2 ∧
      W.later s (Bucket.tryRemoveAll pass fate keys s).2 ∧
      W.known pass (cleared.notes keys (Bucket.tryRemoveAll pass fate keys s).1).ledger
        (Bucket.tryRemoveAll pass fate keys s).2 := by
  induction keys generalizing s cleared with
  | nil => exact ⟨hs, W.refl s, hknown⟩
  | cons key keys ih =>
    obtain ⟨hinv, hlater, hk⟩ :=
      tryRemove_spec (fate key) hs (hdue key List.mem_cons_self) hknown
    have hk' : W.known pass (cleared.note key (s.tryRemove pass key (fate key)).1).ledger
        (s.tryRemove pass key (fate key)).2 := by
      rw [Cleared.note_ledger]
      exact hk
    obtain ⟨hinv', hlater', hk''⟩ := ih hinv
      (fun key hkey => W.due_later (hdue key (List.mem_cons_of_mem _ hkey)) hlater) hk'
    exact ⟨hinv', W.trans hlater hlater', hk''⟩

theorem keeps_deleteChunks {deadline : ℤ} {groups : List (List String)} {cleared : Cleared}
    (hdue : ∀ group ∈ groups, ∀ key ∈ group, W.due pass key s)
    (hknown : W.known pass cleared.ledger s) :
    W.keeps k (deleteChunks pass deadline groups cleared)
      (fun cleared t => W.known pass cleared.ledger t) s := by
  induction groups generalizing cleared s with
  | nil => exact keeps_ret hknown
  | cons group groups ih =>
    refine keeps_bind (keeps_now (Q := fun _ t => W.later s t) fun _ h => h) fun time t hst => ?_
    split_ifs with htime
    · exact keeps_ret (W.known_later hknown hst)
    · refine keeps_bind (W := W) (R := fun answers u => W.later s u ∧
        W.known pass (cleared.notes group answers).ledger u)
        (keeps_perform fun u htu hu _ fate => ?_) fun answers u hanswers => ?_
      · have hsu := W.trans hst htu
        obtain ⟨hinv, hlater, hk⟩ := tryRemoveAll_spec fate.deletion hu
          (fun key hkey => W.due_later (hdue group List.mem_cons_self key hkey) hsu)
          (W.known_later hknown hsu)
        exact ⟨hinv, hlater, W.trans hsu hlater, hk⟩
      · obtain ⟨hsu, hk⟩ := hanswers
        split_ifs
        · exact keeps_ret hk
        · exact ih (fun group' hgroup key hkey =>
            W.due_later (hdue group' (List.mem_cons_of_mem _ hgroup) key hkey) hsu) hk

theorem keeps_finish {scanFailed : Bool} {cleared : Cleared}
    (hknown : W.known pass cleared.ledger s) :
    W.keeps k (finish scanFailed cleared) (fun _ _ => True) s := by
  refine keeps_bind (keeps_storeOrphanLedger hknown) fun _ t _ => ?_
  dsimp only
  split_ifs
  · exact keeps_throw
  · exact keeps_throw
  · exact keeps_ret trivial

/-! ### A pass -/

theorem keeps_collectFrom {options : OrphanCollectionOptions} {startedAt : ℤ}
    {ledger : OrphanLedger} (hknown : W.known pass ledger s)
    (hdue : ∀ key ∈ ledger.deletable pass, W.due pass key s) :
    W.keeps k (collectFrom root options pass startedAt ledger) (fun _ _ => True) s := by
  refine keeps_bind (keeps_scanCycle (.start ledger) rfl hknown) fun scanned t hscanned => ?_
  obtain ⟨hst, hk⟩ := hscanned
  refine keeps_bind (R := fun cleared u => W.known pass cleared.ledger u) ?_
    fun cleared u hcleared => keeps_finish hcleared
  unfold clear
  split_ifs
  · exact keeps_ret hk
  · refine keeps_deleteChunks (fun group hgroup key hkey => ?_) hk
    exact W.due_later
      (hdue key (mem_of_planDeletions (mem_of_mem_chunks hgroup key hkey))) hst

/-- **A pass** keeps the invariant, whatever else is going on. -/
theorem guarded_collectOrphans {options : OrphanCollectionOptions}
    (hgrace : W.grace options.gracePeriod) :
    W.keeps k (collectOrphans root options) (fun _ _ => True) s := by
  refine keeps_bind (keeps_now (Q := fun (now : ℤ) t => now ≤ t.clock) fun t _ => le_rfl)
    fun (now : ℤ) t (hnow : now ≤ t.clock) => ?_
  refine keeps_bind (keeps_now (Q := fun _ u => now ≤ u.clock) fun u htu =>
    le_trans hnow (W.clock htu)) fun startedAt u hu => ?_
  refine keeps_bind (keeps_activeObjectKeys hu) fun active v hactive => ?_
  obtain ⟨logs, traces, metrics, rfl, hlogs, htraces, hmetrics⟩ := hactive
  split_ifs
  · exact keeps_throw
  · have hloaded : W.keeps k loadOrphanLedger (fun ledger t => W.later v t ∧
        W.known (.of root now options.gracePeriod logs traces metrics) ledger t) v :=
      keeps_loadOrphanLedger hlogs htraces hmetrics
    refine keeps_bind hloaded fun ledger w hledger => ?_
    obtain ⟨hvw, hk⟩ := hledger
    exact keeps_collectFrom hk fun key hkey => W.dues hgrace (W.read_later hlogs hvw)
      (W.read_later htraces hvw) (W.read_later hmetrics hvw) hk hkey

theorem guarded_gcProgram (job : GcJob) {s : Bucket} (hbegins : W.contract.begins job s) :
    (gcProgram root job).guarded (gcDevice root lag) W.contract job (fun _ _ => True) s := by
  have hkeeps : W.keeps job (gcProgram root job) (fun _ _ => True) s := by
    cases job with
    | collect options => exact guarded_collectOrphans hbegins
    | put object =>
      refine keeps_bind (W := W) (R := fun _ _ => True) (keeps_perform fun t _ ht hasks _ => ?_)
        fun _ _ _ => keeps_ret trivial
      exact ⟨(W.puts ht hasks).1, (W.puts ht hasks).2, trivial⟩
    | commit signal parts =>
      refine keeps_bind (W := W) (R := fun _ _ => True) (keeps_perform fun t _ ht hasks _ => ?_)
        fun _ _ _ => keeps_ret trivial
      exact ⟨(W.commits ht hasks).1, (W.commits ht hasks).2, trivial⟩
    | wait time =>
      refine keeps_bind (W := W) (R := fun _ _ => True) (keeps_perform fun t _ ht _ _ => ?_)
        fun _ _ _ => keeps_ret trivial
      exact ⟨(W.waits ht).1, (W.waits ht).2, trivial⟩
  exact guarded_mono hkeeps fun _ _ _ => trivial

/-- Passes have a grace period that there is, and every request is made when it may be. -/
def Heeds (W : Sweep root lag) (c : GcCrew) (turn : Turn GcJob GcFate) (_ : GcCrew) : Prop :=
  W.contract.Admits c turn

theorem heeds_start {c c' : GcCrew} {job : GcJob} :
    W.Heeds c (.start job) c' ↔ W.contract.begins job c.shared :=
  ⟨fun h => h.1, fun h => ⟨h, fun _ _ => ⟨trivial, trivial⟩⟩⟩

instance decidableHeeds (W : Sweep root lag) [∀ s op, Decidable (W.asks s op)]
    [DecidablePred W.grace] (c : GcCrew) (turn : Turn GcJob GcFate) (c' : GcCrew) :
    Decidable (W.Heeds c turn c') :=
  match turn with
  | .start (.collect options) =>
    have : Decidable (W.contract.begins (.collect options) c.shared) :=
      inferInstanceAs (Decidable (W.grace options.gracePeriod))
    decidable_of_iff _ heeds_start.symm
  | .start (.put _) | .start (.commit _ _) | .start (.wait _) => isTrue (heeds_start.2 trivial)
  | .move i _ => inferInstanceAs
      (Decidable (∀ t ∈ c.tasks[i]?, ∀ op ∈ t.rest.next, W.asks c.shared op))
  | .kill _ => isTrue trivial

/-- **Runs** of any number of passes and other parties keep the invariant. -/
theorem run {s : Bucket} (hs : W.inv s) {turns : List (Turn GcJob GcFate)} {c : GcCrew}
    (hheeds : (gcMachine root lag).Within W.Heeds (Contract.Crew.idle s) turns)
    (hrun : (gcMachine root lag).run (Contract.Crew.idle s) turns = some c) : W.inv c.shared :=
  (Contract.run (C := W.contract) (fun job _ _ hbegins => guarded_gcProgram job hbegins) hs hheeds
    hrun).inv

end Sweep

end Catalog

end Obsy
