import Mathlib.Data.List.Forall2

/-!
# Computations that may fail

* `exists_of_bind`, `exists_of_map`: a sequence that succeeds has a first result.
* `forall₂_of_mapM`, `mapM_ok`: a step over every item.
* `exists_of_foldlM`, `foldlM_invariant`: what the steps of a fold do, and what every one keeps.
* `forall₂_of_mapM_some`: a step over every item that may have no result.
-/

namespace Obsy

namespace Runs

theorem exists_of_bind.{u, v} {α β : Type u} {ε : Type v} {x : Except ε α} {f : α → Except ε β} {b : β}
    (h : x >>= f = .ok b) : ∃ a, x = .ok a ∧ f a = .ok b := by
  cases x with
  | error e => cases h
  | ok a => exact ⟨a, rfl, h⟩

theorem exists_of_map {α β ε : Type*} {x : Except ε α} {f : α → β} {b : β} (h : x.map f = .ok b) :
    ∃ a, x = .ok a ∧ f a = b := by
  cases x with
  | error e => cases h
  | ok a => exact ⟨a, rfl, Except.ok.inj h⟩

theorem of_mapError_ok {α ε ε' : Type*} {x : Except ε α} {f : ε → ε'} {a : α}
    (h : x.mapError f = .ok a) : x = .ok a := by
  cases x with
  | error e => cases h
  | ok b => exact congrArg _ (Except.ok.inj h)

theorem exists_of_isOk {α ε : Type} {x : Except ε α} (h : x.isOk = true) : ∃ a, x = .ok a := by
  cases x with
  | error e => cases h
  | ok a => exact ⟨a, rfl⟩

theorem forall₂_of_mapM {α β ε : Type} {f : α → Except ε β} {items : List α} {results : List β}
    (h : items.mapM f = .ok results) : List.Forall₂ (fun a b => f a = .ok b) items results := by
  induction items generalizing results with
  | nil => obtain rfl := Except.ok.inj h; exact .nil
  | cons a items ih =>
    rw [List.mapM_cons] at h
    cases ha : f a with
    | error e => rw [ha] at h; cases h
    | ok b =>
      cases hrest : items.mapM f with
      | error e => rw [ha, hrest] at h; cases h
      | ok bs =>
        rw [ha, hrest] at h
        obtain rfl := Except.ok.inj h
        exact .cons ha (ih hrest)

/-- Each of the one side has one of the other. -/
theorem exists_right {α β : Type*} {R : α → β → Prop} {items : List α} {results : List β}
    (h : List.Forall₂ R items results) {item : α} (hitem : item ∈ items) :
    ∃ result ∈ results, R item result := by
  induction h with
  | nil => cases hitem
  | cons hfirst _ ih =>
    rcases List.mem_cons.1 hitem with rfl | hitem
    · exact ⟨_, List.mem_cons_self, hfirst⟩
    · obtain ⟨result, hresult, hstep⟩ := ih hitem
      exact ⟨result, List.mem_cons_of_mem _ hresult, hstep⟩

theorem exists_left {α β : Type*} {R : α → β → Prop} {items : List α} {results : List β}
    (h : List.Forall₂ R items results) {result : β} (hresult : result ∈ results) :
    ∃ item ∈ items, R item result :=
  exists_right h.flip hresult

/-- A step over every item that succeeds has a result for each. -/
theorem exists_of_mapM {α β ε : Type} {f : α → Except ε β} {items : List α} {results : List β}
    (h : items.mapM f = .ok results) {item : α} (hitem : item ∈ items) :
    ∃ result ∈ results, f item = .ok result :=
  exists_right (forall₂_of_mapM h) hitem

/-- Every result is that of an item. -/
theorem exists_of_mem_mapM {α β ε : Type} {f : α → Except ε β} {items : List α} {results : List β}
    (h : items.mapM f = .ok results) {result : β} (hresult : result ∈ results) :
    ∃ item ∈ items, f item = .ok result :=
  exists_left (forall₂_of_mapM h) hresult

/-- Items are read back one by one. -/
theorem mapM_map_of_ok {α β ε : Type} {f : α → Except ε β} {g : β → α} {items : List β}
    (h : ∀ item ∈ items, f (g item) = .ok item) : (items.map g).mapM f = .ok items := by
  induction items with
  | nil => rfl
  | cons item items ih =>
    rw [List.map_cons, List.mapM_cons, h item List.mem_cons_self,
      ih fun other hother => h other (List.mem_cons_of_mem _ hother)]
    rfl

theorem mapM_ok {α β ε : Type} {f : α → Except ε β} {items : List α}
    (h : ∀ a ∈ items, ∃ b, f a = .ok b) : ∃ results, items.mapM f = .ok results := by
  induction items with
  | nil => exact ⟨[], rfl⟩
  | cons a items ih =>
    obtain ⟨b, hb⟩ := h a List.mem_cons_self
    obtain ⟨bs, hbs⟩ := ih fun a ha => h a (List.mem_cons_of_mem _ ha)
    exact ⟨b :: bs, by rw [List.mapM_cons, hb, hbs]; rfl⟩

/-- A fold that succeeds has done its step at every item. -/
theorem exists_of_foldlM {α ε σ : Type} {step : σ → α → Except ε σ} {items : List α} {s s' : σ}
    (h : items.foldlM step s = .ok s') {item : α} (hitem : item ∈ items) :
    ∃ before after, step before item = .ok after := by
  induction items generalizing s with
  | nil => cases hitem
  | cons first items ih =>
    obtain ⟨middle, hfirst, hrest⟩ := exists_of_bind h
    rcases List.mem_cons.1 hitem with rfl | hitem
    · exact ⟨s, middle, hfirst⟩
    · exact ih hrest hitem

/-- Steps that succeed at least as often. -/
theorem foldlM_mono {α ε σ : Type} {f g : σ → α → Except ε σ} (h : ∀ s a s', f s a = .ok s' →
    g s a = .ok s') {items : List α} {s s' : σ} (hf : items.foldlM f s = .ok s') :
    items.foldlM g s = .ok s' := by
  induction items generalizing s with
  | nil => exact hf
  | cons item items ih =>
    obtain ⟨middle, hfirst, hrest⟩ := exists_of_bind hf
    rw [List.foldlM_cons, h s item middle hfirst]
    exact ih hrest

/-- A fold over the items of items. -/
theorem foldlM_flatMap {α β ε σ : Type*} (f : α → List β) (step : σ → β → Except ε σ)
    (items : List α) (s : σ) :
    (items.flatMap f).foldlM step s = items.foldlM (fun s item => (f item).foldlM step s) s := by
  induction items generalizing s with
  | nil => rfl
  | cons item items ih =>
    rw [List.flatMap_cons, List.foldlM_append, List.foldlM_cons]
    congr 1
    funext s
    exact ih s

/-- **The invariant rule for folds.**  The items taken so far grow by one with every step. -/
theorem foldlM_invariant {α ε σ : Type} {step : σ → α → Except ε σ} {P : σ → List α → Prop}
    (hstep : ∀ s items item s', P s items → step s item = .ok s' → P s' (items ++ [item]))
    {s s' : σ} {before items : List α} (hs : P s before) (h : items.foldlM step s = .ok s') :
    P s' (before ++ items) := by
  induction items generalizing s before with
  | nil =>
    obtain rfl := Except.ok.inj h
    rwa [List.append_nil]
  | cons item items ih =>
    obtain ⟨middle, hitem, hrest⟩ := exists_of_bind h
    have := ih (hstep s before item middle hs hitem) hrest
    rwa [List.append_assoc] at this

/-- What every step keeps a fold keeps. -/
theorem foldlM_induction {α ε σ : Type} {step : σ → α → Except ε σ} {P : σ → Prop} {items : List α}
    (hstep : ∀ s, ∀ item ∈ items, ∀ s', P s → step s item = .ok s' → P s') {s s' : σ} (hs : P s)
    (h : items.foldlM step s = .ok s') : P s' := by
  induction items generalizing s with
  | nil =>
    obtain rfl := Except.ok.inj h
    exact hs
  | cons item items ih =>
    obtain ⟨middle, hitem, hrest⟩ := exists_of_bind h
    exact ih (fun s other hother => hstep s other (List.mem_cons_of_mem _ hother))
      (hstep s item List.mem_cons_self middle hs hitem) hrest

/-! ### Results that may be absent -/

theorem forall₂_of_mapM_some {α β : Type*} {f : α → Option β} {items : List α} {results : List β}
    (h : items.mapM f = some results) : List.Forall₂ (fun a b => f a = some b) items results := by
  induction items generalizing results with
  | nil =>
    obtain rfl := Option.some.inj h
    exact .nil
  | cons first items ih =>
    rw [List.mapM_cons, Option.bind_eq_bind, Option.bind_eq_some_iff] at h
    obtain ⟨result, hfirst, h⟩ := h
    obtain ⟨results, hrest, h⟩ := Option.bind_eq_some_iff.1 h
    obtain rfl := Option.some.inj h
    exact .cons hfirst (ih hrest)

theorem mem_of_mapM_some {α β : Type*} {f : α → Option β} {items : List α} {results : List β}
    (h : items.mapM f = some results) {item : α} (hitem : item ∈ items) :
    ∃ result ∈ results, f item = some result :=
  exists_right (forall₂_of_mapM_some h) hitem

theorem exists_of_mapM_some {α β : Type*} {f : α → Option β} {items : List α} {results : List β}
    (h : items.mapM f = some results) {result : β} (hresult : result ∈ results) :
    ∃ item ∈ items, f item = some result :=
  exists_left (forall₂_of_mapM_some h) hresult

theorem length_of_mapM_some {α β : Type*} {f : α → Option β} {items : List α} {results : List β}
    (h : items.mapM f = some results) : results.length = items.length :=
  (forall₂_of_mapM_some h).length_eq.symm

theorem getElem?_of_mapM_some {α β : Type*} {f : α → Option β} {items : List α}
    {results : List β} (h : items.mapM f = some results) (i : ℕ) :
    (items[i]?).bind f = results[i]? := by
  have hall := forall₂_of_mapM_some h
  clear h
  induction hall generalizing i with
  | nil => rfl
  | cons hfirst _ ih =>
    cases i with
    | zero => simpa using hfirst
    | succ i => simpa using ih i

theorem mapM_some_congr {α β : Type*} {f g : α → Option β} {items : List α}
    (h : ∀ item ∈ items, f item = g item) : items.mapM f = items.mapM g := by
  induction items with
  | nil => rfl
  | cons item items ih =>
    rw [List.mapM_cons, List.mapM_cons, h item List.mem_cons_self,
      ih fun other hother => h other (List.mem_cons_of_mem _ hother)]

end Runs

end Obsy
