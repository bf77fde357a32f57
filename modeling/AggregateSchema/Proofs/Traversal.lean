import Mathlib.Data.List.Forall2

/-! Traversals of a list, some of which may fail. -/
namespace AggregateSchema

variable {α β ε : Type}

theorem bind_eq_ok_iff {x : Except ε α} {f : α → Except ε β} {y : β} :
    x >>= f = .ok y ↔ ∃ a, x = .ok a ∧ f a = .ok y := by
  cases x with
  | error e => simp [bind, Except.bind]
  | ok a => simp [bind, Except.bind]

/-- What follows a computation counts only for the result that it has. -/
theorem bind_congr_of_ok {x : Except ε α} {f g : α → Except ε β}
    (h : ∀ a, x = .ok a → f a = g a) : x >>= f = x >>= g := by
  cases x with
  | error e => rfl
  | ok a => exact h a rfl

theorem map_eq_ok_iff {x : Except ε α} {f : α → β} {y : β} :
    x.map f = .ok y ↔ ∃ a, x = .ok a ∧ f a = y := by
  cases x with
  | error e => simp [Except.map]
  | ok a => simp [Except.map]

/-- What is computed without failure can be evaluated. -/
theorem exists_ok_of_any (x : Except ε α) (p : α → Bool) (h : x.toOption.any p = true) :
    ∃ a, x = .ok a ∧ p a = true := by
  cases x with
  | error e => cases h
  | ok a => exact ⟨a, rfl, h⟩

theorem exists_error_of_any (x : Except ε α) (p : ε → Bool)
    (h : (match x with | .error e => p e | .ok _ => false) = true) : ∃ e, x = .error e ∧ p e = true := by
  cases x with
  | error e => exact ⟨e, rfl, h⟩
  | ok a => cases h

/-- A traversal succeeds exactly with the results of all items, in order. -/
theorem mapM_eq_ok_iff {f : α → Except ε β} {xs : List α} {ys : List β} :
    xs.mapM f = .ok ys ↔ List.Forall₂ (fun x y => f x = .ok y) xs ys := by
  induction xs generalizing ys with
  | nil => simp [pure, Except.pure, eq_comm]
  | cons x xs ih =>
    simp only [List.mapM_cons, List.forall₂_cons_left_iff, bind_eq_ok_iff, ih, pure, Except.pure,
      Except.ok.injEq]
    constructor
    · rintro ⟨y, hy, zs, hzs, rfl⟩
      exact ⟨y, zs, hy, hzs, rfl⟩
    · rintro ⟨y, zs, hy, hzs, rfl⟩
      exact ⟨y, hy, zs, hzs, rfl⟩

theorem mapM_eq_ok_map {f : α → Except ε β} {g : α → β} {xs : List α}
    (h : ∀ x ∈ xs, f x = .ok (g x)) : xs.mapM f = .ok (xs.map g) := by
  rw [mapM_eq_ok_iff, List.forall₂_map_right_iff]
  exact List.forall₂_same.2 h

theorem mapM_congr {f g : α → Except ε β} {xs : List α} (h : ∀ x ∈ xs, f x = g x) :
    xs.mapM f = xs.mapM g := by
  induction xs with
  | nil => rfl
  | cons x xs ih =>
    rw [List.mapM_cons, List.mapM_cons, h x List.mem_cons_self,
      ih fun y hy => h y (List.mem_cons_of_mem x hy)]

/-- Going through blocks in turn goes through all their items. -/
theorem foldlM_flatMap {γ : Type} (f : α → List β) (g : γ → β → Except ε γ) (xs : List α) (c : γ) :
    (xs.flatMap f).foldlM g c = xs.foldlM (fun c x => (f x).foldlM g c) c := by
  induction xs generalizing c with
  | nil => rfl
  | cons x xs ih =>
    rw [List.flatMap_cons, List.foldlM_append, List.foldlM_cons]
    exact bind_congr fun c => ih c

theorem foldlM_congr {γ : Type} {f g : γ → α → Except ε γ} {xs : List α}
    (h : ∀ x ∈ xs, ∀ c, f c x = g c x) (c : γ) : xs.foldlM f c = xs.foldlM g c := by
  induction xs generalizing c with
  | nil => rfl
  | cons x xs ih =>
    rw [List.foldlM_cons, List.foldlM_cons, h x List.mem_cons_self]
    exact bind_congr fun c => ih (fun y hy => h y (List.mem_cons_of_mem x hy)) c

section Runs
variable {γ : Type} {f : γ → α → Except ε γ} {xs ys : List α} {x : α} {a b : γ}

theorem foldlM_cons_of_ok (h : f a x = .ok b) : (x :: xs).foldlM f a = xs.foldlM f b := by
  rw [List.foldlM_cons, h]
  rfl

theorem foldlM_append_of_ok (h : xs.foldlM f a = .ok b) : (xs ++ ys).foldlM f a = ys.foldlM f b := by
  rw [List.foldlM_append, h]
  rfl

/-- A run fails at the first item that fails. -/
theorem foldlM_eq_error_iff {e : ε} : xs.foldlM f a = .error e ↔
    ∃ before x after b, xs = before ++ x :: after ∧ before.foldlM f a = .ok b ∧ f b x = .error e := by
  constructor
  · intro h
    induction xs generalizing a with
    | nil => cases h
    | cons x xs ih =>
      rw [List.foldlM_cons] at h
      cases hx : f a x with
      | error p =>
        rw [hx] at h
        obtain rfl := Except.error.inj h
        exact ⟨[], x, xs, a, rfl, rfl, hx⟩
      | ok b =>
        rw [hx] at h
        obtain ⟨before, y, after, c, rfl, hc, hy⟩ := ih h
        exact ⟨x :: before, y, after, c, rfl, (foldlM_cons_of_ok hx).trans hc, hy⟩
  · rintro ⟨before, x, after, b, rfl, hb, hx⟩
    rw [foldlM_append_of_ok hb, List.foldlM_cons, hx]
    rfl

end Runs

theorem exists_of_mapM_eq_singleton {f : α → Except ε β} {xs : List α} {y : β}
    (h : xs.mapM f = .ok [y]) : ∃ x, xs = [x] ∧ f x = .ok y := by
  obtain ⟨x, rest, hx, hrest, rfl⟩ := List.forall₂_cons_right_iff.1 (mapM_eq_ok_iff.1 h)
  obtain rfl := List.forall₂_nil_right_iff.1 hrest
  exact ⟨x, rfl, hx⟩

theorem mapM_eq_some_iff {f : α → Option β} {xs : List α} {ys : List β} :
    xs.mapM f = some ys ↔ List.Forall₂ (fun x y => f x = some y) xs ys := by
  induction xs generalizing ys with
  | nil => simp [eq_comm]
  | cons x xs ih =>
    simp only [List.mapM_cons, List.forall₂_cons_left_iff, Option.bind_eq_bind,
      Option.bind_eq_some_iff, ih, Option.pure_def, Option.some.injEq]
    constructor
    · rintro ⟨y, hy, zs, hzs, rfl⟩
      exact ⟨y, zs, hy, hzs, rfl⟩
    · rintro ⟨y, zs, hy, hzs, rfl⟩
      exact ⟨y, hy, zs, hzs, rfl⟩

/-- Related items that are the values of a function are its image. -/
theorem eq_map_of_forall₂ {R : α → β → Prop} {f : α → β} {xs : List α} {ys : List β}
    (h : List.Forall₂ R xs ys) (hf : ∀ x ∈ xs, ∀ y, R x y → y = f x) : ys = xs.map f := by
  induction h with
  | nil => rfl
  | cons hxy _ ih =>
    rw [List.map_cons, hf _ List.mem_cons_self _ hxy,
      ih fun x hx => hf x (List.mem_cons_of_mem _ hx)]

theorem map_eq_map_of_forall₂ {γ : Type} {R : α → β → Prop} {f : α → γ} {h : β → γ} {xs : List α}
    {ys : List β} (hR : List.Forall₂ R xs ys) (hf : ∀ x y, R x y → f x = h y) :
    xs.map f = ys.map h := by
  rw [← List.forall₂_eq_eq_eq, List.forall₂_map_left_iff, List.forall₂_map_right_iff]
  exact hR.imp hf

/-- A search that finds something for every item finds as much in the same order. -/
theorem forall₂_filterMap {γ : Type} {R : α → β → Prop} {Q : α → γ → Prop} {f : β → Option γ}
    {xs : List α} {ys : List β} (hR : List.Forall₂ R xs ys)
    (hf : ∀ x y, R x y → ∃ z, f y = some z ∧ Q x z) : List.Forall₂ Q xs (ys.filterMap f) := by
  induction hR with
  | nil => exact .nil
  | cons hxy _ ih =>
    obtain ⟨z, hz, hq⟩ := hf _ _ hxy
    rw [List.filterMap_cons_some hz]
    exact .cons hq ih

theorem exists_of_mem_left {R : α → β → Prop} {xs : List α} {ys : List β}
    (h : List.Forall₂ R xs ys) {x : α} (hx : x ∈ xs) : ∃ y ∈ ys, R x y := by
  induction h with
  | nil => cases hx
  | cons hxy _ ih =>
    rcases List.mem_cons.1 hx with rfl | hx
    · exact ⟨_, List.mem_cons_self, hxy⟩
    · obtain ⟨y, hy, hr⟩ := ih hx
      exact ⟨y, List.mem_cons_of_mem _ hy, hr⟩

theorem exists_of_mem_right {R : α → β → Prop} {xs : List α} {ys : List β}
    (h : List.Forall₂ R xs ys) {y : β} (hy : y ∈ ys) : ∃ x ∈ xs, R x y :=
  exists_of_mem_left h.flip hy

theorem exists_ite_ok_iff {p : Prop} [Decidable p] {a : α} {e : ε} :
    (∃ b, (if p then .ok a else .error e : Except ε α) = .ok b) ↔ p := by
  by_cases h : p <;> simp [h]

theorem exists_ite_error_iff {p : Prop} [Decidable p] {a : α} {e : ε} :
    (∃ b, (if p then .error e else .ok a : Except ε α) = .ok b) ↔ ¬ p := by
  by_cases h : p <;> simp [h]

/-- A sequence of two steps succeeds if both do. -/
theorem exists_bind_iff {x : Except ε α} {f : α → Except ε β} :
    (∃ y, x >>= f = .ok y) ↔ ∃ a, x = .ok a ∧ ∃ y, f a = .ok y := by
  simp only [bind_eq_ok_iff]
  exact exists_comm.trans (exists_congr fun a => exists_and_left)

theorem exists_forall₂_iff {R : α → β → Prop} {xs : List α} :
    (∃ ys, List.Forall₂ R xs ys) ↔ ∀ x ∈ xs, ∃ y, R x y := by
  constructor
  · rintro ⟨ys, h⟩ x hx
    obtain ⟨y, _, hy⟩ := exists_of_mem_left h hx
    exact ⟨y, hy⟩
  · intro h
    induction xs with
    | nil => exact ⟨[], List.Forall₂.nil⟩
    | cons x xs ih =>
      obtain ⟨y, hy⟩ := h x List.mem_cons_self
      obtain ⟨ys, hys⟩ := ih fun z hz => h z (List.mem_cons_of_mem x hz)
      exact ⟨y :: ys, hys.cons hy⟩

/-- A traversal succeeds if every item does. -/
theorem exists_mapM_iff {f : α → Except ε β} {xs : List α} :
    (∃ ys, xs.mapM f = .ok ys) ↔ ∀ x ∈ xs, ∃ y, f x = .ok y := by
  simp only [mapM_eq_ok_iff, exists_forall₂_iff]

theorem exists_of_mapM_eq_error {f : α → Except ε β} {xs : List α} {e : ε}
    (h : xs.mapM f = .error e) : ∃ x ∈ xs, f x = .error e := by
  induction xs with
  | nil => cases h
  | cons x xs ih =>
    rw [List.mapM_cons] at h
    cases hx : f x with
    | error e' =>
      exact ⟨x, List.mem_cons_self, hx.trans (by simpa [hx, bind, Except.bind] using h)⟩
    | ok y =>
      cases hxs : xs.mapM f with
      | error e' =>
        obtain ⟨z, hz, hze⟩ := ih (hxs.trans (by simpa [hx, hxs, bind, Except.bind] using h))
        exact ⟨z, List.mem_cons_of_mem x hz, hze⟩
      | ok ys => simp [hx, hxs, bind, Except.bind, pure, Except.pure] at h

theorem exists_mapM_option_iff {f : α → Option β} {xs : List α} :
    (∃ ys, xs.mapM f = some ys) ↔ ∀ x ∈ xs, ∃ y, f x = some y := by
  simp only [mapM_eq_some_iff, exists_forall₂_iff]

/-- Blocks for the items of each list are blocks for all items. -/
theorem exists_flatten_eq {γ : Type} {R : γ → List β → Prop} {f : α → List γ} {xs : List α}
    {ys : List (List β)}
    (h : List.Forall₂ (fun x y => ∃ blocks, y = blocks.flatten ∧ List.Forall₂ R (f x) blocks)
      xs ys) :
    ∃ blocks, ys.flatten = blocks.flatten ∧ List.Forall₂ R (xs.flatMap f) blocks := by
  induction h with
  | nil => exact ⟨[], rfl, List.Forall₂.nil⟩
  | cons hx _ ih =>
    obtain ⟨first, rfl, hf⟩ := hx
    obtain ⟨rest, hr, hrest⟩ := ih
    refine ⟨first ++ rest, ?_, ?_⟩
    · rw [List.flatten_cons, hr, List.flatten_append]
    · rw [List.flatMap_cons]
      exact List.rel_append hf hrest

/-- Items of two blocks for each entry are related in order if those of each entry are. -/
theorem forall₂_flatMap {γ : Type} {R : β → γ → Prop} {f : α → List β} {h : α → List γ}
    {xs : List α} (hR : ∀ x ∈ xs, List.Forall₂ R (f x) (h x)) :
    List.Forall₂ R (xs.flatMap f) (xs.flatMap h) := by
  rw [List.flatMap_def, List.flatMap_def]
  refine List.rel_flatten ?_
  rw [List.forall₂_map_left_iff, List.forall₂_map_right_iff, List.forall₂_same]
  exact hR

/-- A choice between some items and none is a filter. -/
theorem flatMap_ite_nil (p : α → Bool) (f : α → List β) (xs : List α) :
    (xs.flatMap fun x => if p x then f x else []) = (xs.filter p).flatMap f := by
  induction xs with
  | nil => rfl
  | cons x xs ih => by_cases h : p x <;> simp [h, ih]

end AggregateSchema
