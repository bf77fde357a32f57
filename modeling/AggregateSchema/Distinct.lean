/-! First occurrences and repetitions in a list, told apart by a key. -/
namespace AggregateSchema

variable {α κ : Type} [DecidableEq κ]

/-- The items whose key is neither among `seen` nor that of an earlier item. -/
def firstsAfter (key : α → κ) (seen : List κ) : List α → List α
  | [] => []
  | x :: xs =>
    if key x ∈ seen then firstsAfter key seen xs
    else x :: firstsAfter key (key x :: seen) xs

/-- The items left out by `firstsAfter`. -/
def repeatsAfter (key : α → κ) (seen : List κ) : List α → List α
  | [] => []
  | x :: xs =>
    if key x ∈ seen then x :: repeatsAfter key seen xs
    else repeatsAfter key (key x :: seen) xs

/-- The first item of each key. -/
def firsts (key : α → κ) (xs : List α) : List α := firstsAfter key [] xs

/-- Every item whose key an earlier item has. -/
def repeats (key : α → κ) (xs : List α) : List α := repeatsAfter key [] xs

theorem firstsAfter_sublist (key : α → κ) (seen : List κ) (xs : List α) :
    (firstsAfter key seen xs).Sublist xs := by
  induction xs generalizing seen with
  | nil => exact List.Sublist.slnil
  | cons x xs ih =>
    rw [firstsAfter]
    split
    · exact (ih seen).cons x
    · exact (ih _).cons_cons x

theorem firsts_sublist (key : α → κ) (xs : List α) : (firsts key xs).Sublist xs :=
  firstsAfter_sublist key [] xs

theorem not_mem_of_mem_firstsAfter {key : α → κ} {seen : List κ} {xs : List α} {x : α}
    (h : x ∈ firstsAfter key seen xs) : key x ∉ seen := by
  induction xs generalizing seen with
  | nil => simp [firstsAfter] at h
  | cons y ys ih =>
    rw [firstsAfter] at h
    split at h
    · exact ih h
    · rename_i hy
      rcases List.mem_cons.1 h with rfl | h
      · exact hy
      · exact fun hx => ih h (List.mem_cons_of_mem _ hx)

theorem firstsAfter_pairwise (key : α → κ) (seen : List κ) (xs : List α) :
    ((firstsAfter key seen xs).map key).Nodup := by
  induction xs generalizing seen with
  | nil => simp [firstsAfter]
  | cons x xs ih =>
    rw [firstsAfter]
    split
    · exact ih seen
    · rw [List.map_cons, List.nodup_cons]
      refine ⟨fun h => ?_, ih _⟩
      obtain ⟨y, hy, he⟩ := List.mem_map.1 h
      exact not_mem_of_mem_firstsAfter hy (by simp [he])

theorem nodup_map_firsts (key : α → κ) (xs : List α) : ((firsts key xs).map key).Nodup :=
  firstsAfter_pairwise key [] xs

theorem repeatsAfter_eq_nil_iff (key : α → κ) (seen : List κ) (xs : List α) :
    repeatsAfter key seen xs = [] ↔ (∀ x ∈ xs, key x ∉ seen) ∧ (xs.map key).Nodup := by
  induction xs generalizing seen with
  | nil => simp [repeatsAfter]
  | cons x xs ih =>
    rw [repeatsAfter]
    split
    · simp_all
    · rename_i hx
      rw [ih]
      simp only [List.mem_cons, not_or, forall_eq_or_imp, List.map_cons, List.nodup_cons,
        List.mem_map, not_exists, not_and]
      constructor
      · rintro ⟨h, hn⟩
        exact ⟨⟨hx, fun y hy => (h y hy).2⟩, fun y hy => (h y hy).1, hn⟩
      · rintro ⟨⟨_, h⟩, hk, hn⟩
        exact ⟨fun y hy => ⟨hk y hy, h y hy⟩, hn⟩

theorem repeats_eq_nil_iff (key : α → κ) (xs : List α) :
    repeats key xs = [] ↔ (xs.map key).Nodup := by
  simp [repeats, repeatsAfter_eq_nil_iff]

theorem firstsAfter_eq_self {key : α → κ} {seen : List κ} {xs : List α}
    (h : ∀ x ∈ xs, key x ∉ seen) (hn : (xs.map key).Nodup) : firstsAfter key seen xs = xs := by
  induction xs generalizing seen with
  | nil => rfl
  | cons x xs ih =>
    obtain ⟨hx, hn⟩ := List.nodup_cons.1 hn
    rw [firstsAfter, if_neg (h x List.mem_cons_self), ih _ hn]
    intro y hy hk
    rcases List.mem_cons.1 hk with hk | hk
    · exact hx (List.mem_map.2 ⟨y, hy, hk⟩)
    · exact h y (List.mem_cons_of_mem _ hy) hk

theorem firsts_eq_self {key : α → κ} {xs : List α} (h : (xs.map key).Nodup) :
    firsts key xs = xs :=
  firstsAfter_eq_self (by simp) h

theorem mem_firstsAfter_iff {key : α → κ} {seen : List κ} {xs : List α} {x : α} :
    x ∈ firstsAfter key seen xs ↔ key x ∉ seen ∧ xs.find? (key · = key x) = some x := by
  induction xs generalizing seen with
  | nil => simp [firstsAfter]
  | cons y ys ih =>
    rw [firstsAfter, List.find?_cons]
    by_cases hk : key y = key x
    · by_cases hy : key y ∈ seen
      · simp [hk, hk ▸ hy, ih]
      · rw [if_neg hy, List.mem_cons, ih]
        simp only [hk, List.mem_cons, true_or, not_true, false_and, or_false, decide_true,
          Option.some.injEq]
        exact ⟨fun e => ⟨hk ▸ hy, e.symm⟩, fun e => e.2.symm⟩
    · have hne : x ≠ y := fun e => hk (e ▸ rfl)
      by_cases hy : key y ∈ seen
      · simp [hy, hk, ih]
      · simp [hy, hk, ih, hne, Ne.symm hk]

/-- An item is the first of its key exactly if a search for its key finds it. -/
theorem mem_firsts_iff {key : α → κ} {xs : List α} {x : α} :
    x ∈ firsts key xs ↔ xs.find? (key · = key x) = some x := by
  simp [firsts, mem_firstsAfter_iff]

/-- A search for the key of an item finds an item of that key. -/
theorem exists_find?_key (key : α → κ) {xs : List α} {x : α} (hx : x ∈ xs) :
    ∃ y ∈ xs, key y = key x ∧ xs.find? (key · = key x) = some y := by
  have hsome : (xs.find? (key · = key x)).isSome = true :=
    List.find?_isSome.2 ⟨x, hx, decide_eq_true rfl⟩
  obtain ⟨y, hy⟩ := Option.isSome_iff_exists.1 hsome
  exact ⟨y, List.mem_of_find?_eq_some hy, by simpa using List.find?_some hy, hy⟩

/-- Of the items of one key, one is kept. -/
theorem exists_mem_firsts (key : α → κ) {xs : List α} {x : α} (hx : x ∈ xs) :
    ∃ y ∈ firsts key xs, key y = key x := by
  obtain ⟨y, -, hy, hf⟩ := exists_find?_key key hx
  exact ⟨y, mem_firsts_iff.2 (hy ▸ hf), hy⟩

/-- Among items of distinct keys, a search for a key finds the item that has it. -/
theorem find?_key_eq_some_iff (key : α → κ) {xs : List α} (hn : (xs.map key).Nodup) {k : κ} {x : α} :
    xs.find? (key · = k) = some x ↔ x ∈ xs ∧ key x = k := by
  constructor
  · intro h
    exact ⟨List.mem_of_find?_eq_some h, by simpa using List.find?_some h⟩
  · rintro ⟨hx, rfl⟩
    rw [← mem_firsts_iff, firsts_eq_self hn]
    exact hx

/-- Where items of one key are alike, only the keys of those that are kept count. -/
theorem firstsAfter_filter {key : α → κ} {p : α → Bool} {seen kept : List κ} {xs : List α}
    (hp : ∀ x ∈ xs, ∀ y ∈ xs, key x = key y → p x = p y)
    (hs : ∀ x ∈ xs, p x = true → (key x ∈ kept ↔ key x ∈ seen)) :
    firstsAfter key kept (xs.filter p) = (firstsAfter key seen xs).filter p := by
  induction xs generalizing seen kept with
  | nil => rfl
  | cons x xs ih =>
    have hp' := fun y hy z hz => hp y (List.mem_cons_of_mem x hy) z (List.mem_cons_of_mem x hz)
    have hs' := fun y hy => hs y (List.mem_cons_of_mem x hy)
    by_cases hx : p x = true
    · have hk := hs x List.mem_cons_self hx
      rw [List.filter_cons_of_pos hx, firstsAfter, firstsAfter]
      by_cases hseen : key x ∈ seen
      · rw [if_pos hseen, if_pos (hk.2 hseen), ih hp' hs']
      · rw [if_neg hseen, if_neg (mt hk.1 hseen), List.filter_cons_of_pos hx]
        refine congrArg (x :: ·) (ih hp' fun y hy hpy => ?_)
        rw [List.mem_cons, List.mem_cons, hs' y hy hpy]
    · rw [List.filter_cons_of_neg hx, firstsAfter]
      by_cases hseen : key x ∈ seen
      · rw [if_pos hseen, ih hp' hs']
      · rw [if_neg hseen, List.filter_cons_of_neg hx]
        refine ih hp' fun y hy hpy => ?_
        rw [List.mem_cons, hs' y hy hpy, or_iff_right]
        exact fun hk => hx (hp y (List.mem_cons_of_mem x hy) x List.mem_cons_self hk ▸ hpy)

theorem firstsAfter_congr {key : α → κ} {seen kept : List κ} {xs : List α}
    (h : ∀ x ∈ xs, key x ∈ kept ↔ key x ∈ seen) :
    firstsAfter key kept xs = firstsAfter key seen xs := by
  have hall := firstsAfter_filter (p := fun _ => true) (fun _ _ _ _ _ => rfl) fun x hx _ => h x hx
  rwa [List.filter_eq_self.2 fun _ _ => rfl, List.filter_eq_self.2 fun _ _ => rfl] at hall

theorem repeatsAfter_congr {key : α → κ} {seen kept : List κ} {xs : List α}
    (h : ∀ x ∈ xs, key x ∈ kept ↔ key x ∈ seen) :
    repeatsAfter key kept xs = repeatsAfter key seen xs := by
  induction xs generalizing seen kept with
  | nil => rfl
  | cons x xs ih =>
    have hxs := fun y hy => h y (List.mem_cons_of_mem x hy)
    have hx : repeatsAfter key (key x :: kept) xs = repeatsAfter key (key x :: seen) xs :=
      ih fun y hy => by rw [List.mem_cons, List.mem_cons, hxs y hy]
    simp only [repeatsAfter, h x List.mem_cons_self, ih hxs, hx]

/-- Of lists that share no key, each is looked at alone. -/
theorem firsts_append (key : α → κ) {xs ys : List α} (h : ∀ x ∈ xs, ∀ y ∈ ys, key x ≠ key y) :
    firsts key (xs ++ ys) = firsts key xs ++ firsts key ys := by
  suffices ∀ seen, (∀ y ∈ ys, key y ∉ seen) →
      firstsAfter key seen (xs ++ ys) = firstsAfter key seen xs ++ firstsAfter key [] ys from
    this [] (by simp)
  induction xs with
  | nil => exact fun seen hs => firstsAfter_congr fun y hy => by simp [hs y hy]
  | cons x xs ih =>
    intro seen hs
    have hxs := ih fun z hz => h z (List.mem_cons_of_mem x hz)
    rw [List.cons_append, firstsAfter, firstsAfter]
    split
    · exact hxs seen hs
    · rw [List.cons_append, hxs]
      simpa using fun y hy => ⟨(h x List.mem_cons_self y hy).symm, hs y hy⟩

theorem repeats_append (key : α → κ) {xs ys : List α} (h : ∀ x ∈ xs, ∀ y ∈ ys, key x ≠ key y) :
    repeats key (xs ++ ys) = repeats key xs ++ repeats key ys := by
  suffices ∀ seen, (∀ y ∈ ys, key y ∉ seen) →
      repeatsAfter key seen (xs ++ ys) = repeatsAfter key seen xs ++ repeatsAfter key [] ys from
    this [] (by simp)
  induction xs with
  | nil => exact fun seen hs => repeatsAfter_congr fun y hy => by simp [hs y hy]
  | cons x xs ih =>
    intro seen hs
    have hxs := ih fun z hz => h z (List.mem_cons_of_mem x hz)
    rw [List.cons_append, repeatsAfter, repeatsAfter]
    split
    · rw [List.cons_append, hxs seen hs]
    · rw [hxs]
      simpa using fun y hy => ⟨(h x List.mem_cons_self y hy).symm, hs y hy⟩

/-- Where items of one key are alike, repetitions can be left out before or after other items. -/
theorem firsts_filter (key : α → κ) {p : α → Bool} {xs : List α}
    (hp : ∀ x ∈ xs, ∀ y ∈ xs, key x = key y → p x = p y) :
    firsts key (xs.filter p) = (firsts key xs).filter p :=
  firstsAfter_filter hp fun _ _ _ => Iff.rfl

theorem filter_firsts (key : α → κ) {p : α → Bool} {xs : List α}
    (hp : ∀ x ∈ xs, ∀ y ∈ xs, key x = key y → p x = p y) (hn : ((xs.filter p).map key).Nodup) :
    (firsts key xs).filter p = xs.filter p :=
  (firsts_filter key hp).symm.trans (firsts_eq_self hn)

/-- Among items of distinct keys one item is found by its key alone. -/
theorem filter_key_eq_singleton (key : α → κ) {xs : List α} (hn : (xs.map key).Nodup) {x : α}
    (hx : x ∈ xs) : xs.filter (key · = key x) = [x] := by
  induction xs with
  | nil => cases hx
  | cons y ys ih =>
    obtain ⟨hy, hn⟩ := List.nodup_cons.1 hn
    rcases List.mem_cons.1 hx with rfl | hx
    · rw [List.filter_cons_of_pos (by simp), List.filter_eq_nil_iff.2]
      intro z hz hk
      exact hy (List.mem_map.2 ⟨z, hz, by simpa using hk⟩)
    · rw [List.filter_cons_of_neg, ih hn hx]
      intro hk
      exact hy (List.mem_map.2 ⟨x, hx, by simpa using Eq.symm (of_decide_eq_true hk)⟩)

omit [DecidableEq κ] in
/-- If groups share no key, and what passes a test is only in groups that have some key, then it is all
in the group that has it. -/
theorem filter_flatMap_of_key {γ : Type} {f : γ → List α} {p : α → Bool} {keys : γ → List κ}
    {xs : List γ} {k : κ} (hn : (xs.flatMap keys).Nodup)
    (hf : ∀ x ∈ xs, k ∉ keys x → (f x).filter p = []) {x : γ} (hx : x ∈ xs) (hk : k ∈ keys x) :
    (xs.flatMap f).filter p = (f x).filter p := by
  have hnone : ∀ {ys : List γ}, ys ⊆ xs → k ∉ ys.flatMap keys → (ys.flatMap f).filter p = [] := by
    intro ys hys hk
    rw [List.filter_flatMap, List.flatMap_eq_nil_iff]
    exact fun y hy => hf y (hys hy) fun h => hk (List.mem_flatMap.2 ⟨y, hy, h⟩)
  obtain ⟨before, after, rfl⟩ := List.append_of_mem hx
  rw [List.flatMap_append, List.flatMap_cons] at hn
  obtain ⟨-, hrest, hbefore⟩ := List.nodup_append.1 hn
  obtain ⟨-, -, hafter⟩ := List.nodup_append.1 hrest
  rw [List.flatMap_append, List.flatMap_cons, List.filter_append, List.filter_append,
    hnone (List.subset_append_left ..) fun h => hbefore k h k (List.mem_append_left _ hk) rfl,
    hnone (fun y hy => List.mem_append_right _ (List.mem_cons_of_mem x hy))
      fun h => hafter k hk k h rfl, List.nil_append, List.append_nil]

/-- If groups share no key, the items of a key are all in the group that it belongs to. -/
theorem filter_flatMap_of_nodup {γ : Type} (key : α → κ) {f : γ → List α} {keys : γ → List κ}
    {xs : List γ} (hn : (xs.flatMap keys).Nodup) (hf : ∀ x ∈ xs, ∀ y ∈ f x, key y ∈ keys x)
    {x : γ} (hx : x ∈ xs) {k : κ} (hk : k ∈ keys x) :
    (xs.flatMap f).filter (key · = k) = (f x).filter (key · = k) := by
  refine filter_flatMap_of_key hn (fun y hy hky => ?_) hx hk
  exact List.filter_eq_nil_iff.2 fun z hz he => hky (of_decide_eq_true he ▸ hf y hy z hz)

end AggregateSchema
