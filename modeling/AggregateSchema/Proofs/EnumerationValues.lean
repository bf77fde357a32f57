import AggregateSchema.Enumeration
import Mathlib.Algebra.Order.Ring.Int
import Mathlib.Data.Nat.Nth
import Mathlib.Data.Set.Finite.List

/-! The values of the items of an enumeration: those that are declared, and for the other items the
natural numbers that no item declares, in ascending order. -/
namespace AggregateSchema.Enumeration

/-- A number that no item declares as its value. -/
def IsFree (declared : List Int) (n : Nat) : Prop := (n : Int) ∉ declared

instance (declared : List Int) : DecidablePred (IsFree declared) := fun n =>
  inferInstanceAs (Decidable ((n : Int) ∉ declared))

/-- The free number that comes `k`th, counted from 0. -/
noncomputable def gap (declared : List Int) (k : Nat) : Nat := Nat.nth (IsFree declared) k

section Gaps
variable (declared : List Int)

theorem infinite_isFree : {n | IsFree declared n}.Infinite :=
  (declared.finite_toSet.preimage (f := fun n : Nat => (n : Int))
    (Nat.cast_injective.injOn)).infinite_compl

theorem isFree_gap (k : Nat) : IsFree declared (gap declared k) :=
  Nat.nth_mem_of_infinite (infinite_isFree declared) k

theorem gap_injective : Function.Injective (gap declared) :=
  Nat.nth_injective (infinite_isFree declared)

/-- Only so many numbers are declared, so that as many as wanted are left below a bound. -/
theorem le_count_isFree (wanted : Nat) :
    wanted ≤ Nat.count (IsFree declared) (declared.length + wanted) := by
  have hsplit := Finset.card_filter_add_card_filter_not (s := Finset.range (declared.length + wanted))
    (IsFree declared)
  have hfew : ((Finset.range (declared.length + wanted)).filter (¬ IsFree declared ·)).card ≤
      declared.length := by
    refine (Finset.card_le_card_of_injOn (t := declared.toFinset) (fun n : Nat => (n : Int)) ?_
      Nat.cast_injective.injOn).trans declared.toFinset_card_le
    intro n hn
    exact List.mem_toFinset.2 (not_not.1 (Finset.mem_filter.1 hn).2)
  rw [← Nat.count_eq_card_filter_range, Finset.card_range] at hsplit
  omega

end Gaps

section Cursor
variable {used : List Int} {next : Int}

theorem advance_not_mem (used : List Int) (next : Int) : advance used next ∉ used := by
  fun_induction advance used next with
  | case1 next hused ih => exact ih
  | case2 next hfree => exact hfree

theorem le_advance (used : List Int) (next : Int) : next ≤ advance used next := by
  fun_induction advance used next with
  | case1 next hused ih => omega
  | case2 next hfree => exact le_rfl

/-- The cursor passes over nothing but numbers in use. -/
theorem mem_of_lt_advance {value : Int} (hnext : next ≤ value) (hvalue : value < advance used next) :
    value ∈ used := by
  fun_induction advance used next with
  | case1 next hused ih =>
    rcases hnext.eq_or_lt with rfl | hlt
    · exact hused
    · exact ih hlt hvalue
  | case2 next hfree => omega

variable {declared : List Int} {k : Nat}

/-- What the loop carries once `k` items have got their values: the numbers in use are those that are
declared and the first `k` gaps, and the cursor has not passed the gap that comes next. -/
structure Reaches (declared : List Int) (k : Nat) (used : List Int) (next : Int) : Prop where
  mem_used : ∀ value, value ∈ used ↔ value ∈ declared ∨ ∃ j < k, value = gap declared j
  nonneg : 0 ≤ next
  le_gap : next ≤ gap declared k

theorem Reaches.start (declared : List Int) : Reaches declared 0 declared 0 :=
  ⟨fun value => by simp, le_rfl, Int.natCast_nonneg _⟩

theorem Reaches.gap_not_mem (h : Reaches declared k used next) : (gap declared k : Int) ∉ used := by
  rw [h.mem_used]
  rintro (hdeclared | ⟨j, hj, hgap⟩)
  · exact isFree_gap declared k hdeclared
  · exact hj.ne' (gap_injective declared (Int.ofNat_inj.1 hgap))

/-- The cursor goes on to the gap that comes next. -/
theorem Reaches.advance_eq (h : Reaches declared k used next) : advance used next = gap declared k := by
  apply le_antisymm
  · by_contra hpast
    exact h.gap_not_mem (mem_of_lt_advance h.le_gap (not_le.1 hpast))
  · obtain ⟨n, hn⟩ := Int.eq_ofNat_of_zero_le (h.nonneg.trans (le_advance used next))
    have hfree := (h.mem_used n).not.1 (hn ▸ advance_not_mem used next)
    push Not at hfree
    have hgap : gap declared (Nat.count (IsFree declared) n) = n := Nat.nth_count hfree.1
    have hk : k ≤ Nat.count (IsFree declared) n := by
      by_contra hlt
      exact hfree.2 _ (not_le.1 hlt) (Int.ofNat_inj.2 hgap.symm)
    rw [hn, Int.ofNat_le, ← hgap]
    exact (Nat.nth_le_nth (infinite_isFree declared)).2 hk

theorem Reaches.step (h : Reaches declared k used next) :
    Reaches declared (k + 1) (gap declared k :: used) (gap declared k) := by
  refine ⟨fun value => ?_, Int.natCast_nonneg _,
    Int.ofNat_le.2 ((Nat.nth_le_nth (infinite_isFree declared)).2 k.le_succ)⟩
  simp only [List.mem_cons, h.mem_used, Nat.lt_succ_iff_lt_or_eq, or_and_right, exists_or,
    exists_eq_left]
  rw [or_comm, or_assoc]

end Cursor

section Items
variable {name : String} {items : List (String × Option Int)} {declared used : List Int} {next : Int}
  {k : Nat} {e : Enumeration}

theorem map_name_assignValues (used : List Int) (next : Int) (items : List (String × Option Int)) :
    (assignValues used next items).map (·.name) = items.map (·.1) := by
  induction items generalizing used next with
  | nil => rfl
  | cons x items ih =>
    obtain ⟨item, _ | value⟩ := x
    · exact congrArg (item :: ·) (ih _ _)
    · exact congrArg (item :: ·) (ih used next)

/-- An item without a value gets the gap at the place that is the number of such items before. -/
theorem getElem?_assignValues (h : Reaches declared k used next) (items : List (String × Option Int))
    (i : Nat) : (assignValues used next items)[i]? = items[i]?.map fun x =>
      ⟨x.1, x.2.getD (gap declared (k + (items.take i).countP (·.2.isNone)))⟩ := by
  induction items generalizing k used next i with
  | nil => rfl
  | cons x items ih =>
    obtain ⟨item, _ | value⟩ := x
    · rw [assignValues, h.advance_eq]
      cases i with
      | zero => rfl
      | succ i => simp [ih h.step, Nat.add_assoc, Nat.add_comm 1]
    · cases i with
      | zero => rfl
      | succ i => simp [assignValues, ih h]

/-- The values are those that are declared and, for the other items, the gaps that come next. -/
theorem values_assignValues_perm (h : Reaches declared k used next)
    (items : List (String × Option Int)) : ((assignValues used next items).map (·.value)).Perm
      (items.filterMap (·.2) ++
        (List.range' k (items.countP (·.2.isNone))).map fun j => (gap declared j : Int)) := by
  induction items generalizing k used next with
  | nil => simp [assignValues]
  | cons x items ih =>
    obtain ⟨item, _ | value⟩ := x
    · rw [assignValues, h.advance_eq]
      simpa [List.range'_succ] using ((ih h.step).cons (gap declared k : Int)).trans
        List.perm_middle.symm
    · simpa [assignValues] using (ih h).cons value

/-- The values that are given to items are apart from each other and from those that are declared. -/
theorem nodup_values_iff : ((assignValues (items.filterMap (·.2)) 0 items).map (·.value)).Nodup ↔
    (items.filterMap (·.2)).Nodup := by
  rw [(values_assignValues_perm (Reaches.start _) items).nodup_iff, List.nodup_append]
  refine and_iff_left
    ⟨(List.nodup_range').map fun j l h => gap_injective _ (Int.ofNat_inj.1 h), ?_⟩
  rintro value hvalue n hn rfl
  obtain ⟨j, -, rfl⟩ := List.mem_map.1 hn
  exact isFree_gap _ j hvalue

/-- What makes a name and items an enumeration. -/
structure IsWellDeclared (name : String) (items : List (String × Option Int)) : Prop where
  named : Text.isBlank name = false
  inhabited : items ≠ []
  nonblank : ∀ x ∈ items, Text.isBlank x.1 = false
  names : (items.map (·.1)).Nodup
  values : (items.filterMap (·.2)).Nodup

theorem ofItems_eq_ok_iff : ofItems name items = .ok e ↔ IsWellDeclared name items ∧
    e = ⟨name, assignValues (items.filterMap (·.2)) 0 items⟩ := by
  generalize hassigned : assignValues (items.filterMap (·.2)) 0 items = assigned
  have hnames : assigned.map (·.name) = items.map (·.1) := hassigned ▸ map_name_assignValues _ _ items
  have hblank : (∀ x ∈ assigned, Text.isBlank x.name = false) ↔
      ∀ x ∈ items, Text.isBlank x.1 = false := by
    have h := congrArg (fun names => ∀ n ∈ names, Text.isBlank n = false) hnames
    simpa only [List.forall_mem_map, eq_iff_iff] using h
  have hempty : assigned = [] ↔ items = [] := by
    rw [← List.map_eq_nil_iff (f := EnumerationItem.name), hnames, List.map_eq_nil_iff]
  have hproblems : problems ⟨name, assigned⟩ = [] ↔ IsWellDeclared name items := by
    rw [problems, List.append_eq_nil_iff, List.append_eq_nil_iff, itemProblems_eq_nil_iff, hnames,
      ← hassigned, nodup_values_iff, hassigned]
    simp only [List.not_mem_nil, not_false_eq_true, and_true, hblank, ite_eq_right_iff, reduceCtorEq,
      imp_false, List.isEmpty_iff, hempty, Bool.not_eq_true]
    exact ⟨fun ⟨⟨hn, hi⟩, hb, hd, hv⟩ => ⟨hn, hi, hb, hd, hv⟩,
      fun h => ⟨⟨h.named, h.inhabited⟩, h.nonblank, h.names, h.values⟩⟩
  rw [ofItems, hassigned, check]
  split
  · rename_i hp
    rw [List.isEmpty_iff, hproblems] at hp
    simp [hp, eq_comm]
  · rename_i hp
    rw [List.isEmpty_iff, hproblems] at hp
    simp [hp]

/-- The enumeration holds the items in order with their names and values. Those without a value have
the numbers that no item declares, in ascending order, and so no number as large as their count. Names
and values stand for each other. -/
structure Completes (e : Enumeration) (name : String) (items : List (String × Option Int)) : Prop where
  name : e.name = name
  names : e.items.map (·.name) = items.map (·.1)
  declared : ∀ (i : Nat) item value, items[i]? = some (item, some value) →
    e.items[i]? = some ⟨item, value⟩
  assigned : ∀ (i : Nat) item, items[i]? = some (item, none) → e.items[i]? =
    some ⟨item, gap (items.filterMap (·.2)) ((items.take i).countP (·.2.isNone))⟩
  small : ∀ (i : Nat) item value, items[i]? = some (item, none) → e.items[i]? = some ⟨item, value⟩ →
    0 ≤ value ∧ value < items.length
  distinct : (e.items.map (·.value)).Nodup
  inverse : ∀ item value, (e.valueOf? item = some value ↔ ⟨item, value⟩ ∈ e.items) ∧
    (e.nameOf? value = some item ↔ ⟨item, value⟩ ∈ e.items)

/-- Each item either declares a value or is one of those that get a gap, so that the gaps that are
given lie below the number of items. -/
theorem gap_lt_length {i : Nat} {item : String} (h : items[i]? = some (item, none)) :
    gap (items.filterMap (·.2)) ((items.take i).countP (·.2.isNone)) < items.length := by
  have hlength : items.length = (items.filterMap (·.2)).length + items.countP (·.2.isNone) := by
    rw [List.length_filterMap_eq_countP, List.length_eq_countP_add_countP (·.2.isSome)]
    exact congrArg _ (List.countP_congr fun x _ => by simp)
  have hbefore : (items.take i).countP (·.2.isNone) < items.countP (·.2.isNone) := by
    obtain ⟨hi, hitem⟩ := List.getElem?_eq_some_iff.1 h
    conv_rhs => rw [← List.take_append_drop i items, List.drop_eq_getElem_cons hi, hitem]
    simp
  rw [hlength]
  exact Nat.nth_lt_of_lt_count (hbefore.trans_le (le_count_isFree _ _))

/-- A name and items make an enumeration if the name is not blank, there is an item, the items have
names that are distinct and not blank, and the values that are declared are distinct. It holds the items
with the values that they declare, and with the least ones that are left. -/
theorem completes_items (name : String) (items : List (String × Option Int)) :
    ((∃ e, ofItems name items = .ok e) ↔ IsWellDeclared name items) ∧
      ∀ e, ofItems name items = .ok e → e.Completes name items := by
  simp only [ofItems_eq_ok_iff]
  refine ⟨⟨fun ⟨_, h, _⟩ => h, fun h => ⟨_, h, rfl⟩⟩, ?_⟩
  rintro _ ⟨h, rfl⟩
  have hnames := map_name_assignValues (items.filterMap (·.2)) 0 items
  have hdistinct := nodup_values_iff.2 h.values
  have hassigned : ∀ (i : Nat) item, items[i]? = some (item, none) →
      (assignValues (items.filterMap (·.2)) 0 items)[i]? =
        some ⟨item, gap (items.filterMap (·.2)) ((items.take i).countP (·.2.isNone))⟩ := by
    intro i item hi
    rw [getElem?_assignValues (Reaches.start _), hi, Nat.zero_add]
    rfl
  refine ⟨rfl, hnames, fun i item value hi => ?_, hassigned, fun i item value hi hvalue => ?_,
    hdistinct, fun item value => ⟨?_, ?_⟩⟩
  · rw [getElem?_assignValues (Reaches.start _), hi]
    rfl
  · rw [hassigned i item hi, Option.some.injEq, EnumerationItem.mk.injEq] at hvalue
    obtain ⟨-, rfl⟩ := hvalue
    exact ⟨Int.natCast_nonneg _, Int.ofNat_lt.2 (gap_lt_length hi)⟩
  · rw [valueOf?, Option.map_eq_some_iff]
    simp only [find?_key_eq_some_iff EnumerationItem.name (hnames ▸ h.names)]
    constructor
    · rintro ⟨x, ⟨hx, rfl⟩, rfl⟩
      exact hx
    · exact fun hx => ⟨⟨item, value⟩, ⟨hx, rfl⟩, rfl⟩
  · rw [nameOf?, Option.map_eq_some_iff]
    simp only [find?_key_eq_some_iff EnumerationItem.value hdistinct]
    constructor
    · rintro ⟨x, ⟨hx, rfl⟩, rfl⟩
      exact hx
    · exact fun hx => ⟨⟨item, value⟩, ⟨hx, rfl⟩, rfl⟩

/-- States of which one has a value above a gap and another a negative one. -/
def states : List (String × Option Int) :=
  [("Draft", none), ("Open", some 1), ("Held", none), ("Lost", some (-4)), ("Closed", none)]

theorem completes_items_states : ∃ e, ofItems "State" states = .ok e ∧ e.Completes "State" states ∧
    e.items.map (·.value) = [0, 1, 2, -4, 3] :=
  have hstates : ofItems "State" states = .ok ⟨"State", [⟨"Draft", 0⟩, ⟨"Open", 1⟩, ⟨"Held", 2⟩,
      ⟨"Lost", -4⟩, ⟨"Closed", 3⟩]⟩ := by decide +kernel
  ⟨_, hstates, (completes_items "State" states).2 _ hstates, rfl⟩

end Items

end AggregateSchema.Enumeration
