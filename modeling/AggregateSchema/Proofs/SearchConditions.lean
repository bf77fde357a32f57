import AggregateSchema.Proofs.SearchRun

/-! A search accepts exactly the conditions that have the published form. -/
namespace AggregateSchema

namespace Schema

mutual
/-- Whether a value has the form that a field of a condition asks for. -/
inductive FitsField (s : Schema) : FieldKind → Json → Prop
  | range {kind : ScalarKind} {fields : List (String × Json)} :
    FitsField s (.range kind) (.object fields)
  | text {t : String} : FitsField s .text (.string t)
  | boolean {nullable b : Bool} : FitsField s (.value .boolean nullable) (.bool b)
  | item {e : Enumeration} {name : String} (mem : name ∈ e.items.map (·.name)) :
    FitsField s (.select e) (.string name)
  | itemValue {e : Enumeration} {n : Int} (mem : n ∈ e.items.map (·.value))
    (inRange : Text.inInt64 n = true) : FitsField s (.select e) (.integer n)
  | toggle {b : Bool} : FitsField s .toggle (.bool b)
  | nested {path : Path} {b : Aggregate} {v : Json} (node : s.node? path = some b)
    (conforms : Conforms s b v) : FitsField s (.nested path) v
  | key {target : Path} {fields : List (String × Json)}
    (key : ∀ v, (Json.object fields).get? "key" = some v → v = .null ∨ v.isObject = true) :
    FitsField s (.keyAndText target) (.object fields)

/-- Whether an object conforms to the search condition of an aggregate: each of its fields is absent
or null, or has the form that is asked for. -/
inductive Conforms (s : Schema) : Aggregate → Json → Prop
  | object {a : Aggregate} {fields : List (String × Json)}
    (fits : ∀ f ∈ (s.graph.views a).searchCondition.fields, ∀ v,
      (Json.object fields).get? f.name = some v → v ≠ .null → FitsField s f.kind v) :
    Conforms s a (.object fields)
end

variable {s : Schema} {a : Aggregate}

theorem conforms_object_iff {fields : List (String × Json)} :
    s.Conforms a (.object fields) ↔ ∀ m ∈ s.graph.members a,
      ∀ f ∈ AggregateGraph.memberConditionFields m, ∀ v,
        conditionField (some (.object fields)) f.name = some v → s.FitsField f.kind v := by
  have hfield : ∀ {name v}, conditionField (some (.object fields)) name = some v ↔
      (Json.object fields).get? name = some v ∧ v ≠ .null := conditionField_eq_some_iff
  constructor
  · rintro ⟨h⟩ m hm f hf v hv
    obtain ⟨hget, hnull⟩ := hfield.1 hv
    exact h f (List.mem_flatMap.2 ⟨m, hm, hf⟩) v hget hnull
  · refine fun h => .object fun f hf v hget hnull => ?_
    obtain ⟨m, hm, hf⟩ := List.mem_flatMap.1 hf
    exact h m hm f hf v (hfield.2 ⟨hget, hnull⟩)

theorem fitsField_range_iff {kind : ScalarKind} {v : Json} :
    s.FitsField (.range kind) v ↔ v.isObject = true := by
  cases v with
  | object fields => exact iff_of_true .range rfl
  | _ => exact iff_of_false (nomatch ·) (nomatch ·)

theorem fitsField_text_iff {v : Json} : s.FitsField .text v ↔ v.string?.isSome = true := by
  cases v with
  | string t => exact iff_of_true .text rfl
  | _ => exact iff_of_false (nomatch ·) (nomatch ·)

theorem fitsField_boolean_iff {nullable : Bool} {v : Json} :
    s.FitsField (.value .boolean nullable) v ↔ v.bool?.isSome = true := by
  cases v with
  | bool b => exact iff_of_true .boolean rfl
  | _ => exact iff_of_false (nomatch ·) (nomatch ·)

theorem fitsField_toggle_iff {v : Json} : s.FitsField .toggle v ↔ v.bool?.isSome = true := by
  cases v with
  | bool b => exact iff_of_true .toggle rfl
  | _ => exact iff_of_false (nomatch ·) (nomatch ·)

theorem fitsField_nested_iff {b : Aggregate} (hb : b ∈ s.graph.nodes) {v : Json} :
    s.FitsField (.nested b.path) v ↔ s.Conforms b v := by
  have hnode : s.node? b.path = some b := s.graph.node?_id hb
  refine ⟨fun h => ?_, .nested hnode⟩
  cases h with
  | nested node conforms =>
    obtain rfl := Option.some.inj (hnode.symm.trans node)
    exact conforms

theorem fitsField_select_iff {e : Enumeration} {v : Json} :
    s.FitsField (.select e) v ↔ (Query.item? e v).isSome = true := by
  cases v with
  | string name =>
    refine ⟨fun h => ?_, fun h => .item (by simpa [Query.item?, Enumeration.valueOf?] using h)⟩
    cases h with
    | item mem => simpa [Query.item?, Enumeration.valueOf?] using mem
  | integer n =>
    cases hr : Text.inInt64 n with
    | false =>
      refine iff_of_false (fun h => ?_) (by simp [Query.item?, Json.int64?, hr])
      cases h with
      | itemValue mem inRange => exact absurd inRange (by simp [hr])
    | true =>
      have hitem : (Query.item? e (.integer n)).isSome = true ↔ n ∈ e.items.map (·.value) := by
        simp [Query.item?, Json.int64?, hr, Enumeration.nameOf?, Option.isSome_filter]
      rw [hitem]
      refine ⟨fun h => ?_, fun h => .itemValue h hr⟩
      cases h with
      | itemValue mem inRange => exact mem
  | _ => exact iff_of_false (nomatch ·) (nomatch ·)

theorem fitsField_keyAndText_iff {target : Path} {v : Json} :
    s.FitsField (.keyAndText target) v ↔ v.isObject = true ∧
      ∀ k, conditionField (some v) "key" = some k → k.isObject = true := by
  cases v with
  | object fields =>
    refine ⟨fun h => ⟨rfl, fun k hk => ?_⟩, fun h => .key fun k hget => ?_⟩
    · obtain ⟨hget, hnull⟩ := conditionField_eq_some_iff.1 hk
      cases h with
      | key key => exact (key k hget).resolve_left hnull
    · by_cases hnull : k = .null
      · exact Or.inl hnull
      · exact Or.inr (h.2 k (conditionField_eq_some_iff.2 ⟨hget, hnull⟩))
  | _ => exact iff_of_false (nomatch ·) (nomatch ·.1)

end Schema

namespace SearchStep
variable {s : Schema}

/-- Steps none of which is a rejection. -/
def AreAccepted (steps : List SearchStep) : Prop :=
  ∀ x ∈ steps, x.rejection? = none

@[simp] theorem areAccepted_nil : AreAccepted [] :=
  fun _ hx => nomatch hx

@[simp] theorem areAccepted_cons {x : SearchStep} {xs : List SearchStep} :
    AreAccepted (x :: xs) ↔ x.rejection? = none ∧ AreAccepted xs :=
  List.forall_mem_cons

@[simp] theorem areAccepted_append {xs ys : List SearchStep} :
    AreAccepted (xs ++ ys) ↔ AreAccepted xs ∧ AreAccepted ys :=
  List.forall_mem_append

theorem areAccepted_flatMap {α : Type} {f : α → List SearchStep} {items : List α} :
    AreAccepted (items.flatMap f) ↔ ∀ y ∈ items, AreAccepted (f y) :=
  List.forall_mem_flatMap

theorem areAccepted_flatMap_toList {α : Type} {f : α → List SearchStep} {o : Option α} :
    AreAccepted (o.toList.flatMap f) ↔ ∀ v, o = some v → AreAccepted (f v) := by
  cases o <;> simp

theorem not_areAccepted_reject {field : String} {problem : ConditionProblem} :
    ¬ AreAccepted [reject field problem] :=
  fun h => nomatch h _ (List.mem_singleton_self _)

theorem areAccepted_comparison (e : Entity) (column operator : String) (value : Option Json) :
    AreAccepted (comparison e column operator value) := by
  intro x hx
  obtain ⟨v, -, rfl⟩ := List.mem_map.1 hx
  rfl

/-- The condition on a scalar is accepted in the published form. -/
theorem areAccepted_ofScalarValue_iff {e : Entity} {column field : String} {kind : ScalarKind}
    {v : Json} : AreAccepted (ofScalarValue e column kind v field) ↔
      s.FitsField (AggregateGraph.conditionKind kind) v := by
  cases kind with
  | enumeration definition =>
    refine Iff.trans ?_ Schema.fitsField_select_iff.symm
    cases h : Query.item? definition v <;>
      simp [ofScalarValue, ScalarKind.filterStyle, h, rejection?]
  | boolean =>
    refine Iff.trans ?_ Schema.fitsField_boolean_iff.symm
    cases v <;> simp [ofScalarValue, ScalarKind.filterStyle, rejection?, Json.bool?]
  | integer | decimal | date | datetime =>
    refine Iff.trans ?_ Schema.fitsField_range_iff.symm
    cases h : v.isObject <;>
      simp [ofScalarValue, ScalarKind.filterStyle, h, rejection?, areAccepted_comparison]
  | identifier | word | sentence =>
    refine Iff.trans ?_ Schema.fitsField_text_iff.symm
    cases v with
    | string text =>
      refine iff_of_true ?_ rfl
      simp only [ofScalarValue, ScalarKind.filterStyle]
      split <;> simp [rejection?]
    | _ => simp [ofScalarValue, ScalarKind.filterStyle, rejection?, Json.string?]

theorem areAccepted_ofReferenceValue_iff {e : Entity} {name field : String} {target : Path}
    {v : Json} : AreAccepted (ofReferenceValue e name v field) ↔
      s.FitsField (.keyAndText target) v := by
  rw [Schema.fitsField_keyAndText_iff]
  cases hv : v.isObject with
  | false => simp [ofReferenceValue, hv, rejection?]
  | true =>
    cases hk : conditionField (some v) "key" with
    | none => simp [ofReferenceValue, hv, hk]
    | some k =>
      cases k with
      | object key =>
        refine iff_of_true ?_ (by simp [Json.isObject])
        simp only [ofReferenceValue, hv, hk, Bool.not_true, Bool.false_eq_true, if_false]
        exact areAccepted_flatMap.2 fun y _ => areAccepted_comparison _ _ _ _
      | _ =>
        simp only [ofReferenceValue, hv, hk]
        simp [rejection?, Json.isObject]

theorem areAccepted_ofToggle_iff {p : SearchPlace} {toggle : String} :
    AreAccepted (ofToggle p toggle) ↔ ∀ v, p.value toggle = some v → s.FitsField .toggle v := by
  simp only [Schema.fitsField_toggle_iff]
  unfold ofToggle
  cases p.value toggle with
  | none => simp
  | some v => cases v <;> simp [rejection?, Json.bool?]

theorem areAccepted_choice (e : Entity) (v : VariationGroup) (tags : List Int) :
    AreAccepted (choice e v tags) := by
  unfold choice
  split <;> simp [rejection?]

/-- Whether the steps for an aggregate are accepted if the condition conforms, wherever the condition
is an object or absent. -/
def AcceptsConforming (s : Schema) (a : Aggregate) (steps : SearchPlace → List SearchStep) : Prop :=
  ∀ p : SearchPlace, p.condition.all Json.isObject = true →
    (AreAccepted (steps p) ↔ ∀ v, p.condition = some v → s.Conforms a v)

/-- What is nested is accepted if it conforms. -/
theorem areAccepted_ofChild_iff {l : Link} (hl : l.terminal ∈ s.graph.nodes) {p : SearchPlace}
    {nested : SearchPlace → List SearchStep} (hn : AcceptsConforming s l.terminal nested)
    (target : Entity) : AreAccepted (ofChild nested p l target) ↔
      ∀ v, p.value l.name = some v → s.FitsField (.nested l.terminal.path) v := by
  simp only [Schema.fitsField_nested_iff hl]
  unfold ofChild
  cases hv : p.value l.name with
  | none => exact (hn (p.child l target none) rfl).trans (by simp [SearchPlace.child])
  | some v =>
    cases v with
    | null => exact absurd rfl (conditionField_eq_some_iff.1 hv).2
    | object fields => exact hn (p.child l target (some (.object fields))) rfl
    | _ => exact iff_of_false not_areAccepted_reject fun h => nomatch h _ rfl

/-- The steps of a member are accepted if its fields have the published form. -/
theorem areAccepted_ofMember_iff {a : Aggregate} {m : Member} (hm : m ∈ s.graph.members a)
    {p : SearchPlace} {nested : Aggregate → SearchPlace → List SearchStep}
    (hn : ∀ l ∈ m.links, AcceptsConforming s l.terminal (nested l.terminal)) :
    AreAccepted (ofMember s nested p m) ↔ ∀ f ∈ AggregateGraph.memberConditionFields m, ∀ v,
      p.value f.name = some v → s.FitsField f.kind v := by
  cases m with
  | scalar m =>
    rw [ofMember, areAccepted_cons, areAccepted_flatMap_toList,
      AggregateGraph.memberConditionFields, List.forall_mem_singleton]
    refine (and_iff_right rfl).trans (forall₂_congr fun v _ => ?_)
    exact areAccepted_ofScalarValue_iff
  | child l =>
    have hl := AggregateGraph.terminal_mem_of_mem_links hm (List.mem_singleton_self l)
    obtain ⟨target, he, -⟩ := Schema.exists_entity hl
    rw [Schema.ofMember_child he, areAccepted_cons, AggregateGraph.memberConditionFields,
      List.forall_mem_singleton]
    refine (and_iff_right rfl).trans ?_
    exact areAccepted_ofChild_iff hl (hn l (List.mem_singleton_self l)) target
  | children l => simp [ofMember, AggregateGraph.memberConditionFields]
  | variation v =>
    rw [ofMember, List.cons_append, areAccepted_cons, areAccepted_append, areAccepted_flatMap,
      AggregateGraph.memberConditionFields, List.forall_mem_map]
    refine (and_iff_right rfl).trans ((and_iff_left (areAccepted_choice _ _ _)).trans ?_)
    exact forall₂_congr fun x _ => areAccepted_ofToggle_iff
  | reference l =>
    rw [ofMember, areAccepted_flatMap_toList, AggregateGraph.memberConditionFields,
      List.forall_mem_singleton]
    exact forall₂_congr fun v _ => areAccepted_ofReferenceValue_iff

end SearchStep

namespace Schema
open SearchStep
variable {s : Schema} {a : Aggregate}

/-- The steps for an aggregate are accepted if the condition conforms. -/
theorem acceptsConforming_searchSteps (hg : s.graph.IsForest) {levels : Nat}
    (ha : a ∈ s.graph.nodes) (h : s.graph.height a < levels) :
    AcceptsConforming s a (s.searchSteps levels a) := by
  induction levels generalizing a with
  | zero => cases h
  | succ n ih =>
    intro p hp
    have hmembers : AreAccepted (s.searchSteps (n + 1) a p) ↔
        ∀ m ∈ s.graph.members a, ∀ f ∈ AggregateGraph.memberConditionFields m, ∀ v,
          p.value f.name = some v → s.FitsField f.kind v := by
      rw [searchSteps, areAccepted_flatMap]
      refine forall₂_congr fun m hm => areAccepted_ofMember_iff hm fun l hl => ?_
      obtain ⟨hb, hlt⟩ := height_lt_of_mem_links hg ha hm hl
      exact ih hb (by omega)
    rw [hmembers]
    unfold SearchPlace.value
    cases hc : p.condition with
    | none => simp [conditionField]
    | some v =>
      cases v with
      | object fields => simp [conforms_object_iff]
      | _ =>
        rw [hc] at hp
        cases hp

/-- The steps of a search are accepted if the condition conforms or is null. -/
theorem areAccepted_search_iff (hg : s.graph.IsForest) (ha : a ∈ s.graph.nodes) (e : Entity)
    (condition : Json) : AreAccepted (s.search a e condition) ↔
      condition = .null ∨ s.Conforms a condition := by
  have hsteps := acceptsConforming_searchSteps hg ha (AggregateGraph.height_lt_length ha)
  cases condition with
  | null => exact (hsteps _ rfl).trans (by simp)
  | object fields => exact (hsteps _ rfl).trans (by simp)
  | _ => exact iff_of_false not_areAccepted_reject (Or.rec (nomatch ·) (nomatch ·))

end Schema

namespace Draft
variable {d : Draft} {registry : TypeRegistry} {s : Schema}

/-- A search accepts exactly null and the conditions that conform to the published form, and it fails
in no other way than over its condition. -/
theorem build_iff_conforms (h : d.resolve registry = .ok s) {a : Aggregate}
    (ha : a ∈ s.graph.nodes) (condition : Json) :
    ((∃ q, Query.build s a.path condition = .ok q) ↔
      condition = .null ∨ s.Conforms a condition) ∧
    ∀ failure, Query.build s a.path condition = .error failure →
      ∃ field problem, failure = .badCondition field problem := by
  have hg := isForest h
  obtain ⟨e, he, -⟩ := Schema.exists_entity ha
  rw [Schema.build_eq hg ha he, ← Schema.areAccepted_search_iff hg ha e, SearchStep.AreAccepted,
    ← List.findSome?_eq_none_iff]
  cases (s.search a e condition).findSome? SearchStep.rejection? with
  | none => exact ⟨iff_of_true ⟨_, rfl⟩ rfl, fun failure hf => nomatch hf⟩
  | some r =>
    refine ⟨iff_of_false (fun hq => nomatch hq.choose_spec) (fun hr => nomatch hr), ?_⟩
    intro failure hf
    exact ⟨r.1, r.2, (Except.error.inj hf).symm⟩

/-- A condition on orders, on each kind of member that they have. -/
def ordersWanted (street : Json) : Json :=
  .object [("Address", .object [("street", street)]),
    ("customer", .object [("key", .object [("id", .string "C-1")])]),
    ("number", .object [("from", .integer 1)]), ("payment_Cash", .bool false)]

theorem build_iff_conforms_orders : ∃ s a, orders.resolve .standard = .ok s ∧
    a ∈ s.graph.nodes ∧ a.typeName = "Order" ∧ s.Conforms a (ordersWanted (.string "Main")) ∧
    ¬ s.Conforms a (ordersWanted (.integer 5)) ∧ ∃ field problem,
      Query.build s a.path (ordersWanted (.integer 5)) = .error (.badCondition field problem) := by
  obtain ⟨s, hs, h⟩ := exists_ok_of_any (orders.resolve .standard) (fun s => s.graph.nodes.any
    fun a => a.typeName = "Order" ∧
      (Query.build s a.path (ordersWanted (.string "Main"))).toOption.isSome ∧
      (Query.build s a.path (ordersWanted (.integer 5))).toOption.isNone) (by decide +kernel)
  obtain ⟨a, ha, h⟩ := List.any_eq_true.1 h
  obtain ⟨hname, haccepted, hrejected⟩ := of_decide_eq_true h
  obtain ⟨hmain, -⟩ := build_iff_conforms hs ha (ordersWanted (.string "Main"))
  obtain ⟨hfive, hfailure⟩ := build_iff_conforms hs ha (ordersWanted (.integer 5))
  cases hq : Query.build s a.path (ordersWanted (.string "Main")) with
  | error failure => simp [hq, Except.toOption] at haccepted
  | ok q =>
    cases hr : Query.build s a.path (ordersWanted (.integer 5)) with
    | ok r => simp [hr, Except.toOption] at hrejected
    | error failure =>
      obtain ⟨field, problem, rfl⟩ := hfailure failure hr
      have hnull : ordersWanted (.string "Main") ≠ .null := by simp [ordersWanted]
      refine ⟨s, a, hs, ha, hname, (hmain.1 ⟨q, hq⟩).resolve_left hnull, fun hc => ?_, field,
        problem, hr⟩
      obtain ⟨r, hok⟩ := hfive.2 (Or.inr hc)
      rw [hr] at hok
      cases hok

end Draft

end AggregateSchema
