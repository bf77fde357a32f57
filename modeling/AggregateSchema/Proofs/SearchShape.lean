import AggregateSchema.Proofs.SearchConditions

/-! The values in a condition stand apart from the text of the query: conditions that filter by the
same things give the same text. -/
namespace AggregateSchema

/-- A value, unless it is null. -/
def Json.given? : Json → Option Json
  | .null => none
  | v => some v

/-- Whether a text to be found is given, and not a blank one. -/
def givesText : Option Json → Bool
  | some (.string text) => !Text.isBlank text
  | _ => false

/-- The part of the key of a reference that a condition gives. -/
def conditionPart (condition : Option Json) (reference key : String) : Option Json :=
  conditionField (conditionField (conditionField condition reference) "key") key

/-- Whether two conditions on a scalar filter by the same things. -/
def ScalarKind.SameFilter (kind : ScalarKind) (v w : Option Json) : Prop :=
  match kind.filterStyle with
  | .range => (conditionField v "from").isSome = (conditionField w "from").isSome ∧
      (conditionField v "to").isSome = (conditionField w "to").isSome
  | .freeText => givesText v = givesText w
  | .select | .exact => v.isSome = w.isSome

/-- Whether two conditions filter by the same things in one member. -/
def Member.SameShape (s : Schema) (nested : Aggregate → Option Json → Option Json → Prop)
    (c d : Option Json) : Member → Prop
  | .scalar m => m.kind.SameFilter (conditionField c m.name) (conditionField d m.name)
  | .child l => nested l.terminal (conditionField c l.name) (conditionField d l.name)
  | .children _ => True
  | .variation v => ∀ x ∈ v.variants,
      conditionToggle c (variantFieldName v.name x.2.terminal.path) =
        conditionToggle d (variantFieldName v.name x.2.terminal.path)
  | .reference l => ∀ k ∈ s.keysOf l.terminal,
      (conditionPart c l.name k.name).isSome = (conditionPart d l.name k.name).isSome

/-- Whether two conditions filter by the same things in an aggregate, and in its children to at most
`levels` levels. -/
def Schema.SameShapeWithin (s : Schema) : Nat → Aggregate → Option Json → Option Json → Prop
  | 0, _, _, _ => True
  | levels + 1, a, c, d =>
    ∀ m ∈ s.graph.members a, m.SameShape s (s.SameShapeWithin levels) c d

/-- Whether two conditions filter by the same things: the same bounds of ranges, texts that are not
blank, items and truth values, variants and parts of keys. -/
def Schema.SameShape (s : Schema) (a : Aggregate) (c d : Json) : Prop :=
  s.SameShapeWithin s.graph.nodes.length a c.given? d.given?

instance (kind : ScalarKind) (v w : Option Json) : Decidable (kind.SameFilter v w) := by
  unfold ScalarKind.SameFilter
  cases kind.filterStyle <;> infer_instance

instance (s : Schema) (nested : Aggregate → Option Json → Option Json → Prop)
    [∀ a c d, Decidable (nested a c d)] (c d : Option Json) :
    (m : Member) → Decidable (m.SameShape s nested c d)
  | .scalar m => inferInstanceAs (Decidable (m.kind.SameFilter _ _))
  | .child l => inferInstanceAs (Decidable (nested l.terminal _ _))
  | .children _ => isTrue trivial
  | .variation v => inferInstanceAs (Decidable (∀ x ∈ v.variants, _ = _))
  | .reference l => inferInstanceAs (Decidable (∀ k ∈ s.keysOf l.terminal, _ = _))

instance Schema.SameShapeWithin.decidable (s : Schema) : (levels : Nat) → (a : Aggregate) →
    (c d : Option Json) → Decidable (s.SameShapeWithin levels a c d)
  | 0, _, _, _ => isTrue trivial
  | levels + 1, a, c, d =>
    have := Schema.SameShapeWithin.decidable s levels
    inferInstanceAs (Decidable (∀ m ∈ s.graph.members a, m.SameShape s _ c d))

instance (s : Schema) (a : Aggregate) (c d : Json) : Decidable (s.SameShape a c d) :=
  inferInstanceAs (Decidable (s.SameShapeWithin _ a _ _))

namespace Predicate

/-- A predicate but for its value. -/
def skeleton : Predicate → Predicate
  | compared e c operator _ => compared e c operator .null
  | containing e c _ => containing e c .null
  | among e c tags => among e c tags

theorem text_skeleton (name placeholder : String) (p : Predicate) :
    p.skeleton.text name placeholder = p.text name placeholder := by
  cases p <;> rfl

theorem table_skeleton (p : Predicate) : p.skeleton.table = p.table := by
  cases p <;> rfl

theorem length_value?_skeleton (p : Predicate) :
    p.skeleton.value?.toList.length = p.value?.toList.length := by
  cases p <;> rfl

/-- The texts of predicates do not depend on their values. -/
theorem texts_map_skeleton (name : Entity → String) (first : Nat) (ps : List Predicate) :
    texts name first (ps.map skeleton) = texts name first ps := by
  induction ps generalizing first with
  | nil => rfl
  | cons p ps ih =>
    rw [List.map_cons, texts, texts, table_skeleton, text_skeleton, length_value?_skeleton, ih]

theorem length_values_map_skeleton (ps : List Predicate) :
    (values (ps.map skeleton)).length = (values ps).length := by
  simp only [values, List.length_flatMap, List.map_map]
  exact congrArg List.sum (List.map_congr_left fun p _ => length_value?_skeleton p)

end Predicate

namespace SearchStep

/-- A step but for the value in it. -/
def skeleton : SearchStep → SearchStep
  | filter p => filter p.skeleton
  | x => x

theorem joined_skeleton (x : SearchStep) : x.skeleton.joined = x.joined := by
  cases x <;> rfl

theorem selected_skeleton (name : Entity → String) (x : SearchStep) :
    x.skeleton.selected name = x.selected name := by
  cases x <;> rfl

theorem results_skeleton (x : SearchStep) : x.skeleton.results = x.results := by
  cases x <;> rfl

theorem map_skeleton_predicates (x : SearchStep) :
    x.skeleton.predicates.map Predicate.skeleton = x.predicates.map Predicate.skeleton := by
  cases x with
  | filter p => cases p <;> rfl
  | _ => rfl

/-- What does not depend on the values in some steps is found in their skeleton. -/
theorem flatMap_eq_of_map_skeleton_eq {α : Type} {f : SearchStep → List α}
    (hf : ∀ x, f x.skeleton = f x) {xs ys : List SearchStep}
    (h : xs.map skeleton = ys.map skeleton) : xs.flatMap f = ys.flatMap f := by
  have hmap : ∀ zs : List SearchStep, (zs.map skeleton).flatMap f = zs.flatMap f := fun zs => by
    rw [List.flatMap_map]
    exact List.flatMap_congr fun x _ => hf x
  rw [← hmap xs, h, hmap]

end SearchStep

theorem Statement.render_congr {s t : Statement} (htables : s.tables = t.tables)
    (hselections : s.selections = t.selections) (hfilters : s.filters = t.filters)
    (horders : s.orders = t.orders) : s.render = t.render := by
  rw [render, render, htables, hselections, hfilters, horders]

namespace Query
open SearchStep

/-- The text, the result columns and the number of parameters do not depend on the values in the
steps. -/
theorem ofSteps_congr {xs ys : List SearchStep} (h : xs.map skeleton = ys.map skeleton) (e : Entity) :
    (ofSteps e xs).text = (ofSteps e ys).text ∧ (ofSteps e xs).columns = (ofSteps e ys).columns ∧
      (ofSteps e xs).statement.parameters.length = (ofSteps e ys).statement.parameters.length := by
  have hjoined := flatMap_eq_of_map_skeleton_eq joined_skeleton h
  have hselected := fun name => flatMap_eq_of_map_skeleton_eq (selected_skeleton name) h
  have hresults := flatMap_eq_of_map_skeleton_eq results_skeleton h
  have hpredicates : (xs.flatMap predicates).map Predicate.skeleton =
      (ys.flatMap predicates).map Predicate.skeleton := by
    rw [List.map_flatMap, List.map_flatMap]
    exact flatMap_eq_of_map_skeleton_eq map_skeleton_predicates h
  refine ⟨congrArg liftStatement (Statement.render_congr ?_ ?_ ?_ rfl), ?_, ?_⟩
  · simp [ofSteps, after, hjoined]
  · simp [ofSteps, after, hjoined, hselected]
  · simp only [ofSteps, after, hjoined]
    rw [← Predicate.texts_map_skeleton, hpredicates, Predicate.texts_map_skeleton]
  · simp [ofSteps, after, hresults]
  · simp only [ofSteps, after, Statement.registerAll, List.length_append, Statement.length_numbered]
    rw [← Predicate.length_values_map_skeleton, hpredicates, Predicate.length_values_map_skeleton]

end Query

namespace SearchStep
variable {s : Schema} {e : Entity} {column field : String}

theorem map_skeleton_comparison (operator : String) {v w : Option Json}
    (h : v.isSome = w.isSome) :
    (comparison e column operator v).map skeleton = (comparison e column operator w).map skeleton := by
  cases v <;> cases w <;> simp_all [comparison, skeleton, Predicate.skeleton]

/-- The steps for an accepted condition on a scalar that is filtered by bounds. -/
theorem ofScalarValue_of_range {kind : ScalarKind} (hk : kind.filterStyle = .range) {v : Option Json}
    (hv : v.all Json.isObject = true) :
    (v.toList.flatMap fun v => ofScalarValue e column kind v field) =
      comparison e column ">=" (conditionField v "from") ++
        comparison e column "<=" (conditionField v "to") := by
  cases v with
  | none => rfl
  | some v =>
    rw [Option.all_some] at hv
    rw [Option.toList_some, List.flatMap_singleton]
    unfold ofScalarValue
    rw [hk]
    exact if_pos hv

/-- One step for a condition that names an item. -/
theorem map_skeleton_of_select {definition : Enumeration} {v : Option Json}
    (hv : v.all (fun v => (Query.item? definition v).isSome) = true) :
    (v.toList.flatMap fun v => ofScalarValue e column (.enumeration definition) v field).map skeleton =
      if v.isSome then [filter (.compared e column "=" .null)] else [] := by
  cases v with
  | none => rfl
  | some v =>
    rw [Option.all_some] at hv
    obtain ⟨n, hn⟩ := Option.isSome_iff_exists.1 hv
    rw [Option.toList_some, List.flatMap_singleton, ofScalarValue]
    simp only [ScalarKind.filterStyle, hn]
    rfl

theorem map_skeleton_of_exact {v : Option Json} (hv : v.all (·.bool?.isSome) = true) :
    (v.toList.flatMap fun v => ofScalarValue e column .boolean v field).map skeleton =
      if v.isSome then [filter (.compared e column "=" .null)] else [] := by
  cases v with
  | none => rfl
  | some v =>
    cases v with
    | bool b => rfl
    | _ => cases hv

theorem map_skeleton_of_freeText {kind : ScalarKind} (hk : kind.filterStyle = .freeText)
    {v : Option Json} (hv : v.all (·.string?.isSome) = true) :
    (v.toList.flatMap fun v => ofScalarValue e column kind v field).map skeleton =
      if givesText v then [filter (.containing e column .null)] else [] := by
  cases v with
  | none => rfl
  | some v =>
    cases v with
    | string text =>
      have htrim := Text.trimChars_eq_nil_iff text.toList
      rw [Option.toList_some, List.flatMap_singleton, givesText, Text.isBlank]
      unfold ofScalarValue
      rw [hk]
      cases h : text.toList.all Text.isBlankChar with
      | true => simp [htrim.2 h]
      | false => simp [mt htrim.1 (Bool.not_eq_true _ ▸ h), skeleton, Predicate.skeleton]
    | _ => cases hv

/-- Accepted conditions on a scalar that filter by the same things have steps of one skeleton. -/
theorem map_skeleton_ofScalarValue {kind : ScalarKind} {v w : Option Json}
    (hv : ∀ u, v = some u → s.FitsField (AggregateGraph.conditionKind kind) u)
    (hw : ∀ u, w = some u → s.FitsField (AggregateGraph.conditionKind kind) u)
    (h : kind.SameFilter v w) :
    (v.toList.flatMap fun v => ofScalarValue e column kind v field).map skeleton =
      (w.toList.flatMap fun v => ofScalarValue e column kind v field).map skeleton := by
  have hall : ∀ {o : Option Json} {p : Json → Bool},
      (∀ u, o = some u → p u = true) → o.all p = true := (Option.all_eq_true ..).2
  cases kind with
  | enumeration definition =>
    have hs : v.isSome = w.isSome := h
    rw [map_skeleton_of_select (hall fun u hu => Schema.fitsField_select_iff.1 (hv u hu)),
      map_skeleton_of_select (hall fun u hu => Schema.fitsField_select_iff.1 (hw u hu)), hs]
  | boolean =>
    have hs : v.isSome = w.isSome := h
    rw [map_skeleton_of_exact (hall fun u hu => Schema.fitsField_boolean_iff.1 (hv u hu)),
      map_skeleton_of_exact (hall fun u hu => Schema.fitsField_boolean_iff.1 (hw u hu)), hs]
  | integer | decimal | date | datetime =>
    obtain ⟨hfrom, hto⟩ := h
    rw [ofScalarValue_of_range rfl (hall fun u hu => Schema.fitsField_range_iff.1 (hv u hu)),
      ofScalarValue_of_range rfl (hall fun u hu => Schema.fitsField_range_iff.1 (hw u hu)),
      List.map_append, List.map_append, map_skeleton_comparison _ hfrom, map_skeleton_comparison _ hto]
  | identifier | word | sentence =>
    have hs : givesText v = givesText w := h
    rw [map_skeleton_of_freeText rfl (hall fun u hu => Schema.fitsField_text_iff.1 (hv u hu)),
      map_skeleton_of_freeText rfl (hall fun u hu => Schema.fitsField_text_iff.1 (hw u hu)), hs]

/-- The steps for an accepted condition on a reference. -/
theorem ofReferenceValue_eq {name : String} {target : Path} {v : Option Json}
    (hv : ∀ u, v = some u → s.FitsField (.keyAndText target) u) :
    (v.toList.flatMap fun v => ofReferenceValue e name v field) =
      (e.referenceColumns name).flatMap fun x =>
        comparison e x.1.name "=" (conditionField (conditionField v "key") x.2) := by
  have hnone : ∀ columns : List (Column × String), columns.flatMap (fun x =>
      comparison e x.1.name "=" (conditionField none x.2)) = [] := fun columns =>
    List.flatMap_eq_nil_iff.2 fun x _ => rfl
  cases v with
  | none => exact (hnone _).symm
  | some v =>
    obtain ⟨hobject, hkey⟩ := Schema.fitsField_keyAndText_iff.1 (hv v rfl)
    rw [Option.toList_some, List.flatMap_singleton, ofReferenceValue, hobject]
    cases hk : conditionField (some v) "key" with
    | none => exact (hnone _).symm
    | some k =>
      cases k with
      | object key => rfl
      | _ => cases hkey _ hk

theorem ofToggle_eq_nil {p : SearchPlace} {toggle : String} (h : AreAccepted (ofToggle p toggle)) :
    ofToggle p toggle = [] := by
  unfold ofToggle at h ⊢
  cases hv : p.value toggle with
  | none => rfl
  | some v =>
    cases v with
    | bool b => rfl
    | _ =>
      rw [hv] at h
      exact absurd h not_areAccepted_reject

/-- The steps for an accepted condition on what is nested. -/
theorem ofChild_eq {nested : SearchPlace → List SearchStep} {p : SearchPlace} {l : Link}
    {target : Entity} (h : AreAccepted (ofChild nested p l target)) :
    ofChild nested p l target = nested (p.child l target (p.value l.name)) := by
  unfold ofChild at h ⊢
  cases hv : p.value l.name with
  | none => rfl
  | some v =>
    cases v with
    | object fields => rfl
    | _ =>
      rw [hv] at h
      exact absurd h not_areAccepted_reject

end SearchStep

namespace Schema
open SearchStep
variable {s : Schema} {a : Aggregate} {e : Entity}

/-- A column that holds a part of a key does so for a reference of the aggregate. -/
theorem IsEntityOf.exists_reference (hs : s.IsEntityOf e a) {name : String} {x : Column × String}
    (hx : x ∈ e.referenceColumns name) : ∃ l, Member.reference l ∈ s.graph.members a ∧
      l.name = name ∧ ∃ k ∈ s.keysOf l.terminal, k.name = x.2 := by
  obtain ⟨c, target⟩ := x
  obtain ⟨hc, hi, path, hr⟩ := Entity.mem_referenceColumns.1 hx
  rcases hs.exists_member hc hi with hseq | ⟨m, hm, hcm⟩
  · rw [(hs.eq_sequence hseq).2.2] at hr
    cases hr
  · cases m with
    | scalar m =>
      rw [columns_of_scalar, List.mem_singleton] at hcm
      rw [hcm] at hr
      cases hr
    | variation v =>
      obtain rfl := List.mem_singleton.1 hcm
      cases hr
    | reference l =>
      have hkey : ∃ nullable, ∃ k ∈ s.keysOf l.terminal,
          Column.foreignKey a.typeName l nullable k = c := by
        rcases List.mem_append.1 hcm with hcm | hcm
        · rw [memberKeys] at hcm
          split at hcm
          · exact ⟨_, List.mem_map.1 hcm⟩
          · cases hcm
        · rw [memberColumns] at hcm
          split at hcm
          · cases hcm
          · exact ⟨_, List.mem_map.1 hcm⟩
      obtain ⟨nullable, k, hk, rfl⟩ := hkey
      cases hr
      exact ⟨l, hm, rfl, k, hk, rfl⟩
    | _ => cases hcm

/-- Whether accepted conditions that are the same in what they filter by have steps of one skeleton,
from every place in the table of an aggregate. -/
def KeepsShape (s : Schema) (a : Aggregate) (same : Option Json → Option Json → Prop)
    (steps : SearchPlace → List SearchStep) : Prop :=
  ∀ {e c d children field}, s.IsEntityOf e a → same c d →
    AreAccepted (steps ⟨e, c, children, field⟩) → AreAccepted (steps ⟨e, d, children, field⟩) →
    (steps ⟨e, c, children, field⟩).map skeleton = (steps ⟨e, d, children, field⟩).map skeleton

/-- Accepted conditions of one shape have steps of one skeleton for each member. -/
theorem keepsShape_ofMember {nested : Aggregate → SearchPlace → List SearchStep}
    {same : Aggregate → Option Json → Option Json → Prop} {m : Member}
    (hm : m ∈ s.graph.members a)
    (hn : ∀ l ∈ m.links, s.KeepsShape l.terminal (same l.terminal) (nested l.terminal)) :
    s.KeepsShape a (fun c d => ∀ k ∈ s.graph.members a, k.SameShape s same c d)
      (ofMember s nested · m) := by
  intro e c d children field hs hshape hc hd
  beta_reduce at hc hd ⊢
  cases m with
  | children l => rfl
  | scalar m =>
    rw [ofMember, areAccepted_cons, areAccepted_flatMap_toList] at hc hd
    refine congrArg (skeleton (select e m.name _) :: ·) ?_
    exact map_skeleton_ofScalarValue (s := s)
      (fun u hu => areAccepted_ofScalarValue_iff.1 (hc.2 u hu))
      (fun u hu => areAccepted_ofScalarValue_iff.1 (hd.2 u hu)) (hshape _ hm)
  | child l =>
    have hl : l ∈ (Member.child l).links := List.mem_singleton_self l
    obtain ⟨target, he, ht⟩ := exists_entity (AggregateGraph.terminal_mem_of_mem_links hm hl)
    rw [ofMember_child he, areAccepted_cons] at hc hd
    rw [ofMember_child he, ofMember_child he, List.map_cons, List.map_cons, ofChild_eq hc.2,
      ofChild_eq hd.2]
    refine congrArg (skeleton (join target) :: ·) ?_
    exact hn l hl ht (hshape _ hm) (ofChild_eq hc.2 ▸ hc.2) (ofChild_eq hd.2 ▸ hd.2)
  | variation v =>
    have hnil : ∀ {c}, AreAccepted (ofMember s nested ⟨e, c, children, field⟩ (.variation v)) →
        (v.variants.flatMap fun x => ofToggle ⟨e, c, children, field⟩
          (variantFieldName v.name x.2.terminal.path)) = [] := by
      intro c h
      rw [ofMember, List.cons_append, areAccepted_cons, areAccepted_append,
        areAccepted_flatMap] at h
      exact List.flatMap_eq_nil_iff.2 fun x hx => ofToggle_eq_nil (h.2.1 x hx)
    have htags : SearchPlace.wantedTags ⟨e, c, children, field⟩ v =
        SearchPlace.wantedTags ⟨e, d, children, field⟩ v :=
      congrArg (List.map _) (List.filter_congr fun x hx => hshape _ hm x hx)
    rw [ofMember, ofMember, hnil hc, hnil hd, htags]
    rfl
  | reference l =>
    rw [ofMember, areAccepted_flatMap_toList] at hc hd
    have hfits : ∀ {c : Option Json}, (∀ u, conditionField c l.name = some u →
        AreAccepted (ofReferenceValue e l.name u (SearchPlace.inner ⟨e, c, children, field⟩ l.name))) →
        ∀ u, conditionField c l.name = some u → s.FitsField (.keyAndText l.terminal.path) u :=
      fun h u hu => areAccepted_ofReferenceValue_iff.1 (h u hu)
    refine (congrArg _ (ofReferenceValue_eq (hfits hc))).trans
      (Eq.trans ?_ (congrArg _ (ofReferenceValue_eq (hfits hd))).symm)
    rw [List.map_flatMap, List.map_flatMap]
    refine List.flatMap_congr fun x hx => map_skeleton_comparison "=" ?_
    obtain ⟨k, hk, hname, key, hkey, hpart⟩ := hs.exists_reference hx
    have hsame := hshape _ hk key hkey
    rw [hname, hpart] at hsame
    exact hsame

/-- Accepted conditions of one shape have steps of one skeleton. -/
theorem keepsShape_searchSteps (levels : Nat) :
    s.KeepsShape a (s.SameShapeWithin levels a) (s.searchSteps levels a) := by
  induction levels generalizing a with
  | zero => intro e c d children field hs hshape hc hd; rfl
  | succ n ih =>
    intro e c d children field hs hshape hc hd
    rw [searchSteps, areAccepted_flatMap] at hc hd
    rw [searchSteps, searchSteps, List.map_flatMap, List.map_flatMap]
    refine List.flatMap_congr fun m hm => ?_
    exact keepsShape_ofMember hm (fun l _ => ih) hs hshape (hc m hm) (hd m hm)

/-- The steps of a search that is accepted are those for the members of its aggregate. -/
theorem search_eq {c : Json} (h : AreAccepted (s.search a e c)) :
    s.search a e c = s.searchSteps s.graph.nodes.length a ⟨e, c.given?, [], a.typeName⟩ := by
  cases c with
  | null | object => rfl
  | _ => exact absurd h not_areAccepted_reject

/-- The predicates of the search for an aggregate by a condition. -/
def predicates (s : Schema) (a : Aggregate) (condition : Json) : List Predicate :=
  (s.entity? a.path).toList.flatMap fun e =>
    (s.search a e condition).flatMap SearchStep.predicates

theorem predicates_eq (he : s.entity? a.path = some e) (condition : Json) :
    s.predicates a condition = (s.search a e condition).flatMap SearchStep.predicates := by
  rw [predicates, he, Option.toList_some, List.flatMap_singleton]

/-- An accepted search comes to the query of its steps. -/
theorem build_eq_ok (hg : s.graph.IsForest) (ha : a ∈ s.graph.nodes)
    (he : s.entity? a.path = some e) {condition : Json} {q : Query}
    (h : Query.build s a.path condition = .ok q) :
    AreAccepted (s.search a e condition) ∧ q = .ofSteps e (s.search a e condition) := by
  rw [build_eq hg ha he] at h
  split at h
  · cases h
  · rename_i hr
    exact ⟨List.findSome?_eq_none_iff.1 hr, (Except.ok.inj h).symm⟩

/-- Each predicate that carries a value has the next placeholder, and the parameters are the values
under these placeholders. -/
theorem filters_and_parameters (hg : s.graph.IsForest) (ha : a ∈ s.graph.nodes) {condition : Json}
    {q : Query} (h : Query.build s a.path condition = .ok q) :
    q.statement.filters =
        Predicate.texts (Statement.aliasIn q.statement.tables) 0 (s.predicates a condition) ∧
      q.statement.parameters = Statement.numbered 0 (Predicate.values (s.predicates a condition)) := by
  obtain ⟨e, he, -⟩ := exists_entity ha
  obtain ⟨-, rfl⟩ := build_eq_ok hg ha he h
  rw [predicates_eq he]
  constructor <;>
    simp [Query.ofSteps, Query.after, Query.start, Statement.empty, Statement.registerAll]

/-- Conditions that filter by the same things give one text. -/
theorem text_eq_of_sameShape (hg : s.graph.IsForest) (ha : a ∈ s.graph.nodes) {c d : Json}
    {q r : Query} (hq : Query.build s a.path c = .ok q) (hr : Query.build s a.path d = .ok r)
    (hshape : s.SameShape a c d) : q.text = r.text ∧ q.columns = r.columns ∧
      q.statement.parameters.length = r.statement.parameters.length := by
  obtain ⟨e, he, hs⟩ := exists_entity ha
  obtain ⟨hc, rfl⟩ := build_eq_ok hg ha he hq
  obtain ⟨hd, rfl⟩ := build_eq_ok hg ha he hr
  refine Query.ofSteps_congr ?_ e
  have hcsteps := search_eq hc
  have hdsteps := search_eq hd
  rw [hcsteps] at hc ⊢
  rw [hdsteps] at hd ⊢
  exact keepsShape_searchSteps _ hs hshape hc hd

end Schema

namespace Draft
variable {d : Draft} {registry : TypeRegistry} {s : Schema}

/-- The values in a condition stand apart from the text: conditions of one shape give queries of one
text, with the same result columns and as many parameters, and in every query the predicates that
carry a value have the placeholders in order, with the values under them as parameters. -/
theorem values_apart_from_text (h : d.resolve registry = .ok s) {a : Aggregate}
    (ha : a ∈ s.graph.nodes) :
    (∀ {c₁ c₂ : Json} {q₁ q₂ : Query}, Query.build s a.path c₁ = .ok q₁ →
      Query.build s a.path c₂ = .ok q₂ → s.SameShape a c₁ c₂ →
        q₁.text = q₂.text ∧ q₁.columns = q₂.columns ∧
          q₁.statement.parameters.length = q₂.statement.parameters.length) ∧
    ∀ {c : Json} {q : Query}, Query.build s a.path c = .ok q →
      q.statement.filters =
          Predicate.texts (Statement.aliasIn q.statement.tables) 0 (s.predicates a c) ∧
        q.statement.parameters = Statement.numbered 0 (Predicate.values (s.predicates a c)) :=
  ⟨Schema.text_eq_of_sameShape (isForest h) ha, Schema.filters_and_parameters (isForest h) ha⟩

theorem values_apart_from_text_orders : ∃ s a q r text, orders.resolve .standard = .ok s ∧
    a ∈ s.graph.nodes ∧ Query.build s a.path (ordersWanted (.string "Main")) = .ok q ∧
    Query.build s a.path (ordersWanted (.string "High")) = .ok r ∧ q.text = .ok text ∧
    r.text = .ok text ∧ q.columns = r.columns ∧ q.statement.parameters.length = 3 ∧
    q.statement.parameters = Statement.numbered 0
      (Predicate.values (s.predicates a (ordersWanted (.string "Main")))) := by
  obtain ⟨s, hs, h⟩ := exists_ok_of_any (orders.resolve .standard) (fun s => s.graph.nodes.any
    fun a => s.SameShape a (ordersWanted (.string "Main")) (ordersWanted (.string "High")) ∧
      (Query.build s a.path (ordersWanted (.string "Main"))).toOption.any
        (fun q => q.statement.parameters.length = 3 ∧ q.text.toOption.any fun _ => true) ∧
      (Query.build s a.path (ordersWanted (.string "High"))).toOption.any fun _ => true)
    (by decide +kernel)
  obtain ⟨a, ha, h⟩ := List.any_eq_true.1 h
  obtain ⟨hshape, hmain, hhigh⟩ := of_decide_eq_true h
  obtain ⟨q, hq, hq'⟩ := exists_ok_of_any _ _ hmain
  obtain ⟨hlength, htext⟩ := of_decide_eq_true hq'
  obtain ⟨text, htext, -⟩ := exists_ok_of_any _ _ htext
  obtain ⟨r, hr, -⟩ := exists_ok_of_any _ _ hhigh
  obtain ⟨hsame, hvalues⟩ := values_apart_from_text hs ha
  obtain ⟨hqr, hcolumns, -⟩ := hsame hq hr hshape
  exact ⟨s, a, q, r, text, hs, ha, hq, hr, htext, hqr.symm.trans htext, hcolumns, hlength,
    (hvalues hq).2⟩

end Draft

end AggregateSchema
