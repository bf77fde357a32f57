import AggregateSchema.Proofs.DeclaredMembers
import AggregateSchema.Proofs.FieldNames
import AggregateSchema.Proofs.SearchShape

/-! The result columns of a search are named as the fields of its results are, and names may only
coincide where one of them is composed. -/
namespace AggregateSchema

namespace Member

/-- Whether a member that is no child is a result column of a search. Nothing is selected for a
reference. -/
def isSelected : Member → Bool
  | scalar _ | variation _ => true
  | _ => false

theorem isInResult_of_isSelected (m : Member) (h : m.isSelected = true) : m.isInResult = true := by
  cases m with
  | children l => cases h
  | _ => rfl

end Member

namespace Query

theorem resultFront_cons (child : String) (children : List String) :
    resultFront (child :: children) = child ++ "_" ++ resultFront children := by
  cases children with
  | nil => simp [resultFront]
  | cons next rest => simp [resultFront, String.intercalate_cons_cons, String.append_assoc]

theorem resultFront_append (children below : List String) :
    resultFront (children ++ below) = resultFront children ++ resultFront below := by
  induction children with
  | nil => simp [resultFront]
  | cons child children ih =>
    rw [List.cons_append, resultFront_cons, resultFront_cons, ih, ← String.append_assoc]

end Query

/-- What a child shows stands after the name of the child. -/
theorem SearchPlace.result_child (p : SearchPlace) (l : Link) (target : Entity)
    (condition : Option Json) (name : String) :
    (p.child l target condition).result name = p.result (l.name ++ "_" ++ name) := by
  rw [result, child, Query.resultFront_append, Query.resultFront_cons, result]
  simp [Query.resultFront, String.append_assoc]

namespace SearchStep

/-! Steps for a condition select nothing. -/

@[simp] theorem results_comparison (e : Entity) (column operator : String) (value : Option Json) :
    (comparison e column operator value).flatMap results = [] := by
  cases value <;> rfl

@[simp] theorem results_ofScalarValue (e : Entity) (column : String) (kind : ScalarKind)
    (value : Json) (field : String) :
    (ofScalarValue e column kind value field).flatMap results = [] := by
  unfold ofScalarValue
  cases kind.filterStyle with
  | range =>
    dsimp only
    split
    · rw [List.flatMap_append, results_comparison, results_comparison, List.append_nil]
    · rfl
  | select =>
    cases kind with
    | enumeration definition => dsimp only; split <;> rfl
    | _ => rfl
  | freeText =>
    dsimp only
    split
    · split <;> rfl
    · rfl
  | exact => dsimp only; split <;> rfl

@[simp] theorem results_ofReferenceValue (e : Entity) (name : String) (value : Json)
    (field : String) : (ofReferenceValue e name value field).flatMap results = [] := by
  unfold ofReferenceValue
  split
  · rfl
  · split
    · rfl
    · rw [List.flatMap_assoc]
      exact List.flatMap_eq_nil_iff.2 fun y _ => results_comparison e _ _ _
    · rfl

@[simp] theorem results_ofToggle (p : SearchPlace) (toggle : String) :
    (ofToggle p toggle).flatMap results = [] := by
  unfold ofToggle
  split <;> rfl

@[simp] theorem results_choice (e : Entity) (v : VariationGroup) (tags : List Int) :
    (choice e v tags).flatMap results = [] := by
  unfold choice
  split <;> rfl

/-- Whether accepted steps select what has the given names at a place. -/
def Selects (names : List String) (steps : SearchPlace → List SearchStep) : Prop :=
  ∀ p, AreAccepted (steps p) → (steps p).flatMap results = names.map p.result

end SearchStep

namespace Schema
open SearchStep
variable {s : Schema} {a : Aggregate}

/-- The steps for a member select the member, or what is shown of a child. -/
theorem selects_ofMember {nested : Aggregate → SearchPlace → List SearchStep}
    {names : Aggregate → List String} {m : Member} (hm : m ∈ s.graph.members a)
    (hn : ∀ l ∈ m.links, Selects (names l.terminal) (nested l.terminal)) :
    Selects (m.resultNames Member.isSelected names) (ofMember s nested · m) := by
  intro p h
  beta_reduce at h ⊢
  cases m with
  | children l => rfl
  | scalar m =>
    simp [ofMember, List.flatMap_assoc, Member.resultNames, Member.isSelected, Member.name]
  | variation v =>
    simp [ofMember, List.flatMap_assoc, Member.resultNames, Member.isSelected, Member.name]
  | reference l => simp [ofMember, List.flatMap_assoc, Member.resultNames, Member.isSelected]
  | child l =>
    have hl : l ∈ (Member.child l).links := List.mem_singleton_self l
    obtain ⟨target, he, -⟩ := exists_entity (AggregateGraph.terminal_mem_of_mem_links hm hl)
    rw [ofMember_child he, areAccepted_cons] at h
    have hchild := ofChild_eq h.2
    have hjoin : (join target).results = [] := rfl
    rw [hchild] at h
    rw [ofMember_child he, List.flatMap_cons, hjoin, List.nil_append, hchild, hn l hl _ h.2,
      Member.resultNames, List.map_map]
    exact List.map_congr_left fun name _ => p.result_child l target _ name

theorem selects_searchSteps (levels : Nat) (a : Aggregate) :
    Selects (s.graph.resultNamesWithin Member.isSelected levels a) (s.searchSteps levels a) := by
  induction levels generalizing a with
  | zero => intro p _; rfl
  | succ n ih =>
    intro p h
    rw [searchSteps, areAccepted_flatMap] at h
    rw [searchSteps, AggregateGraph.resultNamesWithin, List.flatMap_assoc, List.map_flatMap]
    exact List.flatMap_congr fun m hm => selects_ofMember hm (fun l _ => ih l.terminal) p (h m hm)

/-- The result columns of a search are the scalars and the variations of its aggregate and of the
children flattened into it. -/
theorem columns_eq_resultNames (hg : s.graph.IsForest) (ha : a ∈ s.graph.nodes) {condition : Json}
    {q : Query} (h : Query.build s a.path condition = .ok q) :
    q.columns = s.graph.resultNames Member.isSelected a := by
  obtain ⟨e, he, -⟩ := exists_entity ha
  obtain ⟨hsteps, rfl⟩ := build_eq_ok hg ha he h
  have hsearch := search_eq hsteps
  rw [hsearch] at hsteps ⊢
  have hfront : SearchPlace.result ⟨e, condition.given?, [], a.typeName⟩ = id :=
    funext fun _ => String.empty_append
  have hselected := selects_searchSteps _ a _ hsteps
  rw [hfront, List.map_id] at hselected
  simpa [Query.ofSteps, Query.after, Query.start, AggregateGraph.resultNames] using hselected

end Schema

namespace Draft
variable {d : Draft} {registry : TypeRegistry} {s : Schema} {a : Aggregate}

/-- The names in a view are distinct exactly if no composed name of a member is a name of another
member as well; those in results, if this is so in each aggregate flattened into them. The result
columns of a search are among the names in the results, in order, and distinct if these are. -/
theorem nodup_names_iff (h : d.resolve registry = .ok s) (hv : s.validate = .ok ())
    (ha : a ∈ s.graph.nodes) :
    ((s.graph.views a).searchCondition.names.Nodup ↔
      Member.ComposedApart Member.conditionNames (s.graph.members a)) ∧
    ((s.graph.views a).detail.names.Nodup ↔
      Member.ComposedApart Member.detailNames (s.graph.members a)) ∧
    ((s.graph.views a).searchResult.names.Nodup ↔
      ∀ b ∈ s.graph.nodes, s.graph.Flattens a b → Member.ComposedApart
        (Member.resultNames Member.isInResult fun c => (s.graph.views c).searchResult.names)
        (s.graph.members b)) ∧
    ∀ {condition : Json} {q : Query}, Query.build s a.path condition = .ok q →
      q.columns.Sublist (s.graph.views a).searchResult.names ∧
      (q.columns.Nodup ↔ ∀ b ∈ s.graph.nodes, s.graph.Flattens a b → Member.ComposedApart
        (Member.resultNames Member.isSelected (s.graph.resultNames Member.isSelected))
        (s.graph.members b)) := by
  have hg := isForest h
  have hn := fun b (hb : b ∈ s.graph.nodes) => nodup_members_of_validate hv hb
  have hdetail : ∀ m ∈ s.graph.members a, m.detailNames.Nodup := fun m hm =>
    hg.nodup_detailNames ha hm
  have hcondition : ∀ m ∈ s.graph.members a, m.conditionNames.Nodup := fun m hm =>
    (hdetail m hm).sublist m.conditionNames_sublist
  simp only [AggregateGraph.names_searchCondition, AggregateGraph.names_detail,
    AggregateGraph.names_searchResult]
  refine ⟨?_, ?_, Schema.nodup_resultNames_iff hg hn ha, fun hq => ?_⟩
  · exact (Member.nodup_flatMap_iff (hn a ha)).trans (and_iff_right hcondition)
  · exact (Member.nodup_flatMap_iff (hn a ha)).trans (and_iff_right hdetail)
  · rw [Schema.columns_eq_resultNames hg ha hq]
    exact ⟨AggregateGraph.resultNamesWithin_sublist Member.isInResult_of_isSelected _ a,
      Schema.nodup_resultNames_iff hg hn ha⟩

theorem nodup_names_orders : ∃ s, orders.resolve .standard = .ok s ∧ s.validate = .ok () ∧
    (∃ a ∈ s.graph.nodes, (s.graph.views a).detail.names =
      ["number", "customer", "Address", "Line", "payment", "payment_Card", "payment_Cash"]) ∧
    ∀ a ∈ s.graph.nodes, (s.graph.views a).searchCondition.names.Nodup ∧
      (s.graph.views a).detail.names.Nodup ∧ (s.graph.views a).searchResult.names.Nodup ∧
        ∃ q, Query.build s a.path .null = .ok q ∧ q.columns.Nodup := by
  obtain ⟨s, hs, h⟩ := exists_ok_of_any (orders.resolve .standard)
    (fun s => s.designProblems.isEmpty &&
      (s.graph.nodes.any fun a => (s.graph.views a).detail.names =
        ["number", "customer", "Address", "Line", "payment", "payment_Card", "payment_Cash"]) &&
      s.graph.nodes.all fun a => (Query.build s a.path .null).toOption.isSome ∧
        Member.ComposedApart Member.conditionNames (s.graph.members a) ∧
        Member.ComposedApart Member.detailNames (s.graph.members a) ∧
        Member.ComposedApart (Member.resultNames Member.isInResult fun c =>
          (s.graph.views c).searchResult.names) (s.graph.members a)) (by decide +kernel)
  simp only [Bool.and_eq_true, List.all_eq_true, List.any_eq_true, decide_eq_true_eq] at h
  obtain ⟨⟨hd, hnames⟩, hall⟩ := h
  have hv : s.validate = .ok () := if_pos hd
  refine ⟨s, hs, hv, hnames, fun a ha => ?_⟩
  obtain ⟨hbuild, hcondition, hdetail, -⟩ := hall a ha
  obtain ⟨hc, hdet, hr, hq⟩ := nodup_names_iff hs hv ha
  have hresult := hr.2 fun b hb _ => (hall b hb).2.2.2
  obtain ⟨q, hok, -⟩ := exists_ok_of_any _ (fun _ => true) (by simpa using hbuild)
  exact ⟨hc.2 hcondition, hdet.2 hdetail, hresult, q, hok, hresult.sublist (hq hok).1⟩

/-- A scalar may be named as the part of a child is, or as a variant. -/
def composedNames : Draft where
  declarations := [
    .aggregate "/Order" none [⟨"number", "integer", true, true, false⟩,
      ⟨"Address_street", "word", false, false, false⟩,
      ⟨"payment_Card", "boolean", false, false, false⟩],
    .child "Address" "/Order" false none [⟨"street", "word", false, false, false⟩],
    .variation "payment" "/Order" false none [⟨"Card", 1, none, []⟩, ⟨"Cash", 2, none, []⟩]]
  enumerations := []

/-- What keeps the rules of design may have a name twice, in each view and in the result columns. -/
theorem not_nodup_names_of_draft : ∃ s, composedNames.resolve .standard = .ok s ∧
    s.validate = .ok () ∧ ∃ a ∈ s.graph.nodes, ¬ (s.graph.views a).searchCondition.names.Nodup ∧
      ¬ (s.graph.views a).detail.names.Nodup ∧ ¬ (s.graph.views a).searchResult.names.Nodup ∧
        ∃ q, Query.build s a.path .null = .ok q ∧ ¬ q.columns.Nodup := by
  obtain ⟨s, hs, h⟩ := exists_ok_of_any (composedNames.resolve .standard)
    (fun s => s.designProblems.isEmpty && s.graph.nodes.any fun a =>
      ¬ (s.graph.views a).searchCondition.names.Nodup ∧ ¬ (s.graph.views a).detail.names.Nodup ∧
        ¬ (s.graph.views a).searchResult.names.Nodup ∧
          (Query.build s a.path .null).toOption.any fun q => ¬ q.columns.Nodup) (by decide +kernel)
  simp only [Bool.and_eq_true, List.any_eq_true, decide_eq_true_eq] at h
  obtain ⟨hd, a, ha, hcondition, hdetail, hresult, hquery⟩ := h
  obtain ⟨q, hq, hcolumns⟩ := exists_ok_of_any _ _ hquery
  exact ⟨s, hs, if_pos hd, a, ha, hcondition, hdetail, hresult, q, hq, of_decide_eq_true hcolumns⟩

end Draft

end AggregateSchema
