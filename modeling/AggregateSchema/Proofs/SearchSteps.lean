import AggregateSchema.Proofs.Clauses
import AggregateSchema.Proofs.Depth
import AggregateSchema.Search

/-! A search as the list of its steps, read off the members of an aggregate and a condition, and the
proof that the query is put together by these steps. -/
namespace AggregateSchema

theorem conditionField_eq_some_iff {condition : Option Json} {name : String} {v : Json} :
    conditionField condition name = some v ↔ condition.bind (·.get? name) = some v ∧ v ≠ .null := by
  rw [conditionField, Option.filter_eq_some_iff]
  cases v <;> simp [Json.isNull]

/-- Whether a condition wants a variant, as it does if it does not mention it. -/
def conditionToggle (condition : Option Json) (toggle : String) : Bool :=
  match conditionField condition toggle with
  | some (.bool b) => b
  | _ => true

/-- What the rows found have to meet, in one column of a table. -/
inductive Predicate where
  | compared (table : Entity) (column operator : String) (value : Json)
  | containing (table : Entity) (column : String) (pattern : Json)
  | among (table : Entity) (column : String) (tags : List Int)

namespace Predicate

def table : Predicate → Entity
  | compared e _ _ _ | containing e _ _ | among e _ _ => e

def column : Predicate → String
  | compared _ c _ _ | containing _ c _ | among _ c _ => c

/-- The value that stands apart from the text. Tags are written in the text. -/
def value? : Predicate → Option Json
  | compared _ _ _ v | containing _ _ v => some v
  | among _ _ _ => none

def clause : Predicate → Clause
  | compared e c operator v => .compared e c operator v
  | containing e c pattern => .containing e c pattern
  | among e c tags => .among e c tags

/-- The text, with an alias for the table and a placeholder for the value. -/
def text (name placeholder : String) : Predicate → String
  | compared _ c operator _ => s!"{name}.{c} {operator} {placeholder}"
  | containing _ c _ => s!"UPPER({name}.{c}) LIKE UPPER({placeholder}) ESCAPE '\\'"
  | among _ c tags => s!"{name}.{c} IN (" ++ String.intercalate ", " (tags.map toString) ++ ")"

/-- A predicate on a table of the statement registers its value under the next placeholder. -/
theorem run_clause {s : Statement} {p : Predicate} {name : String}
    (h : s.aliasFor p.table = .ok name) :
    s.run p.clause = (.ok (p.text name (Statement.placeholder s.parameters.length)),
      s.registerAll p.value?.toList) := by
  cases p with
  | compared e c operator v =>
    have hr : (s.register v).2.aliasFor e = .ok name := h
    rw [clause, Clause.compared, Statement.run, Clause.needAlias, Statement.run, hr]
    rfl
  | containing e c pattern =>
    have hr : (s.register pattern).2.aliasFor e = .ok name := h
    rw [clause, Clause.containing, Statement.run, Clause.needAlias, Statement.run, hr]
    rfl
  | among e c tags =>
    have hr : s.aliasFor e = .ok name := h
    rw [clause, Clause.among, Clause.needAlias, Statement.run, hr]
    simp [Statement.run, text, value?, Statement.registerAll, Statement.numbered]

end Predicate

/-- A step of a search. -/
inductive SearchStep where
  | join (table : Entity)
  | select (table : Entity) (column result : String)
  | filter (predicate : Predicate)
  | reject (field : String) (problem : ConditionProblem)

/-- The query after one more step. -/
def Query.perform (q : Query) : SearchStep → Except Failure Query
  | .join table => do
    let s ← liftStatement (q.statement.leftJoin table)
    return { q with statement := s }
  | .select table column result => q.select table column result
  | .filter predicate => q.filter predicate.clause
  | .reject field problem => .error (.badCondition field problem)

/-- Where a search stands: at a table and the condition on its aggregate, below some children, and the
name of the place in a failure. -/
structure SearchPlace where
  table : Entity
  condition : Option Json
  children : List String
  field : String

namespace SearchPlace
variable (p : SearchPlace)

def value (name : String) : Option Json := conditionField p.condition name

def inner (name : String) : String := p.field ++ "." ++ name

/-- The name of a result column. -/
def result (name : String) : String := Query.resultFront p.children ++ name

def child (l : Link) (target : Entity) (condition : Option Json) : SearchPlace :=
  ⟨target, condition, p.children ++ [l.name], p.inner l.name⟩

def isOn (toggle : String) : Bool := conditionToggle p.condition toggle

/-- The tags of the variants wanted. -/
def wantedTags (v : VariationGroup) : List Int :=
  (v.variants.filter fun x => p.isOn (variantFieldName v.name x.2.terminal.path)).map (·.1)

end SearchPlace

namespace SearchStep

/-- A comparison, if there is a value to compare with. -/
def comparison (e : Entity) (column operator : String) (value : Option Json) : List SearchStep :=
  value.toList.map fun v => filter (.compared e column operator v)

/-- The steps for the condition on a scalar. -/
def ofScalarValue (e : Entity) (column : String) (kind : ScalarKind) (value : Json)
    (field : String) : List SearchStep :=
  match kind.filterStyle with
  | .range =>
    if value.isObject then
      comparison e column ">=" (conditionField (some value) "from") ++
        comparison e column "<=" (conditionField (some value) "to")
    else [reject field .expectedRange]
  | .select => match kind with
    | .enumeration definition => match Query.item? definition value with
      | some n => [filter (.compared e column "=" (.integer n))]
      | none => [reject field (.noItem value definition.name)]
    | _ => []
  | .freeText => match value with
    | .string text =>
      let trimmed := Text.trimChars text.toList
      if trimmed.isEmpty then []
      else [filter (.containing e column (.string (String.ofList (Text.containsPattern trimmed))))]
    | _ => [reject field .expectedText]
  | .exact => match value with
    | .bool b => [filter (.compared e column "=" (.bool b))]
    | _ => [reject field .expectedBoolean]

/-- The steps for the condition on a reference. -/
def ofReferenceValue (e : Entity) (name : String) (value : Json) (field : String) :
    List SearchStep :=
  if !value.isObject then [reject field .expectedPair]
  else match conditionField (some value) "key" with
    | none => []
    | some (.object key) => (e.referenceColumns name).flatMap fun (c, target) =>
        comparison e c.name "=" (conditionField (some (.object key)) target)
    | some _ => [reject field .expectedKey]

/-- Nothing, unless a toggle is neither on nor off. -/
def ofToggle (p : SearchPlace) (toggle : String) : List SearchStep :=
  match p.value toggle with
  | none | some (.bool _) => []
  | some _ => [reject (p.inner toggle) .expectedBoolean]

/-- A choice of tags, if it is neither of none nor of all. -/
def choice (e : Entity) (v : VariationGroup) (tags : List Int) : List SearchStep :=
  if tags.isEmpty || tags.length = v.variants.length then [] else [filter (.among e v.name tags)]

/-- The steps for the members of a child that is joined, where `nested` gives those at a place. -/
def ofChild (nested : SearchPlace → List SearchStep) (p : SearchPlace) (l : Link)
    (target : Entity) : List SearchStep :=
  match p.value l.name with
  | none => nested (p.child l target none)
  | some (.object fields) => nested (p.child l target (some (.object fields)))
  | some _ => [reject (p.inner l.name) .expectedObject]

/-- The steps for one member, where `nested` gives those for the members of a child. -/
def ofMember (s : Schema) (nested : Aggregate → SearchPlace → List SearchStep) (p : SearchPlace) :
    Member → List SearchStep
  | .scalar m => select p.table m.name (p.result m.name) ::
      (p.value m.name).toList.flatMap fun v =>
        ofScalarValue p.table m.name m.kind v (p.inner m.name)
  | .child l => (s.entity? l.terminal.path).toList.flatMap fun target => join target ::
      ofChild (nested l.terminal) p l target
  | .children _ => []
  | .variation v => select p.table v.name (p.result v.name) ::
      (v.variants.flatMap fun x => ofToggle p (variantFieldName v.name x.2.terminal.path)) ++
        choice p.table v (p.wantedTags v)
  | .reference l => (p.value l.name).toList.flatMap fun v =>
      ofReferenceValue p.table l.name v (p.inner l.name)

end SearchStep

/-- The steps for the members of an aggregate, and for those of its children to at most `levels`
levels. -/
def Schema.searchSteps (s : Schema) : Nat → Aggregate → SearchPlace → List SearchStep
  | 0, _, _ => []
  | levels + 1, a, p =>
    (s.graph.members a).flatMap (SearchStep.ofMember s (s.searchSteps levels) p)

namespace Query
variable (q : Query) (e : Entity)

theorem foldlM_singleton (x : SearchStep) : [x].foldlM perform q = q.perform x := by
  rw [List.foldlM_cons]
  exact bind_pure _

theorem compare?_eq (column operator : String) (value : Option Json) :
    q.compare? e column operator value =
      (SearchStep.comparison e column operator value).foldlM perform q := by
  cases value with
  | none => rfl
  | some v => exact (q.foldlM_singleton (.filter (.compared e column operator v))).symm

theorem filterScalar_eq (column : String) (kind : ScalarKind) (value : Json) (field : String) :
    q.filterScalar e column kind value field =
      (SearchStep.ofScalarValue e column kind value field).foldlM perform q := by
  unfold filterScalar SearchStep.ofScalarValue
  cases kind.filterStyle with
  | range =>
    dsimp only
    split
    · rw [List.foldlM_append, compare?_eq]
      exact bind_congr fun q => compare?_eq q e column _ _
    · rfl
  | select =>
    cases kind with
    | enumeration definition =>
      dsimp only
      cases item? definition value with
      | some n => exact (q.foldlM_singleton (.filter (.compared e column "=" (.integer n)))).symm
      | none => rfl
    | _ => rfl
  | freeText =>
    cases value with
    | string text =>
      dsimp only
      split
      · rfl
      · exact (q.foldlM_singleton (.filter (.containing e column _))).symm
    | _ => rfl
  | exact =>
    cases value with
    | bool b => exact (q.foldlM_singleton (.filter (.compared e column "=" (.bool b)))).symm
    | _ => rfl

theorem reference_eq (name : String) (value : Json) (field : String) :
    q.reference e name value field =
      (SearchStep.ofReferenceValue e name value field).foldlM perform q := by
  unfold reference SearchStep.ofReferenceValue
  cases value.isObject with
  | false => rfl
  | true =>
    cases conditionField (some value) "key" with
    | none => rfl
    | some key =>
      cases key with
      | object key =>
        exact (foldlM_congr (fun x _ q => compare?_eq q e _ _ _) q).trans (foldlM_flatMap ..).symm
      | _ => rfl

/-- A scalar whose column has its name. -/
theorem scalar_eq {m : Scalar} {c : Column} (hc : e.columnByOrigin? ⟨e.table, m.name⟩ = some c)
    (hname : c.name = m.name) (value : Option Json) (front field : String) :
    q.scalar e m value front field =
      (.select e m.name (front ++ m.name) :: value.toList.flatMap fun v =>
        SearchStep.ofScalarValue e m.name m.kind v field).foldlM perform q := by
  rw [scalar, hc, List.foldlM_cons]
  dsimp only
  rw [hname]
  refine bind_congr fun q => ?_
  cases value with
  | none => rfl
  | some v =>
    rw [Option.toList_some, List.flatMap_singleton]
    exact q.filterScalar_eq e m.name m.kind v field

/-- A toggle is on or off, or it is rejected. -/
theorem isWanted_cases (p : SearchPlace) (toggle : String) :
    isWanted p.condition p.field toggle = .ok (p.isOn toggle) ∧ SearchStep.ofToggle p toggle = [] ∨
    isWanted p.condition p.field toggle = .error (.badCondition (p.inner toggle) .expectedBoolean) ∧
      SearchStep.ofToggle p toggle = [.reject (p.inner toggle) .expectedBoolean] := by
  unfold isWanted SearchPlace.isOn conditionToggle SearchStep.ofToggle SearchPlace.value
  cases conditionField p.condition toggle with
  | none => exact Or.inl ⟨rfl, rfl⟩
  | some v =>
    cases v with
    | bool b => exact Or.inl ⟨rfl, rfl⟩
    | _ => exact Or.inr ⟨rfl, rfl⟩

/-- What is done with the variants wanted is done once no toggle is rejected. -/
theorem filterM_isWanted (p : SearchPlace) (name : String) (variants : List (Int × Link))
    {k : List (Int × Link) → Except Failure Query} {steps : List SearchStep}
    (hk : k (variants.filter fun x => p.isOn (variantFieldName name x.2.terminal.path)) =
      steps.foldlM perform q) :
    (variants.filterM fun x =>
        isWanted p.condition p.field (variantFieldName name x.2.terminal.path)) >>= k =
      ((variants.flatMap fun x =>
        SearchStep.ofToggle p (variantFieldName name x.2.terminal.path)) ++ steps).foldlM
          perform q := by
  have haux : ∀ (xs met : List (Int × Link)),
      k (met.reverse ++ xs.filter fun x =>
        p.isOn (variantFieldName name x.2.terminal.path)) = steps.foldlM perform q →
      (List.filterAuxM (fun x => isWanted p.condition p.field
        (variantFieldName name x.2.terminal.path)) xs met >>= fun ys => k ys.reverse) =
      ((xs.flatMap fun x =>
        SearchStep.ofToggle p (variantFieldName name x.2.terminal.path)) ++ steps).foldlM
          perform q := by
    intro xs
    induction xs with
    | nil =>
      intro met h
      rw [List.filter_nil, List.append_nil] at h
      exact h
    | cons x xs ih =>
      intro met h
      rw [List.filterAuxM, List.flatMap_cons]
      rcases isWanted_cases p (variantFieldName name x.2.terminal.path) with ⟨hw, ht⟩ | ⟨hw, ht⟩
      · rw [hw, ht, List.nil_append]
        refine ih _ ?_
        rw [← h]
        cases hon : p.isOn (variantFieldName name x.2.terminal.path) <;> simp [hon]
      · rw [hw, ht]
        rfl
  rw [List.filterM, bind_assoc]
  exact haux variants [] hk

theorem variation_eq (v : VariationGroup) (p : SearchPlace) :
    q.variation p.table v p.condition (resultFront p.children) p.field =
      (.select p.table v.name (p.result v.name) ::
        (v.variants.flatMap fun x =>
          SearchStep.ofToggle p (variantFieldName v.name x.2.terminal.path)) ++
        SearchStep.choice p.table v (p.wantedTags v)).foldlM perform q := by
  rw [variation, List.cons_append, List.foldlM_cons]
  refine bind_congr fun q => q.filterM_isWanted p v.name v.variants ?_
  rw [SearchStep.choice, SearchPlace.wantedTags, List.isEmpty_map, List.length_map]
  split
  · rfl
  · exact (q.foldlM_singleton (.filter (.among p.table v.name _))).symm

end Query

namespace Schema
variable {s : Schema} {a : Aggregate}

/-- A scalar is found in the column of its name. -/
theorem IsEntityOf.columnByOrigin?_of_scalar (hg : s.graph.IsForest) (ha : a ∈ s.graph.nodes)
    {e : Entity} (hs : s.IsEntityOf e a) {m : Scalar} (hm : Member.scalar m ∈ s.graph.members a) :
    e.columnByOrigin? ⟨e.table, m.name⟩ = some (Column.ofScalar a.typeName m) := by
  have hc : Column.ofScalar a.typeName m ∈ e.allColumns := hs.mem_allColumns_of_member hm (by
    rw [columns_of_scalar]
    exact List.mem_singleton_self _)
  rw [hs.table]
  exact hs.columnByOrigin?_of_own hg ha hc ⟨rfl, rfl⟩

/-- The members of an aggregate contribute their steps in turn. -/
theorem contribute_eq (hg : s.graph.IsForest) {levels : Nat} (ha : a ∈ s.graph.nodes)
    (h : s.graph.height a < levels) {p : SearchPlace} (hp : s.IsEntityOf p.table a) (q : Query) :
    Query.contribute s levels q a p.table p.condition p.children p.field =
      (s.searchSteps levels a p).foldlM Query.perform q := by
  induction levels generalizing a p q with
  | zero => cases h
  | succ n ih =>
    rw [Query.contribute, searchSteps, foldlM_flatMap]
    refine foldlM_congr (fun m hm q => ?_) q
    cases m with
    | scalar m => exact q.scalar_eq p.table (hp.columnByOrigin?_of_scalar hg ha hm) rfl _ _ _
    | children l => rfl
    | variation v => exact q.variation_eq v p
    | reference l =>
      dsimp only [SearchStep.ofMember, SearchPlace.value, Member.name]
      cases conditionField p.condition l.name with
      | none => rfl
      | some v =>
        rw [Option.toList_some, List.flatMap_singleton]
        exact q.reference_eq p.table l.name v _
    | child l =>
      obtain ⟨hb, hlt⟩ := height_lt_of_mem_links hg ha hm (List.mem_singleton_self l)
      obtain ⟨target, ht, hs⟩ := exists_entity hb
      have he : s.entityOf l.terminal = .ok target := by rw [entityOf, ht]
      have hnested : ∀ condition q, Query.contribute s n q l.terminal target condition
          (p.children ++ [l.name]) (p.inner l.name) =
          (s.searchSteps n l.terminal (p.child l target condition)).foldlM Query.perform q :=
        fun condition q => ih hb (by omega) (p := p.child l target condition) hs q
      rw [SearchStep.ofMember, ht, Option.toList_some, List.flatMap_singleton, SearchStep.ofChild,
        List.foldlM_cons, Query.perform, bind_assoc]
      dsimp only [Member.name]
      rw [he]
      change Query.liftStatement (q.statement.leftJoin target) >>= _ = _
      refine bind_congr fun st => ?_
      rw [pure_bind, SearchPlace.value]
      cases hv : conditionField p.condition l.name with
      | none => exact hnested none _
      | some v =>
        cases v with
        | null => exact absurd rfl (conditionField_eq_some_iff.1 hv).2
        | object fields => exact hnested (some (.object fields)) _
        | _ => rfl

end Schema

end AggregateSchema
