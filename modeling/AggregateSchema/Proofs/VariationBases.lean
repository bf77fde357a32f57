import AggregateSchema.Proofs.DeclaredMembers
import AggregateSchema.Proofs.Stored

/-! What the base of a variation requires of the variants. -/
namespace AggregateSchema

/-- The kinds of the scalars of a name. -/
def Aggregate.kindsOf (a : Aggregate) (name : String) : List ScalarKind :=
  (a.scalars.filter (·.name = name)).map (·.kind)

namespace Schema
variable {s : Schema} {a : Aggregate} {e : Entity}

/-- Columns have distinct names, and every scalar has one. -/
theorem IsEntityOf.nodup_names_scalars (hs : s.IsEntityOf e a) :
    (a.scalars.map Scalar.name).Nodup := by
  have hn := hs.nodup_names_members
  rw [AggregateGraph.members, List.flatMap_append, List.flatMap_map] at hn
  have hscalars : a.scalars.map Scalar.name = a.scalars.flatMap fun m =>
      (s.memberKeys a.typeName (.scalar m) ++ s.memberColumns a.typeName (.scalar m)).map
        Column.name := by
    rw [List.map_eq_flatMap]
    exact List.flatMap_congr fun m _ => by rw [columns_of_scalar]; rfl
  rw [hscalars]
  exact (List.nodup_append.1 hn).1

/-- There is one scalar of the name of a scalar. -/
theorem kindsOf_eq_singleton (ha : a ∈ s.graph.nodes) {m : Scalar} (hm : m ∈ a.scalars) :
    a.kindsOf m.name = [m.kind] := by
  obtain ⟨e, -, he⟩ := s.exists_entity ha
  rw [Aggregate.kindsOf, filter_key_eq_singleton Scalar.name he.nodup_names_scalars hm]
  rfl

end Schema

/-- A variant declares a member of the name again, and in a graph its aggregate has that member and no
other of the name. -/
def VariantDeclaration.Stores (v : VariantDeclaration) (g : AggregateGraph) (owner : Path)
    (name : String) (kind : ScalarKind) : Prop :=
  (∃ m ∈ v.members, m.name = name) ∧
    ∃ a ∈ g.nodes, owner.child v.name = .ok a.path ∧ a.kindsOf name = [kind]

/-- What variants have to come to in a graph to be of the shape of their base. -/
structure VariationBase.IsKept (b : VariationBase) (registry : TypeRegistry) (g : AggregateGraph)
    (owner : Path) (variants : List VariantDeclaration) : Prop where
  isAbstract : b.isAbstract = true
  stored : ∀ m ∈ b.members, ∃ kind, registry.resolve? m.typeName = some kind ∧
    ∀ v ∈ variants, v.Stores g owner m.name kind

namespace TypeRegistry
variable {registry : TypeRegistry} {b : VariationBase} {v : VariantDeclaration}

/-- A variant fits a base if it declares all its members, and none of another kind as far as kinds are
known. -/
theorem baseProblems_eq_nil_iff {variation : String} :
    registry.baseProblems variation b v = [] ↔ ∀ m ∈ b.members, ∃ own,
      v.members.find? (·.name = m.name) = some own ∧ ∀ expected actual,
        registry.resolve? m.typeName = some expected → registry.resolve? own.typeName = some actual →
          expected = actual := by
  rw [baseProblems, List.flatMap_eq_nil_iff]
  refine forall₂_congr fun m _ => ?_
  cases hf : v.members.find? (·.name = m.name) with
  | none => simp
  | some own =>
    cases he : registry.resolve? m.typeName <;> cases ha : registry.resolve? own.typeName <;> simp [ha]

/-- Without a problem the base of a variation is abstract, and all variants fit it. -/
theorem baseProblems_of_variation {name owner : String} {isKey : Bool}
    {variants : List VariantDeclaration}
    (h : (registry.resolution (.variation name owner isKey (some b) variants)).problems = []) :
    b.isAbstract = true ∧ ∀ v ∈ variants, registry.baseProblems name b v = [] := by
  obtain ⟨-, -, hne, -⟩ := exists_owned?_of_variation h
  obtain ⟨o, -, h⟩ := exists_parse_of_withPath h
  simp only [Resolution.problems_append, List.append_eq_nil_iff, variationProblems,
    List.flatMap_eq_nil_iff] at h
  obtain ⟨⟨-, habstract, hfit⟩, -⟩ := h
  refine ⟨?_, hfit⟩
  by_contra hb
  simp [hb, hne] at habstract

end TypeRegistry

namespace Draft
variable {d : Draft} {base : TypeRegistry} {s : Schema} {name owner : String} {isKey : Bool}
  {b : VariationBase} {variants : List VariantDeclaration}

/-- The aggregate that is built for a variant. -/
theorem resolved_mem_nodes (h : d.resolve base = .ok s) {base? : Option VariationBase}
    (hx : .variation name owner isKey base? variants ∈ d.declarations) {o path : Path}
    (ho : Path.parse owner = .ok o) {v : VariantDeclaration} (hv : v ∈ variants)
    (hp : o.child v.name = .ok path) :
    (d.registry base).resolved ⟨path, v.typeName, v.members,
      some ⟨o, path, name, .variant v.tag⟩⟩ ∈ s.graph.nodes := by
  rw [nodes_of_resolve h, aggregates_resolution]
  refine List.mem_map_of_mem (List.mem_flatMap.2 ⟨_, hx, ?_⟩)
  simp only [Declaration.aggregates, ho, Except.toOption, Option.toList_some,
    List.flatMap_singleton]
  refine List.mem_flatMap.2 ⟨v, hv, ?_⟩
  simp [Declaration.owned?, hp, Except.toOption]

/-- What a variant declares is stored, under a name that no other member has. -/
theorem stores_of_mem_members (h : d.resolve base = .ok s) {base? : Option VariationBase}
    (hx : .variation name owner isKey base? variants ∈ d.declarations) {o : Path}
    (ho : Path.parse owner = .ok o) {v : VariantDeclaration} (hv : v ∈ variants)
    {m : ScalarDeclaration} (hm : m ∈ v.members) :
    ∃ kind, (d.registry base).resolve? m.typeName = some kind ∧ v.Stores s.graph o m.name kind := by
  obtain ⟨o', ho', -, hvs⟩ :=
    TypeRegistry.exists_owned?_of_variation (problems_of_mem_declarations h hx)
  obtain rfl : o' = o := Except.ok.inj (ho'.symm.trans ho)
  obtain ⟨⟨path, hp⟩, hknown⟩ := hvs v hv
  obtain ⟨kind, hk⟩ := Option.isSome_iff_exists.1 (hknown m hm)
  have ha := resolved_mem_nodes h hx ho hv hp
  have hscalar : (⟨m.name, kind, !m.isKey && !m.required, m.isKey, m.isDisplayName⟩ : Scalar) ∈
      v.members.filterMap (d.registry base).scalar? :=
    List.mem_filterMap.2 ⟨m, hm, by simp [TypeRegistry.scalar?, hk]⟩
  exact ⟨kind, hk, ⟨m, hm, rfl⟩, _, ha, hp, Schema.kindsOf_eq_singleton ha hscalar⟩

/-- In a resolved draft every base is abstract and every variant stores all members of its base, each
in the kind of the base if that is known. So the variants have the shape of the base exactly if the
types of all its members are known. -/
theorem isKept_iff (h : d.resolve base = .ok s)
    (hx : .variation name owner isKey (some b) variants ∈ d.declarations) :
    ∃ o, Path.parse owner = .ok o ∧ b.isAbstract = true ∧
      (∀ m ∈ b.members, ∀ v ∈ variants, ∃ kind, v.Stores s.graph o m.name kind ∧
        ∀ expected, (d.registry base).resolve? m.typeName = some expected → expected = kind) ∧
      (b.IsKept (d.registry base) s.graph o variants ↔
        ∀ m ∈ b.members, ((d.registry base).resolve? m.typeName).isSome = true) := by
  have hp := problems_of_mem_declarations h hx
  obtain ⟨o, ho, -⟩ := TypeRegistry.exists_owned?_of_variation hp
  obtain ⟨habstract, hfit⟩ := TypeRegistry.baseProblems_of_variation hp
  have hstored : ∀ m ∈ b.members, ∀ v ∈ variants, ∃ kind, v.Stores s.graph o m.name kind ∧
      ∀ expected, (d.registry base).resolve? m.typeName = some expected → expected = kind := by
    intro m hm v hv
    obtain ⟨own, hown, hsame⟩ := TypeRegistry.baseProblems_eq_nil_iff.1 (hfit v hv) m hm
    obtain ⟨kind, hk, hs⟩ := stores_of_mem_members h hx ho hv (List.mem_of_find?_eq_some hown)
    have hname : own.name = m.name := by simpa using List.find?_some hown
    exact ⟨kind, hname ▸ hs, fun expected he => hsame expected kind he hk⟩
  refine ⟨o, ho, habstract, hstored, fun hkept m hm => ?_, fun hknown => ⟨habstract, fun m hm => ?_⟩⟩
  · obtain ⟨kind, hk, -⟩ := hkept.stored m hm
    exact Option.isSome_iff_exists.2 ⟨kind, hk⟩
  · obtain ⟨expected, he⟩ := Option.isSome_iff_exists.1 (hknown m hm)
    refine ⟨expected, he, fun v hv => ?_⟩
    obtain ⟨kind, hs, hsame⟩ := hstored m hm v hv
    exact hsame expected he ▸ hs

/-- Whatever an order is paid with, there is an amount; the base has it in a type of the given name. -/
def pricedPayments (typeName : String) : Draft where
  declarations := [
    .aggregate "/Order" none [⟨"number", "integer", true, true, false⟩],
    .variation "payment" "/Order" false
      (some ⟨"Payment", true, [⟨"amount", typeName, false, false, true⟩]⟩)
      [⟨"Card", 1, none, [⟨"amount", "decimal", false, false, true⟩,
          ⟨"holder", "word", false, false, false⟩]⟩,
        ⟨"Cash", 2, none, [⟨"amount", "decimal", false, false, false⟩]⟩]]
  enumerations := []

theorem isKept_payments : ∃ s b variants,
    (pricedPayments "numeric").resolve .standard = .ok s ∧
      .variation "payment" "/Order" false (some b) variants ∈ (pricedPayments "numeric").declarations ∧
        b.members ≠ [] ∧ ∃ o, Path.parse "/Order" = .ok o ∧
          b.IsKept ((pricedPayments "numeric").registry .standard) s.graph o variants := by
  obtain ⟨s, hs, -⟩ := exists_ok_of_any ((pricedPayments "numeric").resolve .standard) (fun _ => true)
    (by decide +kernel)
  have hx : _ ∈ (pricedPayments "numeric").declarations := List.mem_cons_of_mem _ List.mem_cons_self
  obtain ⟨o, ho, -, -, hiff⟩ := isKept_iff hs hx
  refine ⟨s, _, _, hs, hx, List.cons_ne_nil _ _, o, ho, hiff.2 fun m hm => ?_⟩
  obtain rfl := List.mem_singleton.1 hm
  decide +kernel

/-- The type of a member of a base may be unknown. -/
theorem not_isKept_of_draft : ∃ s b variants,
    (pricedPayments "money").resolve .standard = .ok s ∧
      .variation "payment" "/Order" false (some b) variants ∈ (pricedPayments "money").declarations ∧
        ∀ o, ¬ b.IsKept ((pricedPayments "money").registry .standard) s.graph o variants := by
  obtain ⟨s, hs, -⟩ := exists_ok_of_any ((pricedPayments "money").resolve .standard) (fun _ => true)
    (by decide +kernel)
  have hx : _ ∈ (pricedPayments "money").declarations := List.mem_cons_of_mem _ List.mem_cons_self
  refine ⟨s, _, _, hs, hx, fun o hkept => ?_⟩
  obtain ⟨kind, hk, -⟩ := hkept.stored _ (List.mem_singleton_self _)
  have hnone : ((pricedPayments "money").registry .standard).resolve? "money" = none := by decide +kernel
  exact Option.some_ne_none kind (hk.symm.trans hnone)

end Draft

end AggregateSchema
