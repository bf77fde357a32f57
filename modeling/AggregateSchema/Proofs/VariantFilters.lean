import AggregateSchema.Proofs.SearchPlaces
import AggregateSchema.Proofs.Tags

/-! The toggles of a variation in a condition, and what a search filters by for them. -/
namespace AggregateSchema

/-- The variants that are not switched off in a condition on their owner, in order of declaration. -/
def VariationGroup.wanted (v : VariationGroup) (condition : Option Json) : List (Int × Link) :=
  v.variants.filter fun x => conditionToggle condition (variantFieldName v.name x.2.terminal.path)

/-- A toggle that is absent or null is on. -/
theorem VariationGroup.mem_wanted_iff {v : VariationGroup} {condition : Option Json}
    {x : Int × Link} : x ∈ v.wanted condition ↔ x ∈ v.variants ∧
      conditionField condition (variantFieldName v.name x.2.terminal.path) ≠ some (.bool false) := by
  rw [wanted, List.mem_filter, conditionToggle]
  refine and_congr_right fun _ => ?_
  split
  · rename_i b hb
    cases b <;> simp [hb]
  · rename_i hother
    exact iff_of_true rfl fun h => hother false h

namespace SearchStep
variable {s : Schema} {p : SearchPlace} {v : VariationGroup}

theorem predicates_ofToggle (p : SearchPlace) (toggle : String) :
    (ofToggle p toggle).flatMap predicates = [] := by
  unfold ofToggle
  split <;> rfl

theorem predicates_of_variation (nested : Aggregate → SearchPlace → List SearchStep) :
    (ofMember s nested p (.variation v)).flatMap predicates =
      (choice p.table v ((v.wanted p.condition).map (·.1))).flatMap predicates := by
  have htoggles : (v.variants.flatMap fun x =>
      ofToggle p (variantFieldName v.name x.2.terminal.path)).flatMap predicates = [] := by
    rw [List.flatMap_assoc]
    exact List.flatMap_eq_nil_iff.2 fun x _ => predicates_ofToggle p _
  rw [ofMember, List.cons_append, List.flatMap_cons, List.flatMap_append, htoggles]
  rfl

/-- A choice of none or of all of the variants is no choice. -/
theorem predicates_of_no_choice {e : Entity} {condition : Option Json}
    (h : v.wanted condition = [] ∨ v.wanted condition = v.variants) :
    (choice e v ((v.wanted condition).map (·.1))).flatMap predicates = [] := by
  rcases h with h | h <;> simp [choice, h]

theorem predicates_of_choice {e : Entity} {condition : Option Json} (hnone : v.wanted condition ≠ [])
    (hall : v.wanted condition ≠ v.variants) :
    (choice e v ((v.wanted condition).map (·.1))).flatMap predicates =
      [.among e v.name ((v.wanted condition).map (·.1))] := by
  have hlength : (v.wanted condition).length ≠ v.variants.length := fun h =>
    hall (List.filter_sublist.eq_of_length h)
  simp [choice, hnone, hlength]

end SearchStep

namespace Draft
variable {d : Draft} {registry : TypeRegistry} {s : Schema} {a b : Aggregate} {condition : Json}
  {q : Query} {inner : Option Json} {v : VariationGroup}

/-- For a variation of an aggregate that is reached, an accepted search filters by the tags of the
variants that are not switched off at its place in the condition, in order of declaration, unless these
are none or all of them. Nothing else filters in its column. -/
theorem filters_variants (h : d.resolve registry = .ok s) (ha : a ∈ s.graph.nodes)
    (hq : Query.build s a.path condition = .ok q) (hr : s.graph.Reaches a condition.given? b inner)
    (hv : v ∈ s.graph.variationGroups b) :
    (∀ x, x ∈ v.wanted inner ↔ x ∈ v.variants ∧
      conditionField inner (variantFieldName v.name x.2.terminal.path) ≠ some (.bool false)) ∧
    ∃ e, s.entity? b.path = some e ∧
      (v.wanted inner ≠ [] → v.wanted inner ≠ v.variants →
        q.FiltersBy s a condition e (.discriminator b.typeName v)
          [.among e v.name ((v.wanted inner).map (·.1))]) ∧
      (v.wanted inner = [] ∨ v.wanted inner = v.variants →
        q.FiltersBy s a condition e (.discriminator b.typeName v) []) := by
  obtain ⟨p, nested, rfl, he, hp⟩ := Schema.exists_filtersBy (isForest h) ha hq hr
    (AggregateGraph.variation_mem_members hv) rfl
  rw [SearchStep.predicates_of_variation] at hp
  refine ⟨fun _ => VariationGroup.mem_wanted_iff, p.table, he, fun hnone hall => ?_, fun hno => ?_⟩
  · rwa [SearchStep.predicates_of_choice hnone hall] at hp
  · rwa [SearchStep.predicates_of_no_choice hno] at hp

/-- Orders with a choice of three variants each at two levels. -/
def deliveries : Draft where
  declarations := [
    .aggregate "/Order" none [⟨"number", "integer", true, true, false⟩],
    .variation "payment" "/Order" false none [⟨"Card", 1, none, []⟩, ⟨"Cash", 2, none, []⟩,
      ⟨"Invoice", 5, none, []⟩],
    .child "Delivery" "/Order" false none [],
    .variation "carrier" "/Order/Delivery" false none [⟨"Post", 9, none, []⟩,
      ⟨"Courier", 4, none, []⟩, ⟨"Pickup", 7, none, []⟩]]
  enumerations := []

/-- A condition that switches a variant off at the inner level, and says nothing else. -/
def withoutCourier : Json :=
  .object [("Delivery", .object [("carrier_Courier", .bool false), ("carrier_Post", .null)])]

theorem filters_variants_deliveries : ∃ (s : Schema) (a b : Aggregate) (q : Query)
    (v w : VariationGroup) (e f : Entity), deliveries.resolve .standard = .ok s ∧
    a ∈ s.graph.nodes ∧ Query.build s a.path withoutCourier = .ok q ∧
    q.statement.filters = ["t1.carrier IN (9, 7)"] ∧
    q.FiltersBy s a withoutCourier e (.discriminator b.typeName v) [.among e "carrier" [9, 7]] ∧
    w.name = "payment" ∧ q.FiltersBy s a withoutCourier f (.discriminator a.typeName w) [] := by
  obtain ⟨s, hs, h⟩ := exists_ok_of_any (deliveries.resolve .standard) (fun s => s.graph.nodes.any
    fun a => (Query.build s a.path withoutCourier).toOption.any fun q =>
      q.statement.filters = ["t1.carrier IN (9, 7)"] ∧
      ((s.graph.childLinks a).any fun l => (s.graph.variationGroups l.terminal).any fun v =>
        v.name = "carrier" ∧ v.variants.length = 3 ∧
          (v.wanted (conditionField withoutCourier.given? l.name)).map (·.1) = [9, 7]) ∧
      (s.graph.variationGroups a).any fun w => w.name = "payment" ∧
        (w.wanted withoutCourier.given?).length = w.variants.length) (by decide +kernel)
  obtain ⟨a, ha, h⟩ := List.any_eq_true.1 h
  obtain ⟨q, hq, h⟩ := exists_ok_of_any _ _ h
  obtain ⟨hfilters, hchild, hself⟩ := of_decide_eq_true h
  obtain ⟨l, hl, h⟩ := List.any_eq_true.1 hchild
  obtain ⟨v, hv, h⟩ := List.any_eq_true.1 h
  obtain ⟨hname, hlength, htags⟩ := of_decide_eq_true h
  obtain ⟨w, hw, h⟩ := List.any_eq_true.1 hself
  obtain ⟨hpayment, hall⟩ := of_decide_eq_true h
  have hcount := congrArg List.length htags
  rw [List.length_map] at hcount
  obtain ⟨-, e, -, hchoice, -⟩ := filters_variants hs ha hq (.child hl (.here l.terminal _)) hv
  obtain ⟨-, f, -, -, hnothing⟩ := filters_variants hs ha hq (.here a _) hw
  have hcarrier := hchoice (fun h => by simp [h] at hcount) fun h => by
    rw [h, hlength] at hcount
    cases hcount
  rw [hname, htags] at hcarrier
  exact ⟨s, a, l.terminal, q, v, w, e, f, hs, ha, hq, hfilters, hcarrier, hpayment,
    hnothing (Or.inr (List.filter_sublist.eq_of_length hall))⟩

end Draft

end AggregateSchema
