import AggregateSchema.Proofs.Depth
import AggregateSchema.View
import Mathlib.Data.List.Pairwise
import Mathlib.Logic.Relation

/-! The names of the fields in the views of an aggregate. A field is named after its member, or its
name is composed: of those of a variation and a variant, or of those of a child and a field of it. -/
namespace AggregateSchema

def Projection.names (p : Projection) : List String := p.fields.map (·.name)

namespace Member

/-- The composed names of the fields for the variants of a variation. -/
def variantNames (v : VariationGroup) : List String :=
  v.variants.map fun x => variantFieldName v.name x.2.terminal.path

def conditionNames (m : Member) : List String :=
  (AggregateGraph.memberConditionFields m).map (·.name)

def detailNames (m : Member) : List String :=
  (AggregateGraph.memberDetailFields m).map (·.name)

/-- The names that a member has in results: its own if it is shown there, and for a child the names of
what is `nested` in it, after its own. -/
def resultNames (shown : Member → Bool) (nested : Aggregate → List String) : Member → List String
  | child l => (nested l.terminal).map (l.name ++ "_" ++ ·)
  | m => if shown m then [m.name] else []

/-- Whether a member that is no child stands in a row of search results. -/
def isInResult : Member → Bool
  | children _ => false
  | _ => true

/-- Whether no composed name of a member is also a name of another member. -/
def ComposedApart (names : Member → List String) (ms : List Member) : Prop :=
  ∀ m ∈ ms, ∀ n ∈ names m, n ≠ m.name → ∀ m' ∈ ms, m'.name ≠ m.name → n ∉ names m'

instance (names : Member → List String) (ms : List Member) : Decidable (ComposedApart names ms) :=
  inferInstanceAs (Decidable (∀ m ∈ ms, ∀ n ∈ names m, _ → ∀ m' ∈ ms, _ → _))

/-- Members with names of their own have different names in all if each has, and no composed name is
found again. -/
theorem nodup_flatMap_iff {names : Member → List String} {ms : List Member}
    (hn : (ms.map name).Nodup) : (ms.flatMap names).Nodup ↔
      (∀ m ∈ ms, (names m).Nodup) ∧ ComposedApart names ms := by
  rw [List.nodup_flatMap]
  refine and_congr_right fun _ => ⟨fun h => ?_, fun h => ?_⟩
  · have : Std.Symm (Function.onFun List.Disjoint names) := ⟨fun _ _ hd _ hx hx' => hd hx' hx⟩
    intro m hm n hnm _ m' hm' hne hnm'
    exact h.forall hm hm' (fun he => hne (congrArg name he).symm) hnm hnm'
  · -- members have different names, so that a name of two members is composed in one of them
    refine (List.pairwise_map.1 hn).imp_of_mem fun {m m'} hm hm' hne n hnm hnm' => ?_
    by_cases hown : n = m.name
    · exact h m' hm' n hnm' (hown ▸ hne) m hm hne hnm
    · exact h m hm n hnm hown m' hm' (Ne.symm hne) hnm'

theorem name_notMem_variantNames (v : VariationGroup) : v.name ∉ variantNames v := by
  intro h
  obtain ⟨x, -, hx⟩ := List.mem_map.1 h
  have hlen := congrArg String.length hx
  simp only [variantFieldName, String.length_append] at hlen
  have : "_".length = 1 := rfl
  omega

theorem detailNames_variation (v : VariationGroup) :
    detailNames (variation v) = v.name :: variantNames v := by
  rw [detailNames, AggregateGraph.memberDetailFields, List.map_cons, List.map_map]
  rfl

/-- The names in a condition are found in the detail. -/
theorem conditionNames_sublist (m : Member) : m.conditionNames.Sublist m.detailNames := by
  cases m with
  | children l => exact List.nil_sublist _
  | variation v =>
    have hc : conditionNames (variation v) = variantNames v := by
      rw [conditionNames, AggregateGraph.memberConditionFields, List.map_map]
      rfl
    rw [hc, detailNames_variation]
    exact List.sublist_cons_self _ _
  | _ => exact List.Sublist.refl _

/-- What is shown of a member depends on what is nested in it. -/
theorem resultNames_congr {shown : Member → Bool} {nested nested' : Aggregate → List String}
    {m : Member} (h : ∀ l ∈ m.links, nested l.terminal = nested' l.terminal) :
    m.resultNames shown nested = m.resultNames shown nested' := by
  cases m with
  | child l => rw [resultNames, resultNames, h l (List.mem_singleton_self l)]
  | _ => rfl

theorem nodup_resultNames_iff {shown : Member → Bool} {nested : Aggregate → List String}
    {m : Member} : (m.resultNames shown nested).Nodup ↔
      ∀ l, m = child l → (nested l.terminal).Nodup := by
  cases m with
  | child l =>
    rw [resultNames, List.nodup_map_iff fun x y h => (String.append_right_inj _).1 h]
    exact ⟨fun h k hk => Member.child.inj hk ▸ h, fun h => h l rfl⟩
  | _ =>
    refine iff_of_true ?_ fun l hl => nomatch hl
    dsimp only [resultNames]
    split
    · exact List.nodup_singleton _
    · exact List.nodup_nil

end Member

namespace AggregateGraph
variable {g : AggregateGraph} {a : Aggregate}

/-- The variants of a variation lie under one aggregate, so that they differ by their last name. -/
theorem IsForest.nodup_variantNames (hg : g.IsForest) (ha : a ∈ g.nodes) {v : VariationGroup}
    (hv : Member.variation v ∈ members g a) : (Member.variantNames v).Nodup := by
  have hterminals : (v.variants.map (·.2.terminal.path)).Nodup := by
    have h := (List.nodup_flatMap.1 (hg.nodup_terminals a)).1 _ hv
    rwa [Member.links, List.map_map] at h
  refine List.pairwise_map.2 ((List.pairwise_map.1 hterminals).imp_of_mem ?_)
  intro x y hx hy hne heq
  have hparent : ∀ {z}, z ∈ v.variants → z.2.terminal.path.parent? = some a.path := fun hz =>
    hg.parent?_of_mem_links ha hv (List.mem_map_of_mem hz)
  rw [variantFieldName, variantFieldName, String.append_right_inj] at heq
  exact hne (Path.eq_of_baseName (hparent hx) (hparent hy) heq)

theorem IsForest.nodup_detailNames (hg : g.IsForest) (ha : a ∈ g.nodes) {m : Member}
    (hm : m ∈ members g a) : m.detailNames.Nodup := by
  cases m with
  | variation v =>
    rw [Member.detailNames_variation]
    exact List.nodup_cons.2 ⟨Member.name_notMem_variantNames v, hg.nodup_variantNames ha hm⟩
  | _ => exact List.nodup_singleton _

/-- The names of the members of an aggregate that are shown, with those of children to at most
`levels` levels after the name of the child. -/
def resultNamesWithin (g : AggregateGraph) (shown : Member → Bool) : Nat → Aggregate → List String
  | 0, _ => []
  | levels + 1, a =>
    (members g a).flatMap (Member.resultNames shown (resultNamesWithin g shown levels))

def resultNames (g : AggregateGraph) (shown : Member → Bool) (a : Aggregate) : List String :=
  resultNamesWithin g shown g.nodes.length a

theorem map_name_resultFieldsWithin (levels : Nat) (a : Aggregate) :
    (resultFieldsWithin g levels a).map (·.name) =
      resultNamesWithin g Member.isInResult levels a := by
  induction levels generalizing a with
  | zero => rfl
  | succ n ih =>
    rw [resultFieldsWithin, resultNamesWithin, List.map_flatMap]
    refine List.flatMap_congr fun m _ => ?_
    cases m with
    | child l =>
      rw [Member.resultNames, ← ih, List.map_map, List.map_map]
      rfl
    | _ => rfl

theorem names_searchCondition (a : Aggregate) :
    (views g a).searchCondition.names = (members g a).flatMap Member.conditionNames :=
  List.map_flatMap ..

theorem names_detail (a : Aggregate) :
    (views g a).detail.names = (members g a).flatMap Member.detailNames :=
  List.map_flatMap ..

theorem names_searchResult (a : Aggregate) :
    (views g a).searchResult.names = resultNames g Member.isInResult a :=
  map_name_resultFieldsWithin g.nodes.length a

/-- Fewer members shown means fewer names. -/
theorem resultNamesWithin_sublist {shown shown' : Member → Bool}
    (h : ∀ m, shown m = true → shown' m = true) (levels : Nat) (a : Aggregate) :
    (resultNamesWithin g shown levels a).Sublist (resultNamesWithin g shown' levels a) := by
  induction levels generalizing a with
  | zero => exact List.Sublist.refl _
  | succ n ih =>
    rw [resultNamesWithin, resultNamesWithin]
    generalize members g a = ms
    induction ms with
    | nil => exact List.Sublist.refl _
    | cons m ms ihms =>
      rw [List.flatMap_cons, List.flatMap_cons]
      refine List.Sublist.append ?_ ihms
      cases m with
      | child l => exact (ih l.terminal).map _
      | _ =>
        dsimp only [Member.resultNames]
        split
        · rename_i hm
          rw [if_pos (h _ hm)]
        · exact List.nil_sublist _

/-- Whether the results of one aggregate stand among those of another, as do those of a child. -/
def Flattens (g : AggregateGraph) : Aggregate → Aggregate → Prop :=
  Relation.ReflTransGen fun a b => ∃ l, Member.child l ∈ members g a ∧ l.terminal = b

end AggregateGraph

namespace Schema
variable {s : Schema} {a : Aggregate} {shown : Member → Bool}

theorem countsLevels_resultNamesWithin :
    s.CountsLevels (s.graph.resultNamesWithin shown) := fun _ _ _ _ h =>
  List.flatMap_congr fun m hm => Member.resultNames_congr (h m hm)

theorem resultNames_eq (hg : s.graph.IsForest) (ha : a ∈ s.graph.nodes) :
    s.graph.resultNames shown a =
      (s.graph.members a).flatMap (Member.resultNames shown (s.graph.resultNames shown)) :=
  countsLevels_resultNamesWithin.eq_succ hg ha

/-- The names in results are distinct exactly if no composed name is found again, in the aggregate
and in each that is flattened into it. -/
theorem nodup_resultNames_iff (hg : s.graph.IsForest)
    (hn : ∀ b ∈ s.graph.nodes, ((s.graph.members b).map Member.name).Nodup)
    (ha : a ∈ s.graph.nodes) : (s.graph.resultNames shown a).Nodup ↔
      ∀ b ∈ s.graph.nodes, s.graph.Flattens a b → Member.ComposedApart
        (Member.resultNames shown (s.graph.resultNames shown)) (s.graph.members b) := by
  induction hk : s.graph.height a using Nat.strongRecOn generalizing a with
  | _ k ih =>
    subst hk
    rw [resultNames_eq hg ha, Member.nodup_flatMap_iff (hn a ha)]
    have hchild : (∀ m ∈ s.graph.members a,
        (m.resultNames shown (s.graph.resultNames shown)).Nodup) ↔
        ∀ l, Member.child l ∈ s.graph.members a →
          ∀ b ∈ s.graph.nodes, s.graph.Flattens l.terminal b → Member.ComposedApart
            (Member.resultNames shown (s.graph.resultNames shown)) (s.graph.members b) := by
      simp only [Member.nodup_resultNames_iff]
      refine ⟨fun h l hl => ?_, fun h m hm l hml => ?_⟩
      · obtain ⟨hb, hlt⟩ := height_lt_of_mem_links hg ha hl (List.mem_singleton_self l)
        exact (ih _ hlt hb rfl).1 (h _ hl l rfl)
      · subst hml
        obtain ⟨hb, hlt⟩ := height_lt_of_mem_links hg ha hm (List.mem_singleton_self l)
        exact (ih _ hlt hb rfl).2 (h l hm)
    rw [hchild]
    constructor
    · rintro ⟨hbelow, hat⟩ b hb hab
      rcases Relation.ReflTransGen.cases_head hab with rfl | ⟨c, ⟨l, hl, rfl⟩, hcb⟩
      · exact hat
      · exact hbelow l hl b hb hcb
    · intro h
      exact ⟨fun l hl b hb hlb => h b hb (.head ⟨l, hl, rfl⟩ hlb), h a ha .refl⟩

end Schema

end AggregateSchema
