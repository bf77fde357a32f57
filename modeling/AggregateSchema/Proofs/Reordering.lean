import AggregateSchema.Proofs.Entities
import AggregateSchema.Proofs.GraphBuilding
import AggregateSchema.Proofs.KeyDerivation
import AggregateSchema.View
import Mathlib.Data.List.Perm.Basic

/-! What does not depend on the order of the aggregates, nor on that of edges that leave different
aggregates. -/
namespace AggregateSchema

namespace Graph
variable {ν ι α : Type} [Identified ν ι] [DecidableEq ι]

/-- Nodes of distinct identities are found in any order. -/
theorem find?_eq_of_perm {nodes others : List ν} (hp : nodes.Perm others)
    (hn : (nodes.map Identified.id).Nodup) : find? (ι := ι) nodes = find? others := by
  have ho := (hp.map Identified.id).nodup_iff.1 hn
  funext i
  refine Option.ext fun n => ?_
  rw [find?, find?, find?_key_eq_some_iff _ hn, find?_key_eq_some_iff _ ho, hp.mem_iff]

end Graph

namespace AggregateGraph

/-- The same aggregates in some order, each left by the same edges in the same order. -/
structure IsReordering (g h : AggregateGraph) : Prop where
  nodes : g.nodes.Perm h.nodes
  outgoing : ∀ a, g.outgoing a = h.outgoing a

namespace IsReordering
variable {g h : AggregateGraph}

theorem symm (hr : g.IsReordering h) : h.IsReordering g :=
  ⟨hr.nodes.symm, fun a => (hr.outgoing a).symm⟩

theorem mem_edges_iff (hr : g.IsReordering h) {l : Link} : l ∈ g.edges ↔ l ∈ h.edges := by
  have hself : ∀ k : AggregateGraph, l ∈ k.edges ↔ l ∈ k.outgoing l.initial := fun k => by
    simp [Graph.mem_outgoing]
  rw [hself g, hself h, hr.outgoing]

theorem isForest (hr : g.IsReordering h) (hg : g.IsForest) : h.IsForest where
  parent l hl := hg.parent l (hr.mem_edges_iff.2 hl)
  single l hl m hm := hg.single l (hr.mem_edges_iff.2 hl) m (hr.mem_edges_iff.2 hm)

/-- In a forest the edge from the owner is the only one that a search can find. -/
theorem ownerLink?_eq (hr : g.IsReordering h) (hg : g.IsForest) :
    g.ownerLink? = h.ownerLink? := by
  have hsome : ∀ {k k' : AggregateGraph} {a : Aggregate} {l : Link}, k.IsReordering k' →
      k'.IsForest → k.ownerLink? a = some l → k'.ownerLink? a = some l := by
    intro k k' a l hkk hk' hl
    obtain ⟨hle, hlo, hlt⟩ := ownerLink?_spec hl
    have hfound := hk'.ownerLink?_eq_some (hkk.mem_edges_iff.1 hle) hlo
    have hin : k'.incoming l.terminal = k'.incoming a := by
      simp only [Graph.incoming]
      exact congrArg (fun p => k'.edges.filter fun e => decide (e.terminal.path = p)) hlt
    rwa [ownerLink?, hin] at hfound
  funext a
  refine Option.ext fun l => ?_
  exact ⟨hsome hr (hr.isForest hg), hsome hr.symm hg⟩

theorem owner?_eq (hr : g.IsReordering h) (hg : g.IsForest) : g.owner? = h.owner? := by
  funext a
  rw [owner?, owner?, hr.ownerLink?_eq hg]

theorem isRoot_eq (hr : g.IsReordering h) (hg : g.IsForest) : g.isRoot = h.isRoot := by
  funext a
  rw [isRoot, isRoot, hr.ownerLink?_eq hg]

theorem isRepeated_eq (hr : g.IsReordering h) (hg : g.IsForest) :
    g.isRepeated = h.isRepeated := by
  funext a
  rw [isRepeated, isRepeated, hr.ownerLink?_eq hg]

theorem members_eq (hr : g.IsReordering h) : g.members = h.members := by
  funext a
  rw [members, members, variationGroups, variationGroups, hr.outgoing]

theorem ownedWithin_eq (hr : g.IsReordering h) : ownedWithin g = ownedWithin h := by
  funext height
  induction height with
  | zero => rfl
  | succ height ih =>
    funext v
    rw [ownedWithin, ownedWithin, ownedLinks, ownedLinks, hr.outgoing, ih]

theorem descendants_eq (hr : g.IsReordering h) : descendants g = descendants h := by
  funext v
  rw [descendants, descendants, hr.ownedWithin_eq, hr.nodes.length_eq]

theorem keyRule_eq (hr : g.IsReordering h) (hg : g.IsForest) : g.keyRule = h.keyRule := by
  funext a
  rw [keyRule, keyRule, hr.owner?_eq hg, hr.isRepeated_eq hg, hr.members_eq]

/-- The tables of keys hold the same keys: those that can be derived from the rules. -/
theorem get?_keyTable_eq (hr : g.IsReordering h) (hg : g.IsForest) :
    (keyTable g).get? = (keyTable h).get? := by
  have hrules : ∀ r, r ∈ keyRules g ↔ r ∈ keyRules h := by
    intro r
    rw [keyRules, keyRules, hr.keyRule_eq hg]
    exact (hr.nodes.map _).mem_iff
  funext p
  refine Option.ext fun key => ?_
  rw [get?_keyTable_iff, get?_keyTable_iff, KeyRule.derivable_congr hrules]

theorem navigations_eq (hr : g.IsReordering h) (hg : g.IsForest) :
    navigations g = navigations h := by
  funext a
  rw [navigations, navigations, hr.owner?_eq hg, hr.members_eq]

theorem keylessRootProblems_eq (hr : g.IsReordering h) (hg : g.IsForest) :
    keylessRootProblems g = keylessRootProblems h := by
  funext a keys
  rw [keylessRootProblems, keylessRootProblems, hr.isRoot_eq hg, hr.descendants_eq]

theorem key_eq_ok (hr : g.IsReordering h) (hg : g.IsForest) {a : Aggregate} {keys : List Column}
    (hk : key g (keyTable g) a = .ok keys) : key h (keyTable h) a = .ok keys := by
  rw [key_eq_ok_iff] at hk ⊢
  rwa [← hr.get?_keyTable_eq hg]

theorem memberColumns_eq_ok (hr : g.IsReordering h) (hg : g.IsForest) {table : String}
    {m : Member} {columns : List Column}
    (hm : memberColumns (key g (keyTable g)) table m = .ok columns) :
    memberColumns (key h (keyTable h)) table m = .ok columns := by
  cases m with
  | reference l =>
    rw [memberColumns] at hm ⊢
    by_cases hl : l.relation.isKeyReference
    · rwa [if_pos hl] at hm ⊢
    · rw [if_neg hl] at hm ⊢
      obtain ⟨keys, hk, rfl⟩ := map_eq_ok_iff.1 hm
      exact map_eq_ok_iff.2 ⟨keys, hr.key_eq_ok hg hk, rfl⟩
  | _ => exact hm

/-- An entity without a problem is the same in both graphs. -/
theorem entity_eq (hr : g.IsReordering h) (hg : g.IsForest) {a : Aggregate}
    (ha : (entity g (keyTable g) a).1 = []) :
    entity h (keyTable h) a = entity g (keyTable g) a := by
  obtain ⟨keys, columns, hk, hc, -, -, -⟩ := exists_entity_of_problems_eq_nil ha
  have hk : key g (keyTable g) a = .ok keys := key_eq_ok_iff.2 hk
  have hc' : (members h a).mapM (memberColumns (key h (keyTable h)) a.typeName) = .ok columns := by
    rw [mapM_eq_ok_iff, ← hr.members_eq]
    exact (mapM_eq_ok_iff.1 hc).imp fun _ _ => hr.memberColumns_eq_ok hg
  simp only [entity, entityWithKey, hk, hc, hr.key_eq_ok hg hk, hc', hr.keylessRootProblems_eq hg,
    hr.owner?_eq hg, hr.navigations_eq hg]

theorem byDepth_perm (hr : g.IsReordering h) : (byDepth g).Perm (byDepth h) :=
  (byDepth_perm_nodes g).trans (hr.nodes.trans (byDepth_perm_nodes h).symm)

/-- If every aggregate of one graph has its entity, so does every one of the other. -/
theorem exists_entities (hr : g.IsReordering h) (hg : g.IsForest) {es : List Entity}
    (hes : g.entities = .ok es) : ∃ fs, h.entities = .ok fs := by
  obtain ⟨htables, hproblems, -⟩ := Schema.problems_eq_nil ⟨g, es, hes⟩
  have hnames := (hr.byDepth_perm.map Aggregate.typeName).nodup_iff.1
    (sharedTables_eq_nil_iff.1 htables).2
  have hnone : sharedTables [] (byDepth h) = [] :=
    sharedTables_eq_nil_iff.2 ⟨fun _ _ => rfl, hnames⟩
  have hderived : (derivations h).flatMap (·.1) = [] := by
    refine List.flatMap_eq_nil_iff.2 fun x hx => ?_
    obtain ⟨a, ha, rfl⟩ := List.mem_map.1 hx
    have hp := hproblems a (hr.nodes.mem_iff.2 (mem_byDepth.1 ha))
    rw [hr.entity_eq hg hp, hp]
  exact ⟨_, by rw [entities_eq, hnone, hderived]; rfl⟩

theorem resultFieldsWithin_eq (hr : g.IsReordering h) :
    resultFieldsWithin g = resultFieldsWithin h := by
  funext levels
  induction levels with
  | zero => rfl
  | succ levels ih =>
    funext a
    rw [resultFieldsWithin, resultFieldsWithin, hr.members_eq, ih]

theorem views_eq (hr : g.IsReordering h) : views g = views h := by
  funext a
  rw [views, views, conditionFields, conditionFields, resultFields, resultFields, detailFields,
    detailFields, hr.members_eq, hr.resultFieldsWithin_eq, hr.nodes.length_eq]

theorem node?_eq (hr : g.IsReordering h) : g.node? = h.node? :=
  Graph.find?_eq_of_perm hr.nodes g.distinct

end IsReordering

end AggregateGraph

namespace Schema

/-- Two schemas that agree on everything that they derive from a path. -/
structure SameModel (s t : Schema) : Prop where
  paths : ∀ p, p ∈ s.aggregates.map (·.path) ↔ p ∈ t.aggregates.map (·.path)
  /-- The same type names and scalars. -/
  nodes : ∀ p, s.node? p = t.node? p
  owners : ∀ a ∈ s.graph.nodes, s.graph.owner? a = t.graph.owner? a
  entities : ∀ p, s.entity? p = t.entity? p
  views : ∀ p, s.views? p = t.views? p

theorem mem_paths_aggregates {s : Schema} {p : Path} :
    p ∈ s.aggregates.map (·.path) ↔ ∃ a ∈ s.graph.nodes, a.path = p := by
  rw [aggregates_eq, List.mem_map]
  exact exists_congr fun a => and_congr_left fun _ => AggregateGraph.mem_byDepth

theorem entity?_of_isReordering {s t : Schema} (hr : s.graph.IsReordering t.graph)
    (hg : s.graph.IsForest) {p : Path} {e : Entity} (he : s.entity? p = some e) :
    t.entity? p = some e := by
  obtain ⟨a, ha, hea, hae⟩ := exists_derived_of_mem_entities (List.mem_of_find?_eq_some he)
  have hep : e.path = p := by simpa using List.find?_some he
  obtain rfl : a.path = p := hea.symm.trans hep
  refine entity?_eq_some (hr.nodes.mem_iff.1 ha) ?_ hea
  rw [hr.entity_eq hg ((problems_eq_nil s).2.1 a ha)]
  exact hae

theorem sameModel_of_isReordering {s t : Schema} (hr : s.graph.IsReordering t.graph)
    (hg : s.graph.IsForest) : s.SameModel t where
  paths p := by
    simp only [mem_paths_aggregates, hr.nodes.mem_iff]
  nodes := congrFun hr.node?_eq
  owners a _ := congrFun (hr.owner?_eq hg) a
  entities p := Option.ext fun e =>
    ⟨entity?_of_isReordering hr hg, entity?_of_isReordering hr.symm (hr.isForest hg)⟩
  views p := by
    rw [views?, views?, node?, node?, hr.node?_eq, hr.views_eq]

end Schema

end AggregateSchema
