import AggregateSchema.Proofs.DeclaredMembers
import AggregateSchema.Snapshot

/-! Entities, views and the snapshot cover the aggregates of a schema, each once, and all in one order:
by depth, and within a depth as they were declared. -/
namespace AggregateSchema

namespace Schema
variable {s : Schema} {a : Aggregate} {e : Entity} {p : Path}

theorem pairwise_depth (s : Schema) :
    (s.entities.map Entity.path).Pairwise fun p q => p.depth ≤ q.depth := by
  rw [map_path_entities, List.pairwise_map]
  exact s.graph.pairwise_byDepth

theorem views?_eq_some (ha : a ∈ s.graph.nodes) : s.views? a.path = some (s.graph.views a) :=
  congrArg (Option.map s.graph.views) (s.graph.node?_id ha)

/-- The place of the last entity at a path. -/
def position? (s : Schema) (p : Path) : Option Nat :=
  (s.entities.zipIdx.reverse.find? (·.1.path = p)).map (·.2)

/-- The views of every aggregate that is found at the path of an entity. -/
def viewTable (s : Schema) : List Views :=
  s.entities.filterMap fun e => (s.node? e.path).map s.graph.views

theorem viewTable_eq (s : Schema) : s.viewTable = s.graph.byDepth.map s.graph.views := by
  rw [← aggregates_eq]
  exact (List.map_filterMap ..).symm

theorem position?_eq_none_iff : s.position? p = none ↔ p ∉ s.entities.map Entity.path := by
  rw [position?, Option.map_eq_none_iff, List.find?_eq_none, List.mem_map]
  constructor
  · rintro h ⟨e, he, rfl⟩
    obtain ⟨i, hi⟩ := List.getElem?_of_mem he
    exact h (e, i) (List.mem_reverse.2 (List.mem_zipIdx_iff_getElem?.2 hi)) (decide_eq_true rfl)
  · rintro h ⟨e, i⟩ hx he
    have hm := List.mem_of_getElem? (List.mem_zipIdx_iff_getElem?.1 (List.mem_reverse.1 hx))
    exact h ⟨e, hm, of_decide_eq_true he⟩

theorem getElem?_position? {i : Nat} (h : s.position? p = some i) :
    ∃ e, s.entities[i]? = some e ∧ e.path = p := by
  obtain ⟨⟨e, j⟩, hx, rfl⟩ := Option.map_eq_some_iff.1 h
  have hm := List.mem_reverse.1 (List.mem_of_find?_eq_some hx)
  exact ⟨e, List.mem_zipIdx_iff_getElem?.1 hm, by simpa using List.find?_some hx⟩

/-- The entity of a path stands at its place. -/
theorem entity?_eq_position? (s : Schema) (p : Path) :
    s.entity? p = (s.position? p).bind (s.entities[·]?) := by
  cases h : s.position? p with
  | none =>
    refine List.find?_eq_none.2 fun e he hp => position?_eq_none_iff.1 h ?_
    exact of_decide_eq_true hp ▸ List.mem_map_of_mem he
  | some i =>
    obtain ⟨e, he, hp⟩ := getElem?_position? h
    rw [Option.bind_some, he]
    exact entity?_eq_some_iff.2 ⟨List.mem_of_getElem? he, hp⟩

/-- The views of a path stand at the place of its entity. -/
theorem views?_eq_position? (s : Schema) (p : Path) :
    s.views? p = (s.position? p).bind (s.viewTable[·]?) := by
  cases h : s.position? p with
  | none =>
    rw [position?_eq_none_iff, map_path_entities] at h
    have hn : s.node? p = none := by
      refine List.find?_eq_none.2 fun a ha hp => h ?_
      exact of_decide_eq_true hp ▸ List.mem_map_of_mem (AggregateGraph.mem_byDepth.2 ha)
    rw [views?, hn]
    rfl
  | some i =>
    obtain ⟨e, he, hp⟩ := getElem?_position? h
    have hpath : (s.graph.byDepth.map Aggregate.path)[i]? = some p := by
      rw [← map_path_entities, List.getElem?_map, he, Option.map_some, hp]
    rw [List.getElem?_map] at hpath
    obtain ⟨a, ha, rfl⟩ := Option.map_eq_some_iff.1 hpath
    have hmem := AggregateGraph.mem_byDepth.1 (List.mem_of_getElem? ha)
    rw [views?_eq_some hmem, Option.bind_some, viewTable_eq, List.getElem?_map, ha]
    rfl

/-- What the snapshot records of an aggregate: its parent is that of the entity, and there is one
relation for every edge that leaves it. -/
structure Records (s : Schema) (a : Aggregate) (e : Entity) (j : Json) : Prop where
  path : j.get? "path" = some a.path.toJson
  typeName : j.get? "typeName" = some (.string a.typeName)
  parent : j.get? "parent" = e.owner?.map Path.toJson
  owner : e.owner? = (s.graph.owner? a).map Aggregate.path
  relations : j.get? "relations" = some (.array ((s.graph.outgoing a).map Link.relationJson))
  entity : j.get? "entity" = some e.toJson
  views : j.get? "views" = (s.views? a.path).map Views.toJson

theorem records_aggregateJson (ha : a ∈ s.graph.nodes)
    (he : e.owner? = (s.graph.owner? a).map Aggregate.path) :
    s.Records a e (s.aggregateJson a e) := by
  rw [aggregateJson]
  cases ho : s.graph.owner? a <;>
    exact ⟨rfl, rfl, by rw [he, ho]; rfl, he, rfl, rfl, by rw [views?_eq_some ha]; rfl⟩

/-- The snapshot records every entity, in order. -/
theorem exists_items (s : Schema) : ∃ items,
    s.snapshot.get? "aggregates" = some (.array items) ∧
      List.Forall₂ (fun e j => ∃ a, s.node? e.path = some a ∧ s.Records a e j)
        s.entities items := by
  refine ⟨_, rfl, ?_⟩
  rw [aggregates_eq]
  refine forall₂_filterMap (forall₂_entities s) ?_
  rintro e a ⟨ha, he⟩
  obtain ⟨hp, -, ho⟩ := AggregateGraph.header_of_entity he
  have hfound : s.entity? a.path = some e := entity?_eq_some ha he hp
  exact ⟨s.aggregateJson a e, by rw [hfound, Option.map_some], a, node?_of_derived ha he,
    records_aggregateJson ha ho⟩

end Schema

namespace Draft
variable {d : Draft} {base : TypeRegistry} {s : Schema}

/-- The relations that are declared, in order. -/
def relations (d : Draft) : List (Edge Path Relation) :=
  d.declarations.flatMap fun x => x.aggregates.filterMap (·.edge?) ++ x.reference?.toList

theorem edges_resolution (d : Draft) (base : TypeRegistry) :
    (d.resolution base).edges = d.relations := by
  rw [resolution, Resolution.edges_concat, List.flatMap_map]
  exact List.flatMap_congr fun x _ => (TypeRegistry.resolution_eq x).2

theorem map_path_nodes (h : d.resolve base = .ok s) :
    s.graph.nodes.map Aggregate.path = d.aggregates.map (·.path) := by
  rw [nodes_of_resolve h, aggregates_resolution, List.map_map]
  rfl

/-- What is derived from a draft covers the aggregates that it declares. -/
structure CoversAggregates (d : Draft) (s : Schema) : Prop where
  nodes : s.graph.nodes.map Aggregate.path = d.aggregates.map (·.path)
  /-- The text of a path identifies an aggregate as well as the path. -/
  identities : ∀ p : Path, s.graph.nodes.find? (·.path.toText = p.toText) = s.node? p
  /-- There is one entity for each aggregate. -/
  complete : (s.entities.map Entity.path).Perm (d.aggregates.map (·.path))
  byDepth : (s.entities.map Entity.path).Pairwise fun p q => p.depth ≤ q.depth
  inOrder : ∀ n, (s.entities.map Entity.path).filter (·.depth = n) =
    (d.aggregates.map (·.path)).filter (·.depth = n)
  ownerFirst : ∀ l ∈ s.graph.edges, l.relation.isOwnership = true →
    [l.initial.path, l.terminal.path].Sublist (s.entities.map Entity.path)
  found : ∀ p ∈ d.aggregates.map (·.path), ∃ e v, s.entity? p = some e ∧ e.path = p ∧
    s.views? p = some v ∧ v.path = p
  absent : ∀ p ∉ d.aggregates.map (·.path), s.entity? p = none ∧ s.views? p = none
  /-- Entities and views can be looked up by the place of a path. -/
  aligned : ∀ p, s.entity? p = (s.position? p).bind (s.entities[·]?) ∧
    s.views? p = (s.position? p).bind (s.viewTable[·]?)
  relations : ∀ a ∈ s.graph.nodes, (s.graph.outgoing a).map Edge.declared =
    (firstOccurrences Edge.identity d.relations).filter (·.initial = a.path)
  snapshot : ∃ items, s.snapshot.get? "aggregates" = some (.array items) ∧
    List.Forall₂ (fun e j => ∃ a, s.node? e.path = some a ∧ s.Records a e j) s.entities items

theorem coversAggregates (h : d.resolve base = .ok s) : d.CoversAggregates s where
  nodes := map_path_nodes h
  identities p := by
    have htext : (fun a : Aggregate => decide (a.path.toText = p.toText)) =
        fun a => decide (a.path = p) :=
      funext fun a => decide_eq_decide.2 ⟨Path.eq_of_toText_eq, congrArg Path.toText⟩
    rw [htext]
    rfl
  complete := by
    rw [Schema.map_path_entities, ← map_path_nodes h]
    exact s.graph.byDepth_perm_nodes.map _
  byDepth := s.pairwise_depth
  inOrder n := by
    rw [Schema.map_path_entities, ← map_path_nodes h, List.filter_map, List.filter_map]
    exact congrArg _ (s.graph.filter_byDepth n)
  ownerFirst l hl ho := by
    have hmem : ∀ a ∈ s.graph.nodes, a.path ∈ s.entities.map Entity.path := by
      intro a ha
      rw [Schema.map_path_entities]
      exact List.mem_map_of_mem (AggregateGraph.mem_byDepth.2 ha)
    obtain ⟨hi, ht⟩ := s.graph.closed l hl
    have hdepth := Path.depth_of_parent? ((isForest h).parent l hl ho)
    exact pair_sublist_of_lt s.pairwise_depth (hmem _ hi) (hmem _ ht) (by omega)
  found p hp := by
    rw [← map_path_nodes h] at hp
    obtain ⟨a, ha, rfl⟩ := List.mem_map.1 hp
    obtain ⟨e, he, hs⟩ := Schema.exists_entity ha
    exact ⟨e, s.graph.views a, he, hs.path, Schema.views?_eq_some ha, rfl⟩
  absent p hp := by
    have hnone : s.position? p = none := by
      rw [Schema.position?_eq_none_iff, Schema.map_path_entities,
        (s.graph.byDepth_perm_nodes.map _).mem_iff, map_path_nodes h]
      exact hp
    rw [s.entity?_eq_position?, s.views?_eq_position?, hnone]
    exact ⟨rfl, rfl⟩
  aligned p := ⟨s.entity?_eq_position? p, s.views?_eq_position? p⟩
  relations a ha := by
    rw [← firsts_eq_firstOccurrences, ← edges_resolution d base, ← edges_of_resolve h,
      List.filter_map]
    rfl
  snapshot := s.exists_items

/-- Orders with notes on their lines, each declared before what it lies in. -/
def ownersLast : Draft where
  declarations := [
    .children "Note" "/Order/Line" none [⟨"text", "sentence", false, false, false⟩],
    .children "Line" "/Order" none [],
    .aggregate "/Order" none [⟨"number", "integer", true, true, false⟩],
    .reference "customer" "/Order" "/Customer" false false,
    .aggregate "/Customer" none [⟨"id", "word", true, true, false⟩]]
  enumerations := []

theorem coversAggregates_ownersLast : ∃ s, ownersLast.resolve .standard = .ok s ∧
    ownersLast.CoversAggregates s ∧ s.entities.map (·.path.toText) =
      ["/Order", "/Customer", "/Order/Line", "/Order/Line/Note"] := by
  obtain ⟨s, hs, hpaths⟩ := exists_ok_of_any (ownersLast.resolve .standard)
    (fun s => s.entities.map (·.path.toText) =
      ["/Order", "/Customer", "/Order/Line", "/Order/Line/Note"]) (by decide +kernel)
  exact ⟨s, hs, coversAggregates hs, of_decide_eq_true hpaths⟩

end Draft

end AggregateSchema
