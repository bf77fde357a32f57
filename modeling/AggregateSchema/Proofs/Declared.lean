import AggregateSchema.Proofs.GraphBuilding
import AggregateSchema.Proofs.Traversal
import AggregateSchema.Schema

/-! What the declarations of a draft come to in the graph that it resolves to. -/
namespace AggregateSchema

namespace Resolution

@[simp] theorem problems_append (r s : Resolution) :
    (r ++ s).problems = r.problems ++ s.problems := rfl

@[simp] theorem aggregates_append (r s : Resolution) :
    (r ++ s).aggregates = r.aggregates ++ s.aggregates := rfl

@[simp] theorem edges_append (r s : Resolution) : (r ++ s).edges = r.edges ++ s.edges := rfl

theorem problems_concat (rs : List Resolution) :
    (concat rs).problems = rs.flatMap (·.problems) := by
  induction rs with
  | nil => rfl
  | cons r rs ih => exact congrArg (r.problems ++ ·) ih

theorem aggregates_concat (rs : List Resolution) :
    (concat rs).aggregates = rs.flatMap (·.aggregates) := by
  induction rs with
  | nil => rfl
  | cons r rs ih => exact congrArg (r.aggregates ++ ·) ih

theorem edges_concat (rs : List Resolution) : (concat rs).edges = rs.flatMap (·.edges) := by
  induction rs with
  | nil => rfl
  | cons r rs ih => exact congrArg (r.edges ++ ·) ih

theorem concat_append (rs ss : List Resolution) : concat (rs ++ ss) = concat rs ++ concat ss := by
  induction rs with
  | nil => rfl
  | cons r rs ih =>
    show append r (concat (rs ++ ss)) = append (append r (concat rs)) (concat ss)
    rw [ih]
    show append r (append (concat rs) (concat ss)) = _
    simp [append]

/-- The aggregates that edges of ownership lead to, in order. -/
def ownedPaths (edges : List (Edge Path Relation)) : List Path :=
  (edges.filter (·.relation.isOwnership)).map (·.terminal)

@[simp] theorem ownedPaths_append (xs ys : List (Edge Path Relation)) :
    ownedPaths (xs ++ ys) = ownedPaths xs ++ ownedPaths ys := by
  simp [ownedPaths]

end Resolution

/-- An aggregate as it is declared, with the edge from its owner unless it is a root. -/
structure DeclaredAggregate where
  path : Path
  typeName : Option String
  members : List ScalarDeclaration
  edge? : Option (Edge Path Relation)

namespace Declaration

/-- The path of a root that is declared. -/
def rootPath? : Declaration → Option Path
  | .aggregate path _ _ => (Path.parse path).toOption
  | _ => none

/-- An aggregate declared under an owner, if its name makes a path. -/
def owned? (owner : Path) (name relationName : String) (relation : Relation)
    (typeName : Option String) (members : List ScalarDeclaration) : Option DeclaredAggregate :=
  (owner.child name).toOption.map fun path =>
    ⟨path, typeName, members, some ⟨owner, path, relationName, relation⟩⟩

/-- The aggregates that a declaration stands for. -/
def aggregates : Declaration → List DeclaredAggregate
  | .aggregate path typeName members =>
    (Path.parse path).toOption.toList.map fun path => ⟨path, typeName, members, none⟩
  | .child name owner _ typeName members => (Path.parse owner).toOption.toList.flatMap fun owner =>
    (owned? owner name name .child typeName members).toList
  | .children name owner typeName members => (Path.parse owner).toOption.toList.flatMap fun owner =>
    (owned? owner name name .children typeName members).toList
  | .variation name owner _ _ variants => (Path.parse owner).toOption.toList.flatMap fun owner =>
    variants.flatMap fun v =>
      (owned? owner v.name name (.variant v.tag) v.typeName v.members).toList
  | .reference .. => []

/-- The edge that a reference stands for. -/
def reference? : Declaration → Option (Edge Path Relation)
  | .reference name owner target isKey isDisplayName =>
    match (Path.parse owner).toOption, (Path.parse target).toOption with
    | some owner, some target => some ⟨owner, target, name, .reference isKey isDisplayName⟩
    | _, _ => none
  | _ => none

theorem eq_of_owned? {owner : Path} {name relationName : String} {relation : Relation}
    {typeName : Option String} {members : List ScalarDeclaration} {a : DeclaredAggregate}
    (h : owned? owner name relationName relation typeName members = some a) :
    owner.child name = .ok a.path ∧
      a = ⟨a.path, typeName, members, some ⟨owner, a.path, relationName, relation⟩⟩ := by
  unfold owned? at h
  cases hc : owner.child name with
  | error p => simp [hc, Except.toOption] at h
  | ok p =>
    rw [hc] at h
    obtain rfl := Option.some.inj h
    exact ⟨rfl, rfl⟩

/-- An edge of ownership to an aggregate that is declared with it, one name below its owner. -/
structure LeadsTo (e : Edge Path Relation) (a : DeclaredAggregate) : Prop where
  terminal : e.terminal = a.path
  ownership : e.relation.isOwnership = true
  parent : a.path.parent? = some e.initial

theorem leadsTo_of_owned? {owner : Path} {name relationName : String} {relation : Relation}
    {typeName : Option String} {members : List ScalarDeclaration} {a : DeclaredAggregate}
    (h : owned? owner name relationName relation typeName members = some a)
    (hr : relation.isOwnership = true) : ∃ e, a.edge? = some e ∧ LeadsTo e a := by
  obtain ⟨hc, ha⟩ := eq_of_owned? h
  rw [ha]
  exact ⟨_, rfl, rfl, hr, Path.parent?_of_child hc⟩

/-- A declared aggregate is the root of its declaration, or there is no root. -/
theorem root_or_owned {x : Declaration} {a : DeclaredAggregate} (ha : a ∈ x.aggregates) :
    x.rootPath? = some a.path ∧ a.edge? = none ∨
      x.rootPath? = none ∧ ∃ e, a.edge? = some e ∧ LeadsTo e a := by
  cases x with
  | aggregate path typeName members =>
    obtain ⟨p, hp, rfl⟩ := List.mem_map.1 ha
    exact Or.inl ⟨Option.mem_toList.1 hp, rfl⟩
  | child name owner isKey typeName members =>
    obtain ⟨o, _, ha⟩ := List.mem_flatMap.1 ha
    exact Or.inr ⟨rfl, leadsTo_of_owned? (Option.mem_toList.1 ha) rfl⟩
  | children name owner typeName members =>
    obtain ⟨o, _, ha⟩ := List.mem_flatMap.1 ha
    exact Or.inr ⟨rfl, leadsTo_of_owned? (Option.mem_toList.1 ha) rfl⟩
  | variation name owner isKey base variants =>
    obtain ⟨o, _, ha⟩ := List.mem_flatMap.1 ha
    obtain ⟨v, _, ha⟩ := List.mem_flatMap.1 ha
    exact Or.inr ⟨rfl, leadsTo_of_owned? (Option.mem_toList.1 ha) rfl⟩
  | reference => cases ha

theorem leadsTo_of_mem_aggregates {x : Declaration} {a : DeclaredAggregate} (ha : a ∈ x.aggregates)
    {e : Edge Path Relation} (he : a.edge? = some e) : LeadsTo e a := by
  rcases root_or_owned ha with ⟨-, hn⟩ | ⟨-, f, hf, h⟩
  · rw [hn] at he
    cases he
  · rw [hf] at he
    exact Option.some.inj he ▸ h

theorem isOwnership_of_reference? {x : Declaration} {e : Edge Path Relation}
    (h : x.reference? = some e) : e.relation.isOwnership = false := by
  cases x with
  | reference name owner target isKey isDisplayName =>
    rw [reference?] at h
    split at h
    · obtain rfl := Option.some.inj h
      rfl
    · cases h
  | _ => cases h

theorem aggregates_of_rootPath? {x : Declaration} {p : Path} (h : x.rootPath? = some p) :
    ∃ a, x.aggregates = [a] ∧ a.path = p ∧ a.edge? = none := by
  cases x with
  | aggregate path typeName members =>
    rw [rootPath?] at h
    exact ⟨⟨p, typeName, members, none⟩, by simp [aggregates, h], rfl, rfl⟩
  | _ => cases h

/-- A declaration declares one root, or owned aggregates only. -/
theorem paths_aggregates (x : Declaration) :
    x.aggregates.map (·.path) =
      x.rootPath?.toList ++ (x.aggregates.filterMap (·.edge?)).map (·.terminal) := by
  cases h : x.rootPath? with
  | some p =>
    obtain ⟨a, ha, rfl, he⟩ := aggregates_of_rootPath? h
    simp [ha, he]
  | none =>
    have howned : ∀ a ∈ x.aggregates, ∃ e, a.edge? = some e ∧ LeadsTo e a := by
      intro a ha
      rcases root_or_owned ha with ⟨hp, -⟩ | ⟨-, he⟩
      · rw [h] at hp
        cases hp
      · exact he
    rw [Option.toList_none, List.nil_append]
    generalize x.aggregates = as at howned
    induction as with
    | nil => rfl
    | cons a as ih =>
      obtain ⟨e, he, ht⟩ := howned a List.mem_cons_self
      rw [List.filterMap_cons_some he, List.map_cons, List.map_cons, ht.terminal,
        ih fun b hb => howned b (List.mem_cons_of_mem _ hb)]

end Declaration

namespace TypeRegistry
variable {registry : TypeRegistry}

/-- The aggregate that a declared one comes to. -/
def resolved (registry : TypeRegistry) (a : DeclaredAggregate) : Aggregate :=
  ⟨a.path, (a.typeName.filter (!Text.isBlank ·)).getD a.path.baseName,
    a.members.filterMap registry.scalar?⟩

theorem owned_eq {owner : Path} {name relationName : String} {relation : Relation}
    {typeName : Option String} {members : List ScalarDeclaration} :
    let r := registry.owned owner name relationName relation typeName members
    let as := (Declaration.owned? owner name relationName relation typeName members).toList
    r.aggregates = as.map registry.resolved ∧ r.edges = as.filterMap (·.edge?) := by
  cases h : owner.child name with
  | error p => simp [owned, Declaration.owned?, h, Resolution.problem, Except.toOption]
  | ok path => simp [owned, Declaration.owned?, h, aggregate, resolved, Except.toOption]

/-- What a declaration comes to: the aggregates that it declares, and the edges to them or that of a
reference. -/
theorem resolution_eq (x : Declaration) :
    (registry.resolution x).aggregates = x.aggregates.map registry.resolved ∧
      (registry.resolution x).edges =
        x.aggregates.filterMap (·.edge?) ++ x.reference?.toList := by
  cases x with
  | aggregate path typeName members =>
    cases h : Path.parse path <;>
      simp [resolution, withPath, h, Declaration.aggregates, Declaration.reference?, aggregate,
        resolved, Resolution.problem, Except.toOption]
  | child name owner isKey typeName members =>
    cases h : Path.parse owner <;>
      simp [resolution, withPath, h, Declaration.aggregates, Declaration.reference?, owned_eq,
        Resolution.problem, Except.toOption]
  | children name owner typeName members =>
    cases h : Path.parse owner <;>
      simp [resolution, withPath, h, Declaration.aggregates, Declaration.reference?, owned_eq,
        Resolution.problem, Except.toOption]
  | variation name owner isKey b variants =>
    cases h : Path.parse owner <;>
      simp [resolution, withPath, h, Declaration.aggregates, Declaration.reference?, owned_eq,
        Resolution.aggregates_concat, Resolution.edges_concat, List.map_flatMap,
        List.filterMap_flatMap, List.flatMap_map, Resolution.problem, Except.toOption]
  | reference name owner target isKey isDisplayName =>
    cases h : Path.parse owner <;> cases ht : Path.parse target <;>
      simp [resolution, withPath, h, ht, Declaration.aggregates, Declaration.reference?,
        Resolution.problem, Except.toOption]

/-- An edge of ownership leads one name down. -/
theorem parent?_of_mem_edges {x : Declaration} {e : Edge Path Relation}
    (he : e ∈ (registry.resolution x).edges) (ho : e.relation.isOwnership = true) :
    e.terminal.parent? = some e.initial := by
  rw [(resolution_eq x).2, List.mem_append, List.mem_filterMap, Option.mem_toList] at he
  rcases he with ⟨a, ha, he⟩ | he
  · have hl := Declaration.leadsTo_of_mem_aggregates ha he
    rw [hl.terminal, hl.parent]
  · simp [Declaration.isOwnership_of_reference? he] at ho

/-- Every aggregate that a declaration comes to is a root or owned by an edge of its own. -/
theorem paths_resolution (x : Declaration) :
    (registry.resolution x).aggregates.map Aggregate.path =
      x.rootPath?.toList ++ Resolution.ownedPaths (registry.resolution x).edges := by
  have hfilter : (x.aggregates.filterMap (·.edge?) ++ x.reference?.toList).filter
      (·.relation.isOwnership) = x.aggregates.filterMap (·.edge?) := by
    rw [List.filter_append, List.filter_eq_self.2, List.filter_eq_nil_iff.2, List.append_nil]
    · intro e he
      simp [Declaration.isOwnership_of_reference? (Option.mem_toList.1 he)]
    · intro e he
      obtain ⟨a, ha, he⟩ := List.mem_filterMap.1 he
      exact (Declaration.leadsTo_of_mem_aggregates ha he).ownership
  rw [(resolution_eq x).1, (resolution_eq x).2, Resolution.ownedPaths, hfilter, List.map_map]
  exact x.paths_aggregates

/-- A key is never null. -/
theorem nullable_of_mem_resolution {x : Declaration} {a : Aggregate}
    (ha : a ∈ (registry.resolution x).aggregates) :
    ∀ s ∈ a.scalars, s.isKey = true → s.nullable = false := by
  rw [(resolution_eq x).1] at ha
  obtain ⟨b, _, rfl⟩ := List.mem_map.1 ha
  intro s hs hk
  obtain ⟨m, _, hm⟩ := List.mem_filterMap.1 hs
  obtain ⟨kind, _, rfl⟩ := Option.map_eq_some_iff.1 hm
  simp_all

end TypeRegistry

namespace Draft

/-- The paths of the roots that are declared, in order. -/
def rootPaths (d : Draft) : List Path := d.declarations.filterMap Declaration.rootPath?

variable {d : Draft} {base : TypeRegistry} {s : Schema}

/-- Every declared aggregate is a root or owned, and no edge of ownership leads elsewhere. -/
theorem paths_perm (d : Draft) (base : TypeRegistry) :
    ((d.resolution base).aggregates.map Aggregate.path).Perm
      (d.rootPaths ++ Resolution.ownedPaths (d.resolution base).edges) := by
  simp only [resolution, Resolution.aggregates_concat, Resolution.edges_concat, List.flatMap_map,
    rootPaths]
  induction d.declarations with
  | nil => rfl
  | cons x xs ih =>
    simp only [List.flatMap_cons, List.map_append, TypeRegistry.paths_resolution,
      Resolution.ownedPaths_append]
    have hx : (x :: xs).filterMap Declaration.rootPath? =
        x.rootPath?.toList ++ xs.filterMap Declaration.rootPath? := by
      cases h : x.rootPath? <;> simp [h]
    rw [hx]
    apply (ih.append_left _).trans
    rw [List.append_assoc, List.append_assoc, ← List.append_assoc (Resolution.ownedPaths _),
      ← List.append_assoc (List.filterMap _ _)]
    exact (List.perm_append_comm.append_right _).append_left _

/-- A draft resolves only without a problem, and then to its own graph. -/
theorem resolve_eq_ok (h : d.resolve base = .ok s) :
    d.declarationProblems base = [] ∧ d.graph base = .ok s.graph := by
  simp only [resolve] at h
  split at h
  · cases h
  · rename_i g hg
    by_cases hf : (d.declarationProblems base).isEmpty
    · rw [if_pos hf] at h
      split at h
      · cases h
        exact ⟨List.isEmpty_iff.1 hf, hg⟩
      · cases h
    · rw [if_neg hf] at h
      cases h

theorem problems_of_resolve (h : d.resolve base = .ok s) : (d.resolution base).problems = [] := by
  have hp := (resolve_eq_ok h).1
  simp only [declarationProblems, List.append_eq_nil_iff] at hp
  exact hp.1.2

theorem nodup_paths_of_resolve (h : d.resolve base = .ok s) :
    ((d.resolution base).aggregates.map Aggregate.path).Nodup := by
  have hp := (resolve_eq_ok h).1
  simp only [declarationProblems, List.append_eq_nil_iff, List.map_eq_nil_iff] at hp
  exact (repeats_eq_nil_iff _ _).1 hp.2

/-- The nodes are the declared aggregates. -/
theorem nodes_of_resolve (h : d.resolve base = .ok s) :
    s.graph.nodes = (d.resolution base).aggregates := by
  rw [(Graph.build_eq_ok (resolve_eq_ok h).2).2.1]
  exact firsts_eq_self (nodup_paths_of_resolve h)

/-- The edges are the declared ones, of those between the same aggregates by the same name the
first. -/
theorem edges_of_resolve (h : d.resolve base = .ok s) :
    s.graph.edges.map Edge.declared = firsts Edge.identity (d.resolution base).edges :=
  Graph.map_declared_edges (resolve_eq_ok h).2

theorem declared_mem_of_graph {g : AggregateGraph} (h : d.graph base = .ok g) {l : Link}
    (hl : l ∈ g.edges) : l.declared ∈ (d.resolution base).edges := by
  have hm : l.declared ∈ g.edges.map Edge.declared := List.mem_map_of_mem hl
  rw [Graph.map_declared_edges h] at hm
  exact (firsts_sublist _ _).subset hm

theorem declared_mem_of_resolve (h : d.resolve base = .ok s) {l : Link} (hl : l ∈ s.graph.edges) :
    l.declared ∈ (d.resolution base).edges :=
  declared_mem_of_graph (resolve_eq_ok h).2 hl

theorem mem_edges_resolution {e : Edge Path Relation} :
    e ∈ (d.resolution base).edges ↔
      ∃ x ∈ d.declarations, e ∈ ((d.registry base).resolution x).edges := by
  simp [resolution, Resolution.edges_concat]

theorem mem_aggregates_resolution {a : Aggregate} :
    a ∈ (d.resolution base).aggregates ↔
      ∃ x ∈ d.declarations, a ∈ ((d.registry base).resolution x).aggregates := by
  simp [resolution, Resolution.aggregates_concat]

/-- A key of a resolved aggregate is never null. -/
theorem nullable_of_resolve (h : d.resolve base = .ok s) {a : Aggregate} (ha : a ∈ s.graph.nodes) :
    ∀ m ∈ a.scalars, m.isKey = true → m.nullable = false := by
  rw [nodes_of_resolve h] at ha
  obtain ⟨x, _, hx⟩ := mem_aggregates_resolution.1 ha
  exact TypeRegistry.nullable_of_mem_resolution hx

theorem parent?_of_declared_edge {e : Edge Path Relation} (he : e ∈ (d.resolution base).edges)
    (ho : e.relation.isOwnership = true) : e.terminal.parent? = some e.initial := by
  obtain ⟨x, _, hx⟩ := mem_edges_resolution.1 he
  exact TypeRegistry.parent?_of_mem_edges hx ho

theorem nodup_roots_owned (h : d.resolve base = .ok s) :
    (d.rootPaths ++ Resolution.ownedPaths (d.resolution base).edges).Nodup :=
  (paths_perm d base).nodup_iff.1 (nodup_paths_of_resolve h)

/-- Orders of customers, each with an address, lines in sequence and a way of payment. -/
def orders : Draft where
  declarations := [
    .aggregate "/Customer" none
      [⟨"id", "word", true, false, false⟩, ⟨"name", "sentence", false, true, true⟩],
    .aggregate "/Order" none [⟨"number", "integer", true, true, false⟩],
    .reference "customer" "/Order" "/Customer" true false,
    .child "Address" "/Order" false none [⟨"street", "word", false, false, false⟩],
    .children "Line" "/Order" none [⟨"text", "sentence", false, false, false⟩],
    .variation "payment" "/Order" false none [
      ⟨"Card", 1, none, [⟨"holder", "word", false, false, false⟩]⟩,
      ⟨"Cash", 2, none, []⟩]]
  enumerations := []

end Draft

end AggregateSchema
