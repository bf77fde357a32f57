import AggregateSchema.Proofs.DeclarationOrder
import AggregateSchema.Proofs.GraphParts

/-! Two drafts that have nothing to do with each other, declared together: which problems of the one
come to light next to those of the other. -/
namespace AggregateSchema

theorem Path.rootName_of_child {p q : Path} {name : String} (h : p.child name = .ok q) :
    q.rootName = p.rootName := by
  simp [rootName, segments_of_child h, List.head_append_of_ne_nil p.valid.nonempty]

namespace Graph
variable {ν ι α : Type} [Identified ν ι] [DecidableEq ι] {nodes others : List ν}
  {edges more : List (Edge ι α)} {region : ι → Prop}

/-- Nodes, and edges between them or others, of one region. -/
structure LiesIn (region : ι → Prop) (nodes : List ν) (edges : List (Edge ι α)) : Prop where
  nodes : ∀ n ∈ nodes, region (Identified.id n)
  edges : ∀ e ∈ edges, region e.initial ∧ region e.terminal

omit [DecidableEq ι] in
theorem LiesIn.mono {area : ι → Prop} (h : LiesIn region nodes edges) (ha : ∀ i, region i → area i) :
    LiesIn area nodes edges :=
  ⟨fun n hn => ha _ (h.nodes n hn), fun e he => (h.edges e he).imp (ha _) (ha _)⟩

omit [DecidableEq ι] in
theorem LiesIn.firsts {κ : Type} [DecidableEq κ] (h : LiesIn region nodes edges) (key : ν → κ) :
    LiesIn region (firsts key nodes) edges :=
  ⟨fun n hn => h.nodes n ((firsts_sublist key nodes).subset hn), h.edges⟩

theorem find?_eq_none {i : ι} (h : ∀ n ∈ nodes, Identified.id n ≠ i) : find? nodes i = none := by
  rw [find?, List.find?_eq_none]
  exact fun n hn he => h n hn (of_decide_eq_true he)

theorem missingEnds_congr {e : Edge ι α} (hi : find? nodes e.initial = find? others e.initial)
    (ht : find? nodes e.terminal = find? others e.terminal) :
    missingEnds nodes e = missingEnds others e := by
  simp [missingEnds, List.filter_cons, hi, ht]

theorem resolve?_congr {e : Edge ι α} (hi : find? nodes e.initial = find? others e.initial)
    (ht : find? nodes e.terminal = find? others e.terminal) :
    resolve? nodes e = resolve? others e := by
  rw [resolve?, resolve?, hi, ht]

section Apart
variable (hin : LiesIn region nodes edges) (hout : LiesIn (fun i => ¬ region i) others more)
include hin hout

theorem find?_append_left {e : Edge ι α} (he : e ∈ edges) :
    find? (nodes ++ others) e.initial = find? nodes e.initial ∧
      find? (nodes ++ others) e.terminal = find? nodes e.terminal := by
  have hfind : ∀ i, region i → find? (nodes ++ others) i = find? nodes i := by
    intro i hi
    have hnone : find? others i = none :=
      find?_eq_none fun n hn he => hout.nodes n hn (he ▸ hi)
    rw [find?] at hnone
    rw [find?, List.find?_append, hnone, Option.or_none, find?]
  exact ⟨hfind _ (hin.edges e he).1, hfind _ (hin.edges e he).2⟩

theorem find?_append_right {e : Edge ι α} (he : e ∈ more) :
    find? (nodes ++ others) e.initial = find? others e.initial ∧
      find? (nodes ++ others) e.terminal = find? others e.terminal := by
  have hfind : ∀ i, ¬ region i → find? (nodes ++ others) i = find? others i := by
    intro i hi
    have hnone : find? nodes i = none := find?_eq_none fun n hn he => hi (he ▸ hin.nodes n hn)
    rw [find?] at hnone
    rw [find?, List.find?_append, hnone, Option.none_or, find?]
  exact ⟨hfind _ (hout.edges e he).1, hfind _ (hout.edges e he).2⟩

theorem firsts_edges_append : firsts Edge.identity (edges ++ more) =
    firsts Edge.identity edges ++ firsts Edge.identity more :=
  firsts_append Edge.identity fun e he f hf hid => by
    have hinitial : e.initial = f.initial := congrArg Prod.fst hid
    exact (hout.edges f hf).1 (hinitial ▸ (hin.edges e he).1)

/-- Of two regions, what is wrong with each is wrong with both together, and nothing else is. -/
theorem problems_append : problems (nodes ++ others) (edges ++ more) =
    (repeats Identified.id nodes ++ repeats Identified.id others).map
        (fun n => .repeatedNode (Identified.id n)) ++
      ((firsts Edge.identity edges).flatMap (missingEnds nodes) ++
        (firsts Edge.identity more).flatMap (missingEnds others)) := by
  rw [problems, firsts_edges_append hin hout, List.flatMap_append, repeats_append]
  · congr 2
    · refine List.flatMap_congr fun e he => ?_
      obtain ⟨hi, ht⟩ := find?_append_left hin hout ((firsts_sublist _ _).subset he)
      exact missingEnds_congr hi ht
    · refine List.flatMap_congr fun e he => ?_
      obtain ⟨hi, ht⟩ := find?_append_right hin hout ((firsts_sublist _ _).subset he)
      exact missingEnds_congr hi ht
  · exact fun m hm n hn hid => hout.nodes n hn (hid ▸ hin.nodes m hm)

theorem mem_problems_append {p : GraphProblem ι} : p ∈ problems (nodes ++ others) (edges ++ more) ↔
    p ∈ problems nodes edges ∨ p ∈ problems others more := by
  rw [problems_append hin hout, problems, problems]
  simp only [List.map_append, List.mem_append]
  exact or_or_or_comm

/-- The graph of two regions is made up of the graphs of both. -/
theorem exists_build_append {g k : Graph ν ι α} (hg : build nodes edges = .ok g)
    (hk : build others more = .ok k) :
    ∃ h, build (nodes ++ others) (edges ++ more) = .ok h ∧ h.nodes = g.nodes ++ k.nodes ∧
      h.edges = g.edges ++ k.edges := by
  obtain ⟨hgp, hgn, hge⟩ := build_eq_ok hg
  obtain ⟨hkp, hkn, hke⟩ := build_eq_ok hk
  have hnone : problems (nodes ++ others) (edges ++ more) = [] := by
    refine List.eq_nil_iff_forall_not_mem.2 fun p hp => ?_
    rw [mem_problems_append hin hout, hgp, hkp] at hp
    simp at hp
  obtain ⟨h, hh⟩ := exists_build hnone
  obtain ⟨-, hn, he⟩ := build_eq_ok hh
  refine ⟨h, hh, by rw [hn, hgn, hkn], ?_⟩
  rw [he, hge, hke, firsts_edges_append hin hout, List.filterMap_append]
  congr 1
  · refine List.filterMap_congr fun e he => ?_
    obtain ⟨hi, ht⟩ := find?_append_left hin hout ((firsts_sublist _ _).subset he)
    exact resolve?_congr hi ht
  · refine List.filterMap_congr fun e he => ?_
    obtain ⟨hi, ht⟩ := find?_append_right hin hout ((firsts_sublist _ _).subset he)
    exact resolve?_congr hi ht

end Apart

end Graph

/-- The table of a declared aggregate. -/
def DeclaredAggregate.table (a : DeclaredAggregate) : String :=
  (a.typeName.filter (!Text.isBlank ·)).getD a.path.baseName

namespace Declaration

/-- The texts that name an aggregate by its path. -/
def pathTexts : Declaration → List String
  | .aggregate path .. => [path]
  | .child _ owner .. => [owner]
  | .children _ owner .. => [owner]
  | .variation _ owner .. => [owner]
  | .reference _ owner target .. => [owner, target]

/-- The roots at or below which the named aggregates lie. -/
def rootNames (x : Declaration) : List String :=
  x.pathTexts.filterMap fun t => (Path.parse t).toOption.map Path.rootName

theorem mem_rootNames {x : Declaration} {t : String} {p : Path} (ht : t ∈ x.pathTexts)
    (hp : p ∈ (Path.parse t).toOption.toList) : p.rootName ∈ x.rootNames :=
  List.mem_filterMap.2 ⟨t, ht, by rw [Option.mem_toList.1 hp]; rfl⟩

theorem rootName_of_owned? {x : Declaration} {owner : Path} {name relationName : String}
    {relation : Relation} {typeName : Option String} {members : List ScalarDeclaration}
    {a : DeclaredAggregate} (ho : owner.rootName ∈ x.rootNames)
    (ha : a ∈ (owned? owner name relationName relation typeName members).toList) :
    a.path.rootName ∈ x.rootNames ∧ ∀ e, a.edge? = some e →
      e.initial.rootName ∈ x.rootNames ∧ e.terminal.rootName ∈ x.rootNames := by
  obtain ⟨hc, he⟩ := eq_of_owned? (Option.mem_toList.1 ha)
  have hpath : a.path.rootName ∈ x.rootNames := by rwa [Path.rootName_of_child hc]
  refine ⟨hpath, fun e hae => ?_⟩
  rw [he] at hae
  obtain rfl := Option.some.inj hae
  exact ⟨ho, hpath⟩

theorem rootName_of_mem_aggregates {x : Declaration} {a : DeclaredAggregate}
    (ha : a ∈ x.aggregates) : a.path.rootName ∈ x.rootNames ∧ ∀ e, a.edge? = some e →
      e.initial.rootName ∈ x.rootNames ∧ e.terminal.rootName ∈ x.rootNames := by
  cases x with
  | aggregate path typeName members =>
    obtain ⟨p, hp, rfl⟩ := List.mem_map.1 ha
    exact ⟨mem_rootNames List.mem_cons_self hp, fun e he => by cases he⟩
  | child name owner isKey typeName members =>
    obtain ⟨o, ho, ha⟩ := List.mem_flatMap.1 ha
    exact rootName_of_owned? (mem_rootNames List.mem_cons_self ho) ha
  | children name owner typeName members =>
    obtain ⟨o, ho, ha⟩ := List.mem_flatMap.1 ha
    exact rootName_of_owned? (mem_rootNames List.mem_cons_self ho) ha
  | variation name owner isKey base variants =>
    obtain ⟨o, ho, ha⟩ := List.mem_flatMap.1 ha
    obtain ⟨v, -, ha⟩ := List.mem_flatMap.1 ha
    exact rootName_of_owned? (mem_rootNames List.mem_cons_self ho) ha
  | reference => cases ha

theorem rootName_of_reference? {x : Declaration} {e : Edge Path Relation}
    (he : x.reference? = some e) :
    e.initial.rootName ∈ x.rootNames ∧ e.terminal.rootName ∈ x.rootNames := by
  cases x with
  | reference name owner target isKey isDisplayName =>
    rw [reference?] at he
    split at he
    · rename_i o t ho ht
      obtain rfl := Option.some.inj he
      exact ⟨mem_rootNames List.mem_cons_self (Option.mem_toList.2 ho),
        mem_rootNames (List.mem_cons_of_mem _ List.mem_cons_self) (Option.mem_toList.2 ht)⟩
    · cases he
  | _ => cases he

/-- All that a declaration comes to lies at or below the roots that it names. -/
theorem liesIn_resolution (registry : TypeRegistry) (x : Declaration) :
    Graph.LiesIn (·.rootName ∈ x.rootNames) (registry.resolution x).aggregates
      (registry.resolution x).edges where
  nodes a ha := by
    rw [(TypeRegistry.resolution_eq x).1] at ha
    obtain ⟨b, hb, rfl⟩ := List.mem_map.1 ha
    exact (rootName_of_mem_aggregates hb).1
  edges e he := by
    rw [(TypeRegistry.resolution_eq x).2, List.mem_append, List.mem_filterMap,
      Option.mem_toList] at he
    rcases he with ⟨a, ha, he⟩ | he
    · exact (rootName_of_mem_aggregates ha).2 e he
    · exact rootName_of_reference? he

end Declaration

namespace AggregateGraph
variable {g k h : AggregateGraph}

theorem isPart_of_append (hn : h.nodes = g.nodes ++ k.nodes) (he : h.edges = g.edges ++ k.edges)
    (hd : ∀ a ∈ g.nodes, ∀ b ∈ k.nodes, a.path ≠ b.path) : g.IsPart h where
  nodes := by
    rw [hn]
    exact List.subset_append_left _ _
  outgoing a ha := by
    have hnone : k.outgoing a = [] := List.filter_eq_nil_iff.2 fun l hl hla =>
      hd a ha _ (k.closed l hl).1 (of_decide_eq_true hla).symm
    rw [Graph.outgoing] at hnone
    rw [Graph.outgoing, he, List.filter_append, hnone, List.append_nil, Graph.outgoing]
  incoming a ha := by
    have hnone : k.incoming a = [] := List.filter_eq_nil_iff.2 fun l hl hla =>
      hd a ha _ (k.closed l hl).2 (of_decide_eq_true hla).symm
    rw [Graph.incoming] at hnone
    rw [Graph.incoming, he, List.filter_append, hnone, List.append_nil, Graph.incoming]

end AggregateGraph

namespace Draft
variable {d e : Draft} {base : TypeRegistry}

def rootNames (d : Draft) : List String := d.declarations.flatMap Declaration.rootNames

def tables (d : Draft) : List String :=
  d.declarations.flatMap fun x => x.aggregates.map DeclaredAggregate.table

theorem liesIn_resolution (d : Draft) (base : TypeRegistry) :
    Graph.LiesIn (·.rootName ∈ d.rootNames) (d.resolution base).aggregates
      (d.resolution base).edges where
  nodes a ha := by
    obtain ⟨x, hx, hax⟩ := mem_aggregates_resolution.1 ha
    exact List.mem_flatMap.2 ⟨x, hx, (Declaration.liesIn_resolution _ x).nodes a hax⟩
  edges f hf := by
    obtain ⟨x, hx, hfx⟩ := mem_edges_resolution.1 hf
    obtain ⟨hi, ht⟩ := (Declaration.liesIn_resolution _ x).edges f hfx
    exact ⟨List.mem_flatMap.2 ⟨x, hx, hi⟩, List.mem_flatMap.2 ⟨x, hx, ht⟩⟩

theorem typeName_mem_tables {a : Aggregate} (ha : a ∈ (d.resolution base).aggregates) :
    a.typeName ∈ d.tables := by
  obtain ⟨x, hx, hax⟩ := mem_aggregates_resolution.1 ha
  rw [(TypeRegistry.resolution_eq x).1] at hax
  obtain ⟨b, hb, rfl⟩ := List.mem_map.1 hax
  exact List.mem_flatMap.2 ⟨x, hx, List.mem_map_of_mem hb⟩

def graphProblems (d : Draft) (base : TypeRegistry) : List (GraphProblem Path) :=
  Graph.problems (firsts Aggregate.path (d.resolution base).aggregates) (d.resolution base).edges

/-- Everything that is found before entities are derived. -/
def frontProblems (d : Draft) (base : TypeRegistry) : List SchemaProblem :=
  d.declarationProblems base ++ (d.graphProblems base).map .graph

theorem resolve_of_frontProblems (h : d.frontProblems base ≠ []) :
    d.resolve base = .error (d.frontProblems base) := by
  cases hg : d.graph base with
  | error ps =>
    obtain ⟨rfl, -⟩ := Graph.build_eq_error hg
    simp only [resolve, hg]
    rfl
  | ok g =>
    have hnone : d.graphProblems base = [] := (Graph.build_eq_ok hg).1
    rw [frontProblems, hnone, List.map_nil, List.append_nil] at h ⊢
    exact (resolve_eq_error_iff hg).2 (Or.inl ⟨h, rfl⟩)

theorem exists_graph (h : d.frontProblems base = []) :
    d.declarationProblems base = [] ∧ ∃ g, d.graph base = .ok g := by
  obtain ⟨hd, hg⟩ := List.append_eq_nil_iff.1 h
  exact ⟨hd, Graph.exists_build (List.map_eq_nil_iff.1 hg)⟩

/-- The second draft declares nothing at or below a root of the first, no table of the first, and no
enumeration. -/
structure IsApart (d e : Draft) : Prop where
  roots : ∀ r ∈ d.rootNames, r ∉ e.rootNames
  tables : ∀ t ∈ d.tables, t ∉ e.tables
  enumerations : e.enumerations = []

namespace IsApart
variable (h : d.IsApart e)
include h

theorem resolution_append (base : TypeRegistry) :
    (d ++ e).resolution base = d.resolution base ++ e.resolution (d.registry base) := by
  have hd : (d ++ e).registry base = d.registry base := by
    rw [registry, registry, enumerations_append, h.enumerations, List.append_nil]
  have he : e.registry (d.registry base) = d.registry base := by
    rw [registry, h.enumerations, registerEnumerations]
  rw [resolution, resolution, resolution, hd, he, declarations_append, List.map_append,
    Resolution.concat_append]

theorem liesIn_resolution (base : TypeRegistry) :
    Graph.LiesIn (fun p : Path => ¬ p.rootName ∈ d.rootNames) (e.resolution base).aggregates
      (e.resolution base).edges :=
  (Draft.liesIn_resolution e base).mono fun _ he hd => h.roots _ hd he

theorem path_ne {base other : TypeRegistry} {a b : Aggregate}
    (ha : a ∈ (d.resolution base).aggregates) (hb : b ∈ (e.resolution other).aggregates) :
    a.path ≠ b.path := by
  intro hab
  have hroot : a.path.rootName ∈ d.rootNames := (Draft.liesIn_resolution d base).nodes a ha
  rw [hab] at hroot
  exact (h.liesIn_resolution other).nodes b hb hroot

theorem declarationProblems_append (base : TypeRegistry) :
    (d ++ e).declarationProblems base = (registerEnumerations base d.enumerations).1 ++
      ((d.resolution base).problems ++ (e.resolution (d.registry base)).problems) ++
        (repeats Aggregate.path (d.resolution base).aggregates ++
          repeats Aggregate.path (e.resolution (d.registry base)).aggregates).map
            fun a => .repeatedPath a.path := by
  rw [declarationProblems, h.resolution_append, Resolution.problems_append,
    Resolution.aggregates_append, repeats_append Aggregate.path fun a ha b hb => h.path_ne ha hb,
    enumerations_append, h.enumerations, List.append_nil]

theorem declarationProblems_right (base : TypeRegistry) :
    e.declarationProblems base = (e.resolution base).problems ++
      (repeats Aggregate.path (e.resolution base).aggregates).map fun a => .repeatedPath a.path := by
  rw [declarationProblems, h.enumerations, registerEnumerations, List.nil_append]

theorem mem_declarationProblems_append (base : TypeRegistry) {p : SchemaProblem} :
    p ∈ (d ++ e).declarationProblems base ↔
      p ∈ d.declarationProblems base ∨ p ∈ e.declarationProblems (d.registry base) := by
  rw [h.declarationProblems_append, h.declarationProblems_right, declarationProblems]
  simp only [List.map_append, List.mem_append, ← or_assoc (b := p ∈ (d.resolution base).problems)]
  exact or_or_or_comm

theorem firsts_aggregates_append (base : TypeRegistry) :
    firsts Aggregate.path ((d ++ e).resolution base).aggregates =
      firsts Aggregate.path (d.resolution base).aggregates ++
        firsts Aggregate.path (e.resolution (d.registry base)).aggregates := by
  rw [h.resolution_append, Resolution.aggregates_append]
  exact firsts_append Aggregate.path fun a ha b hb => h.path_ne ha hb

theorem graphProblems_append (base : TypeRegistry) {p : GraphProblem Path} :
    p ∈ (d ++ e).graphProblems base ↔
      p ∈ d.graphProblems base ∨ p ∈ e.graphProblems (d.registry base) := by
  rw [graphProblems, h.firsts_aggregates_append, h.resolution_append, Resolution.edges_append]
  exact Graph.mem_problems_append ((Draft.liesIn_resolution d base).firsts _)
    ((h.liesIn_resolution _).firsts _)

/-- Before entities are derived, no problem of the one draft hides one of the other. -/
theorem mem_frontProblems_append (base : TypeRegistry) {p : SchemaProblem} :
    p ∈ (d ++ e).frontProblems base ↔
      p ∈ d.frontProblems base ∨ p ∈ e.frontProblems (d.registry base) := by
  have hgraph : p ∈ ((d ++ e).graphProblems base).map .graph ↔
      p ∈ (d.graphProblems base).map .graph ∨
        p ∈ (e.graphProblems (d.registry base)).map .graph := by
    simp only [List.mem_map, h.graphProblems_append, or_and_right, exists_or]
  rw [frontProblems, frontProblems, frontProblems, List.mem_append, List.mem_append,
    List.mem_append, h.mem_declarationProblems_append, hgraph]
  exact or_or_or_comm

theorem frontProblems_append (base : TypeRegistry) (hd : d.frontProblems base = []) :
    (d ++ e).frontProblems base = e.frontProblems (d.registry base) := by
  obtain ⟨hdecl, hgraph⟩ := List.append_eq_nil_iff.1 hd
  have hg := Graph.problems_append ((Draft.liesIn_resolution d base).firsts Aggregate.path)
    ((h.liesIn_resolution (d.registry base)).firsts Aggregate.path)
  simp only [graphProblems, Graph.problems, List.map_eq_nil_iff, List.append_eq_nil_iff] at hgraph
  simp only [declarationProblems, List.append_eq_nil_iff, List.map_eq_nil_iff] at hdecl
  rw [frontProblems, frontProblems, h.declarationProblems_append, h.declarationProblems_right,
    graphProblems, h.firsts_aggregates_append, h.resolution_append, Resolution.edges_append, hg]
  simp only [hdecl, hgraph, List.nil_append, graphProblems, Graph.problems]

/-- Where both drafts form graphs, that of the first is a part of the graph of both. -/
theorem exists_graph_append {g k : AggregateGraph} (hg : d.graph base = .ok g)
    (hk : e.graph (d.registry base) = .ok k) : ∃ m, (d ++ e).graph base = .ok m ∧ g.IsPart m ∧
      g.nodes = m.nodes.filter fun a => decide (a.typeName ∈ d.tables) := by
  obtain ⟨m, hm, hn, he⟩ := Graph.exists_build_append ((Draft.liesIn_resolution d base).firsts _)
    ((h.liesIn_resolution _).firsts _) hg hk
  have hnodes : ∀ {f : Draft} {base : TypeRegistry} {g : AggregateGraph}, f.graph base = .ok g →
      ∀ a ∈ g.nodes, a ∈ (f.resolution base).aggregates := by
    intro f base g hg a ha
    rw [(Graph.build_eq_ok hg).2.1] at ha
    exact (firsts_sublist _ _).subset ha
  refine ⟨m, ?_, AggregateGraph.isPart_of_append hn he fun a ha b hb =>
    h.path_ne (hnodes hg a ha) (hnodes hk b hb), ?_⟩
  · rw [graph, h.firsts_aggregates_append, h.resolution_append, Resolution.edges_append]
    exact hm
  · rw [hn, List.filter_append, List.filter_eq_self.2, List.filter_eq_nil_iff.2, List.append_nil]
    · exact fun b hb ht => h.tables _ (of_decide_eq_true ht) (typeName_mem_tables (hnodes hk b hb))
    · exact fun a ha => decide_eq_true (typeName_mem_tables (hnodes hg a ha))

end IsApart

theorem entity_not_mem_owned {registry : TypeRegistry} {owner : Path} {name relationName : String}
    {relation : Relation} {typeName : Option String} {members : List ScalarDeclaration}
    (q : EntityProblem) :
    .entity q ∉ (registry.owned owner name relationName relation typeName members).problems := by
  cases hc : owner.child name <;>
    simp [TypeRegistry.owned, hc, Resolution.problem, TypeRegistry.aggregate]

theorem entity_not_mem_variationProblems {registry : TypeRegistry} {owner : Path} {name : String}
    {isKey : Bool} {base : Option VariationBase} {variants : List VariantDeclaration}
    (q : EntityProblem) :
    .entity q ∉ registry.variationProblems owner name isKey base variants := by
  have hbase : ∀ b v, .entity q ∉ registry.baseProblems name b v := by
    intro b v hq
    obtain ⟨m, -, hm⟩ := List.mem_flatMap.1 hq
    split at hm
    · simp at hm
    · split at hm
      · split at hm <;> simp at hm
      · cases hm
  unfold TypeRegistry.variationProblems
  cases base <;> cases isKey <;> cases variants <;> simp [hbase]

/-- No declaration is blamed for what is wrong with an entity. -/
theorem entity_not_mem_resolution (registry : TypeRegistry) (x : Declaration) (q : EntityProblem) :
    .entity q ∉ (registry.resolution x).problems := by
  cases x with
  | aggregate path typeName members =>
    cases hp : Path.parse path <;>
      simp [TypeRegistry.resolution, TypeRegistry.withPath, hp, Resolution.problem,
        TypeRegistry.aggregate]
  | child name owner isKey typeName members =>
    cases hp : Path.parse owner <;> cases isKey <;>
      simp [TypeRegistry.resolution, TypeRegistry.withPath, hp, Resolution.problem,
        entity_not_mem_owned]
  | children name owner typeName members =>
    cases hp : Path.parse owner <;>
      simp [TypeRegistry.resolution, TypeRegistry.withPath, hp, Resolution.problem,
        entity_not_mem_owned]
  | variation name owner isKey base variants =>
    cases hp : Path.parse owner <;>
      simp [TypeRegistry.resolution, TypeRegistry.withPath, hp, Resolution.problem,
        entity_not_mem_owned, entity_not_mem_variationProblems, Resolution.problems_concat]
  | reference name owner target isKey isDisplayName =>
    cases hp : Path.parse owner <;> cases ht : Path.parse target <;>
      simp [TypeRegistry.resolution, TypeRegistry.withPath, hp, ht, Resolution.problem]

theorem entity_not_mem_registerEnumerations (registry : TypeRegistry)
    (ds : List EnumerationDeclaration) (q : EntityProblem) :
    .entity q ∉ (registerEnumerations registry ds).1 := by
  induction ds generalizing registry with
  | nil => simp [registerEnumerations]
  | cons x ds ih =>
    unfold registerEnumerations
    split
    · exact ih _
    · simp [ih]

theorem entity_not_mem_frontProblems (d : Draft) (base : TypeRegistry) (q : EntityProblem) :
    .entity q ∉ d.frontProblems base := by
  simp [frontProblems, declarationProblems, entity_not_mem_registerEnumerations, resolution,
    Resolution.problems_concat, entity_not_mem_resolution]

theorem resolve_eq_error_of_frontProblems (hd : d.frontProblems base = []) {g : AggregateGraph}
    (hg : d.graph base = .ok g) {ps : List SchemaProblem} :
    d.resolve base = .error ps ↔ ps = g.entityProblems.map .entity ∧ ps ≠ [] := by
  rw [resolve_eq_error_iff hg]
  simp only [(exists_graph hd).1, ne_eq, not_true, false_and, false_or, true_and,
    AggregateGraph.entities_eq_error_iff]
  constructor
  · rintro ⟨_, ⟨rfl, hne⟩, rfl⟩
    exact ⟨rfl, by simpa using hne⟩
  · rintro ⟨rfl, hne⟩
    exact ⟨_, ⟨rfl, by simpa using hne⟩, rfl⟩

/-- Where both drafts form graphs, what is wrong with the entities of the first comes to light. -/
theorem IsApart.exists_resolve_append (h : d.IsApart e) (hd : d.frontProblems base = [])
    (he : e.frontProblems (d.registry base) = []) {ps : List SchemaProblem}
    (hps : d.resolve base = .error ps) : ∃ qs, (d ++ e).resolve base = .error qs ∧ ps ⊆ qs := by
  obtain ⟨-, g, hg⟩ := exists_graph hd
  obtain ⟨-, k, hk⟩ := exists_graph he
  obtain ⟨m, hm, hpart, htables⟩ := h.exists_graph_append hg hk
  obtain ⟨rfl, hne⟩ := (resolve_eq_error_of_frontProblems hd hg).1 hps
  have hfront := (h.frontProblems_append base hd).trans he
  have hsub : g.entityProblems.map .entity ⊆ m.entityProblems.map SchemaProblem.entity :=
    List.map_subset _ (hpart.entityProblems_subset (fun t => decide (t ∈ d.tables)) htables)
  refine ⟨_, (resolve_eq_error_of_frontProblems hfront hm).2 ⟨rfl, fun hnil => hne ?_⟩, hsub⟩
  exact List.eq_nil_of_subset_nil (hnil ▸ hsub)

/-- Two drafts that have nothing to do with each other, declared together, do not resolve if the first
one does not. All problems of the first come to light with one exception: entities are derived only if
nothing was found before, so that those of the first are not looked at if something is wrong with the
declarations or the graph of the second, which is then all that is found. -/
theorem resolve_append_eq_error (h : d.IsApart e) {ps : List SchemaProblem}
    (hps : d.resolve base = .error ps) : ∃ qs, (d ++ e).resolve base = .error qs ∧
      (ps ⊆ qs ↔ (d.frontProblems base = [] → e.frontProblems (d.registry base) = [])) ∧
        (ps ⊆ qs → (Report.ofList (ps.map SchemaProblem.message)).messages ⊆
          (Report.ofList (qs.map SchemaProblem.message)).messages) ∧
          (d.frontProblems base = [] → e.frontProblems (d.registry base) ≠ [] →
            e.resolve (d.registry base) = .error qs) := by
  have hmessages : ∀ qs : List SchemaProblem, ps ⊆ qs →
      (Report.ofList (ps.map SchemaProblem.message)).messages ⊆
        (Report.ofList (qs.map SchemaProblem.message)).messages := by
    intro qs hsub m hm
    rw [Report.mem_ofList] at hm ⊢
    exact List.map_subset _ hsub hm
  by_cases hd : d.frontProblems base = []
  · by_cases he : e.frontProblems (d.registry base) = []
    · obtain ⟨qs, hqs, hsub⟩ := h.exists_resolve_append hd he hps
      exact ⟨qs, hqs, iff_of_true hsub fun _ => he, hmessages qs, fun _ hne => absurd he hne⟩
    · have hfront := h.frontProblems_append base hd
      refine ⟨e.frontProblems (d.registry base), ?_, iff_of_false (fun hsub => ?_) fun hnil =>
        he (hnil hd), hmessages _, fun _ hne => resolve_of_frontProblems hne⟩
      · rw [← hfront] at he ⊢
        exact resolve_of_frontProblems he
      · obtain ⟨-, g, hg⟩ := exists_graph hd
        obtain ⟨rfl, hne⟩ := (resolve_eq_error_of_frontProblems hd hg).1 hps
        obtain ⟨p, hp⟩ := List.exists_mem_of_ne_nil _ hne
        obtain ⟨q, -, rfl⟩ := List.mem_map.1 hp
        exact entity_not_mem_frontProblems e (d.registry base) q (hsub hp)
  · rw [resolve_of_frontProblems hd, Except.error.injEq] at hps
    subst hps
    have hsub : d.frontProblems base ⊆ (d ++ e).frontProblems base := fun p hp =>
      (h.mem_frontProblems_append base).2 (Or.inl hp)
    refine ⟨_, resolve_of_frontProblems fun hnil => hd ?_, iff_of_true hsub fun hnil => absurd hnil hd,
      hmessages _, fun hnil => absurd hnil hd⟩
    exact List.eq_nil_of_subset_nil (hnil ▸ hsub)

/-- A cycle of keys is reported beside orders that have nothing to do with it. -/
theorem resolve_append_eq_error_mutualKeys : mutualKeys.IsApart orders ∧
    ∃ ps qs, mutualKeys.resolve .standard = .error ps ∧
      (mutualKeys ++ orders).resolve .standard = .error qs ∧ ps ⊆ qs := by
  have hapart : mutualKeys.IsApart orders := ⟨by decide +kernel, by decide +kernel, rfl⟩
  obtain ⟨ps, hps, -⟩ := exists_error_of_any (mutualKeys.resolve .standard) (fun _ => true)
    (by decide +kernel)
  obtain ⟨qs, hqs, hsub, -⟩ := resolve_append_eq_error hapart hps
  exact ⟨hapart, ps, qs, hps, hqs, hsub.2 fun _ => by decide +kernel⟩

/-- Two aggregates with one table. -/
def sharedTable : Draft where
  declarations := [
    .aggregate "/Invoice" (some "Document") [⟨"id", "word", true, false, false⟩],
    .aggregate "/Receipt" (some "Document") [⟨"id", "word", true, false, false⟩]]
  enumerations := []

/-- A member of a type that is not known. -/
def unknownMember : Draft where
  declarations := [.aggregate "/Customer" none [⟨"id", "text", true, false, false⟩]]
  enumerations := []

/-- That two aggregates share a table is not reported together with a type that is not known. -/
theorem not_resolve_append_of_draft : sharedTable.IsApart unknownMember ∧
    ∃ ps qs, sharedTable.resolve .standard = .error ps ∧
      (sharedTable ++ unknownMember).resolve .standard = .error qs ∧
        ∃ m ∈ ps.map SchemaProblem.message, m ∉ qs.map SchemaProblem.message := by
  refine ⟨⟨by decide +kernel, by decide +kernel, rfl⟩, ?_⟩
  obtain ⟨ps, hps, hp⟩ := exists_error_of_any (sharedTable.resolve .standard)
    (fun ps => decide ("Table name 'Document' is used by both '/Invoice' and '/Receipt'." ∈
      ps.map SchemaProblem.message)) (by decide +kernel)
  obtain ⟨qs, hqs, hq⟩ := exists_error_of_any ((sharedTable ++ unknownMember).resolve .standard)
    (fun qs => decide ("Table name 'Document' is used by both '/Invoice' and '/Receipt'." ∉
      qs.map SchemaProblem.message)) (by decide +kernel)
  exact ⟨ps, qs, hps, hqs, _, of_decide_eq_true hp, of_decide_eq_true hq⟩

end Draft

end AggregateSchema
