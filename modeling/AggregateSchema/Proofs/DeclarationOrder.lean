import AggregateSchema.Proofs.Reordering

/-! The order in which different owners are declared to own something does not matter. -/
namespace AggregateSchema

namespace Declaration

/-- The owner that a declaration names; that of an aggregate names none. -/
def owner? : Declaration → Option String
  | .aggregate .. => none
  | .child _ owner .. => some owner
  | .children _ owner .. => some owner
  | .variation _ owner .. => some owner
  | .reference _ owner .. => some owner

theorem toText_of_mem_parse {text : String} {p : Path}
    (h : p ∈ (Path.parse text).toOption.toList) : p.toText = text := by
  cases hp : Path.parse text with
  | error e => simp [hp, Except.toOption] at h
  | ok q =>
    obtain rfl : p = q := by simpa [hp, Except.toOption] using h
    exact Path.toText_of_parse hp

theorem initial_of_owned? {owner : Path} {name relationName : String} {relation : Relation}
    {typeName : Option String} {members : List ScalarDeclaration} {a : DeclaredAggregate}
    {e : Edge Path Relation}
    (ha : a ∈ (owned? owner name relationName relation typeName members).toList)
    (he : a.edge? = some e) : e.initial = owner := by
  rw [(eq_of_owned? (Option.mem_toList.1 ha)).2] at he
  exact Option.some.inj he ▸ rfl

/-- Every edge of a declaration leaves the owner that it names. -/
theorem owner?_of_mem_edges {registry : TypeRegistry} {x : Declaration} {e : Edge Path Relation}
    (he : e ∈ (registry.resolution x).edges) : x.owner? = some e.initial.toText := by
  rw [(TypeRegistry.resolution_eq x).2, List.mem_append, List.mem_filterMap,
    Option.mem_toList] at he
  rcases he with ⟨a, ha, he⟩ | he
  · cases x with
    | aggregate path typeName members =>
      obtain ⟨p, _, rfl⟩ := List.mem_map.1 ha
      cases he
    | child name owner isKey typeName members =>
      obtain ⟨o, ho, ha⟩ := List.mem_flatMap.1 ha
      rw [owner?, initial_of_owned? ha he, toText_of_mem_parse ho]
    | children name owner typeName members =>
      obtain ⟨o, ho, ha⟩ := List.mem_flatMap.1 ha
      rw [owner?, initial_of_owned? ha he, toText_of_mem_parse ho]
    | variation name owner isKey b variants =>
      obtain ⟨o, ho, ha⟩ := List.mem_flatMap.1 ha
      obtain ⟨v, _, ha⟩ := List.mem_flatMap.1 ha
      rw [owner?, initial_of_owned? ha he, toText_of_mem_parse ho]
    | reference => cases ha
  · cases x with
    | reference name owner target isKey isDisplayName =>
      rw [reference?] at he
      split at he
      · rename_i o t ho _
        obtain rfl := Option.some.inj he
        rw [owner?, toText_of_mem_parse (Option.mem_toList.2 ho)]
      · cases he
    | _ => cases he

end Declaration

namespace Draft

/-- The same declarations in an order that may differ, but not among those of one owner. -/
structure IsReordering (d e : Draft) : Prop where
  declarations : d.declarations.Perm e.declarations
  owned : ∀ owner : String, d.declarations.filter (·.owner? = some owner) =
    e.declarations.filter (·.owner? = some owner)
  enumerations : d.enumerations = e.enumerations

variable {d e : Draft} {base : TypeRegistry}

/-- The edges that leave an aggregate come from the declarations that name it as their owner. -/
theorem filter_edges_resolution (d : Draft) (base : TypeRegistry) (p : Path) :
    (d.resolution base).edges.filter (·.initial = p) =
      (d.declarations.filter (·.owner? = some p.toText)).flatMap fun x =>
        ((d.registry base).resolution x).edges.filter (·.initial = p) := by
  rw [resolution, Resolution.edges_concat, List.flatMap_map, List.filter_flatMap, ← flatMap_ite_nil]
  refine List.flatMap_congr fun x _ => ?_
  split
  · rfl
  · rename_i hx
    refine List.filter_eq_nil_iff.2 fun l hl hp => hx ?_
    rw [Declaration.owner?_of_mem_edges hl, of_decide_eq_true hp]
    exact decide_eq_true rfl

namespace IsReordering

theorem symm (h : d.IsReordering e) : e.IsReordering d :=
  ⟨h.declarations.symm, fun owner => (h.owned owner).symm, h.enumerations.symm⟩

theorem registry_eq (h : d.IsReordering e) : d.registry base = e.registry base := by
  rw [registry, registry, h.enumerations]

theorem aggregates_perm (h : d.IsReordering e) (base : TypeRegistry) :
    (d.resolution base).aggregates.Perm (e.resolution base).aggregates := by
  rw [resolution, resolution, Resolution.aggregates_concat, Resolution.aggregates_concat,
    h.registry_eq]
  exact (h.declarations.map _).flatMap_right _

theorem mem_edges_iff (h : d.IsReordering e) {l : Edge Path Relation} :
    l ∈ (d.resolution base).edges ↔ l ∈ (e.resolution base).edges := by
  simp only [mem_edges_resolution, h.declarations.mem_iff, h.registry_eq]

theorem filter_edges_eq (h : d.IsReordering e) (p : Path) :
    (d.resolution base).edges.filter (·.initial = p) =
      (e.resolution base).edges.filter (·.initial = p) := by
  rw [filter_edges_resolution, filter_edges_resolution, h.owned, h.registry_eq]

theorem declarationProblems_eq_nil (h : d.IsReordering e) (hd : d.declarationProblems base = []) :
    e.declarationProblems base = [] := by
  simp only [declarationProblems, List.append_eq_nil_iff, List.map_eq_nil_iff,
    repeats_eq_nil_iff] at hd ⊢
  obtain ⟨⟨henum, hprob⟩, hpaths⟩ := hd
  refine ⟨⟨h.enumerations ▸ henum, ?_⟩, ((h.aggregates_perm base).map _).nodup_iff.1 hpaths⟩
  rw [resolution, Resolution.problems_concat, List.flatMap_eq_nil_iff] at hprob ⊢
  rw [← h.registry_eq]
  exact fun r hr => hprob r ((h.declarations.map _).mem_iff.2 hr)

/-- Where nothing is wrong with the declarations, both drafts have a graph or none has. -/
theorem exists_graph (h : d.IsReordering e) (hd : d.declarationProblems base = [])
    {g : AggregateGraph} (hg : d.graph base = .ok g) :
    ∃ k, e.graph base = .ok k ∧ g.IsReordering k := by
  have hfirsts : ∀ {c : Draft}, c.declarationProblems base = [] →
      firsts Aggregate.path (c.resolution base).aggregates = (c.resolution base).aggregates := by
    intro c hc
    simp only [declarationProblems, List.append_eq_nil_iff, List.map_eq_nil_iff] at hc
    exact firsts_eq_self ((repeats_eq_nil_iff _ _).1 hc.2)
  have he := h.declarationProblems_eq_nil hd
  have hfind := Graph.find?_eq_of_perm (h.aggregates_perm base)
  obtain ⟨hp, hnodes, -⟩ := Graph.build_eq_ok hg
  rw [hfirsts hd] at hp hnodes
  obtain ⟨hnodup, hends⟩ := Graph.problems_eq_nil_iff.1 hp
  have hk : Graph.problems (firsts Aggregate.path (e.resolution base).aggregates)
      (e.resolution base).edges = [] := by
    rw [hfirsts he, Graph.problems_eq_nil_iff, ← hfind hnodup]
    exact ⟨((h.aggregates_perm base).map _).nodup_iff.1 hnodup,
      fun l hl => hends l (h.mem_edges_iff.2 hl)⟩
  obtain ⟨k, hk⟩ := Graph.exists_build hk
  refine ⟨k, hk, ?_, fun a => ?_⟩
  · rw [hnodes, (Graph.build_eq_ok hk).2.1, hfirsts he]
    exact h.aggregates_perm base
  · rw [Graph.outgoing_of_build hg, Graph.outgoing_of_build hk, hfirsts hd, hfirsts he,
      h.filter_edges_eq]
    refine congrArg (List.filterMap · _) (funext fun l => ?_)
    rw [Graph.resolve?, Graph.resolve?, hfind hnodup]

/-- If one draft resolves, so does the other, to the same graph but for its order. -/
theorem exists_resolve (h : d.IsReordering e) {s : Schema} (hs : d.resolve base = .ok s) :
    ∃ t, e.resolve base = .ok t ∧ s.graph.IsReordering t.graph := by
  obtain ⟨hd, hg⟩ := resolve_eq_ok hs
  obtain ⟨k, hk, hr⟩ := h.exists_graph hd hg
  obtain ⟨fs, hfs⟩ := hr.exists_entities (isForest hs) s.derived
  refine ⟨⟨k, fs, hfs⟩, ?_, hr⟩
  rw [resolve, h.declarationProblems_eq_nil hd]
  simp only [hk, List.isEmpty_nil, if_true]
  split
  · rename_i gs hgs
    obtain rfl : fs = gs := Except.ok.inj (hfs.symm.trans hgs)
    rfl
  · rename_i ps hps
    rw [hfs] at hps
    cases hps

end IsReordering

/-- Drafts that differ in the order of declarations of different owners both resolve or both do not,
and the schemas that they resolve to agree on everything that is derived from them. -/
theorem resolves_alike (h : d.IsReordering e) (base : TypeRegistry) :
    ((∃ s, d.resolve base = .ok s) ↔ ∃ t, e.resolve base = .ok t) ∧
      ∀ s t, d.resolve base = .ok s → e.resolve base = .ok t → s.SameModel t := by
  constructor
  · constructor
    · rintro ⟨s, hs⟩
      obtain ⟨t, ht, -⟩ := h.exists_resolve hs
      exact ⟨t, ht⟩
    · rintro ⟨t, ht⟩
      obtain ⟨s, hs, -⟩ := h.symm.exists_resolve ht
      exact ⟨s, hs⟩
  · intro s t hs ht
    obtain ⟨t', ht', hr⟩ := h.exists_resolve hs
    obtain rfl := Except.ok.inj (ht.symm.trans ht')
    exact Schema.sameModel_of_isReordering hr (isForest hs)

/-- What the orders own is declared before the orders. -/
def ordersLast : Draft where
  declarations := orders.declarations.drop 2 ++ orders.declarations.take 2
  enumerations := []

theorem resolves_alike_ordersLast : ∃ s t, orders.resolve .standard = .ok s ∧
    ordersLast.resolve .standard = .ok t ∧ s.SameModel t := by
  have h : orders.IsReordering ordersLast := by
    refine ⟨?_, fun owner => ?_, rfl⟩
    · exact (List.take_append_drop 2 orders.declarations).symm ▸ List.perm_append_comm
    · by_cases ho : owner = "/Order"
      · subst ho
        decide +kernel
      · simp [orders, ordersLast, Declaration.owner?, Ne.symm ho]
  have hsame := resolves_alike h .standard
  obtain ⟨s, hs, -⟩ := exists_ok_of_any (orders.resolve .standard)
    (fun _ => true) (by decide +kernel)
  obtain ⟨t, ht⟩ := hsame.1.1 ⟨s, hs⟩
  exact ⟨s, t, hs, ht, hsame.2 s t hs ht⟩

end Draft

end AggregateSchema
