import AggregateSchema.Distinct
import AggregateSchema.Report

/-! Directed graphs. A graph is built only from nodes and edges that fit together. -/
namespace AggregateSchema

/-- Nodes of type `ν` are told apart by an identity of type `ι`. -/
class Identified (ν : Type) (ι : outParam Type) where
  id : ν → ι

/-- Names identify themselves. -/
instance : Identified String String := ⟨fun s => s⟩

/-- A named edge. Its ends are identities while it is declared, and the nodes themselves in a
graph. -/
structure Edge (ε α : Type) where
  initial : ε
  terminal : ε
  name : String
  relation : α

/-- Why nodes and edges form no graph. -/
inductive GraphProblem (ι : Type) where
  | repeatedNode (id : ι)
  | missingNode (initial terminal : ι) (name : String) (missing : ι)

def GraphProblem.message {ι : Type} [ToString ι] : GraphProblem ι → String
  | repeatedNode id => s!"Node '{id}' is declared more than once."
  | missingNode initial terminal name missing =>
    s!"Edge '{name}' from '{initial}' to '{terminal}' refers to node '{missing}', which does not exist."

/-- The report on nodes and edges that were taken for a graph. -/
def GraphProblem.abortText {ι : Type} [ToString ι] (problems : List (GraphProblem ι)) : String :=
  "error while creating a directed graph:\n" ++ (Report.ofList (problems.map message)).text

/-- What tells two edges apart; the relation does not count. -/
def Edge.identity {ι α : Type} (e : Edge ι α) : ι × ι × String := (e.initial, e.terminal, e.name)

/-- The identity of an edge between nodes. -/
def Edge.ends {ν ι α : Type} [Identified ν ι] (e : Edge ν α) : ι × ι × String :=
  (Identified.id e.initial, Identified.id e.terminal, e.name)

/-- The edge between the identities of its nodes. -/
def Edge.declared {ν ι α : Type} [Identified ν ι] (e : Edge ν α) : Edge ι α :=
  ⟨Identified.id e.initial, Identified.id e.terminal, e.name, e.relation⟩

/-- Nodes of distinct identities, and edges of distinct identities between them. -/
structure Graph (ν ι α : Type) [Identified ν ι] where
  nodes : List ν
  edges : List (Edge ν α)
  distinct : (nodes.map Identified.id).Nodup
  separate : (edges.map Edge.ends).Nodup
  closed : ∀ e ∈ edges, e.initial ∈ nodes ∧ e.terminal ∈ nodes

namespace Graph

variable {ν ι α : Type} [Identified ν ι] [DecidableEq ι]

def find? (nodes : List ν) (id : ι) : Option ν := nodes.find? fun n => Identified.id n = id

theorem id_of_find? {nodes : List ν} {id : ι} {n : ν} (h : find? nodes id = some n) :
    Identified.id n = id := by
  simpa using List.find?_some h

theorem mem_of_find? {nodes : List ν} {id : ι} {n : ν} (h : find? nodes id = some n) :
    n ∈ nodes := List.mem_of_find?_eq_some h

/-- The edge between the nodes that it names. -/
def resolve? (nodes : List ν) (e : Edge ι α) : Option (Edge ν α) := do
  return ⟨← find? nodes e.initial, ← find? nodes e.terminal, e.name, e.relation⟩

theorem resolve?_eq_some {nodes : List ν} {e : Edge ι α} {l : Edge ν α}
    (h : resolve? nodes e = some l) :
    find? nodes e.initial = some l.initial ∧ find? nodes e.terminal = some l.terminal ∧
      l.name = e.name ∧ l.relation = e.relation := by
  simp only [resolve?, Option.bind_eq_bind, Option.bind_eq_some_iff, Option.pure_def,
    Option.some.injEq] at h
  obtain ⟨i, hi, t, ht, rfl⟩ := h
  exact ⟨hi, ht, rfl, rfl⟩

theorem declared_of_resolve? {nodes : List ν} {e : Edge ι α} {l : Edge ν α}
    (h : resolve? nodes e = some l) : l.declared = e := by
  obtain ⟨hi, ht, hn, hr⟩ := resolve?_eq_some h
  cases e
  simp_all [Edge.declared, id_of_find? hi, id_of_find? ht]

theorem ends_of_resolve? {nodes : List ν} {e : Edge ι α} {l : Edge ν α}
    (h : resolve? nodes e = some l) : l.ends = e.identity := by
  obtain ⟨hi, ht, hn, _⟩ := resolve?_eq_some h
  simp [Edge.ends, Edge.identity, id_of_find? hi, id_of_find? ht, hn]

/-- The ends of an edge that are no nodes, the initial one first. -/
def missingEnds (nodes : List ν) (e : Edge ι α) : List (GraphProblem ι) :=
  ([e.initial, e.terminal].filter fun id => (find? nodes id).isNone).map
    (.missingNode e.initial e.terminal e.name)

/-- Everything that keeps nodes and edges from forming a graph. -/
def problems (nodes : List ν) (edges : List (Edge ι α)) : List (GraphProblem ι) :=
  (repeats Identified.id nodes).map (fun n => .repeatedNode (Identified.id n)) ++
    (firsts Edge.identity edges).flatMap (missingEnds nodes)

/-- The graph of the given nodes and edges. Of edges with one identity the first counts. -/
def build (nodes : List ν) (edges : List (Edge ι α)) :
    Except (List (GraphProblem ι)) (Graph ν ι α) :=
  match h : problems nodes edges with
  | [] => .ok {
      nodes
      edges := (firsts Edge.identity edges).filterMap (resolve? nodes)
      distinct := by
        rw [← repeats_eq_nil_iff]
        simp only [problems, List.append_eq_nil_iff, List.map_eq_nil_iff] at h
        exact h.1
      separate := by
        have hn := nodup_map_firsts Edge.identity edges
        refine List.Sublist.nodup ?_ hn
        generalize firsts Edge.identity edges = es
        induction es with
        | nil => simp
        | cons e es ih =>
          rw [List.filterMap_cons]
          split
          · exact ih.cons _
          · rename_i l hl
            rw [List.map_cons, List.map_cons, ends_of_resolve? hl]
            exact ih.cons_cons _
      closed := fun l hl => by
        obtain ⟨e, _, he⟩ := List.mem_filterMap.1 hl
        obtain ⟨hi, ht, _⟩ := resolve?_eq_some he
        exact ⟨mem_of_find? hi, mem_of_find? ht⟩ }
  | p :: ps => .error (p :: ps)

theorem build_eq_ok {nodes : List ν} {edges : List (Edge ι α)} {g : Graph ν ι α}
    (h : build nodes edges = .ok g) :
    problems nodes edges = [] ∧ g.nodes = nodes ∧
      g.edges = (firsts Edge.identity edges).filterMap (resolve? nodes) := by
  unfold build at h
  split at h
  · rename_i hp
    cases h
    exact ⟨hp, rfl, rfl⟩
  · cases h

theorem exists_resolve? {nodes : List ν} {e : Edge ι α} (h : missingEnds nodes e = []) :
    ∃ l, resolve? nodes e = some l := by
  simp only [missingEnds, List.map_eq_nil_iff, List.filter_eq_nil_iff, List.mem_cons,
    List.not_mem_nil, or_false, Option.isNone_iff_eq_none, forall_eq_or_imp, forall_eq] at h
  obtain ⟨i, hi⟩ := Option.ne_none_iff_exists'.1 h.1
  obtain ⟨t, ht⟩ := Option.ne_none_iff_exists'.1 h.2
  exact ⟨⟨i, t, e.name, e.relation⟩, by simp [resolve?, hi, ht]⟩

/-- The edges of a graph are the first declared edges of each identity, in order. -/
theorem map_declared_edges {nodes : List ν} {edges : List (Edge ι α)} {g : Graph ν ι α}
    (h : build nodes edges = .ok g) : g.edges.map Edge.declared = firsts Edge.identity edges := by
  obtain ⟨hp, _, he⟩ := build_eq_ok h
  simp only [problems, List.append_eq_nil_iff, List.flatMap_eq_nil_iff] at hp
  rw [he]
  have hm := hp.2
  generalize firsts Edge.identity edges = es at hm
  induction es with
  | nil => rfl
  | cons e es ih =>
    obtain ⟨l, hl⟩ := exists_resolve? (hm e List.mem_cons_self)
    rw [List.filterMap_cons_some hl, List.map_cons, declared_of_resolve? hl,
      ih fun x hx => hm x (List.mem_cons_of_mem _ hx)]

variable (g : Graph ν ι α)

def node? (id : ι) : Option ν := find? g.nodes id

/-- The edges that leave a node, in order of declaration. -/
def outgoing (n : ν) : List (Edge ν α) :=
  g.edges.filter fun e => Identified.id e.initial = Identified.id n

/-- The edges that arrive at a node, in order of declaration. -/
def incoming (n : ν) : List (Edge ν α) :=
  g.edges.filter fun e => Identified.id e.terminal = Identified.id n

theorem mem_outgoing {n : ν} {e : Edge ν α} :
    e ∈ g.outgoing n ↔ e ∈ g.edges ∧ Identified.id e.initial = Identified.id n := by
  simp [outgoing]

theorem mem_incoming {n : ν} {e : Edge ν α} :
    e ∈ g.incoming n ↔ e ∈ g.edges ∧ Identified.id e.terminal = Identified.id n := by
  simp [incoming]

end Graph

end AggregateSchema
