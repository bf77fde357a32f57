import AggregateSchema.Graph
import Mathlib.Data.List.Count
import Mathlib.Data.List.Nodup

/-! Which nodes and edges form a graph, what is reported of those that form none, and how the edges
of a graph lie at its nodes. -/
namespace AggregateSchema

section Distinct
variable {α κ : Type} [DecidableEq κ]

theorem mem_map_repeatsAfter (key : α → κ) {seen : List κ} {xs : List α} {k : κ} :
    k ∈ (repeatsAfter key seen xs).map key ↔
      k ∈ xs.map key ∧ (k ∈ seen ∨ 2 ≤ (xs.map key).count k) := by
  induction xs generalizing seen with
  | nil => simp [repeatsAfter]
  | cons x xs ih =>
    rw [repeatsAfter, List.map_cons, List.mem_cons, List.count_cons]
    by_cases hk : k = key x
    · subst hk
      by_cases hx : key x ∈ seen
      · simp [hx]
      · rw [if_neg hx, ih]
        simp only [List.mem_cons, true_or, and_true, hx, false_or, beq_self_eq_true, if_true,
          true_and]
        rw [← List.count_pos_iff]
        omega
    · by_cases hx : key x ∈ seen
      · rw [if_pos hx, List.map_cons, List.mem_cons, ih]
        simp [hk, Ne.symm hk]
      · rw [if_neg hx, ih]
        simp [hk, Ne.symm hk]

/-- The keys of repetitions are those that several items have. -/
theorem mem_map_repeats (key : α → κ) {xs : List α} {k : κ} :
    k ∈ (repeats key xs).map key ↔ 2 ≤ (xs.map key).count k := by
  rw [repeats, mem_map_repeatsAfter]
  simp only [List.not_mem_nil, false_or, and_iff_right_iff_imp]
  exact fun h => List.count_pos_iff.1 (by omega)

/-- The items whose key no item before them has. -/
def firstOccurrences (key : α → κ) (xs : List α) : List α :=
  (xs.zipIdx.filter fun x => key x.1 ∉ (xs.take x.2).map key).map Prod.fst

theorem firsts_eq_firstOccurrences (key : α → κ) (xs : List α) :
    firsts key xs = firstOccurrences key xs := by
  -- the items before those that are left have the keys that were seen
  suffices ∀ before seen, (∀ k, k ∈ seen ↔ k ∈ before.map key) →
      firstsAfter key seen xs = ((xs.zipIdx before.length).filter fun x =>
        key x.1 ∉ ((before ++ xs).take x.2).map key).map Prod.fst from this [] [] (by simp)
  induction xs with
  | nil => exact fun _ _ _ => rfl
  | cons x xs ih =>
    intro before seen hs
    have hrest := ih (before ++ [x])
    rw [List.length_append, List.length_singleton, List.append_assoc,
      List.singleton_append] at hrest
    rw [firstsAfter, List.zipIdx_cons, List.filter_cons, List.take_left]
    by_cases hx : key x ∈ seen
    · rw [if_pos hx, if_neg (by simpa using (hs _).1 hx)]
      refine hrest seen fun k => ?_
      rw [hs, List.map_append, List.mem_append]
      exact ⟨Or.inl, fun h => h.elim id fun h => (hs k).1 (List.mem_singleton.1 h ▸ hx)⟩
    · rw [if_neg hx, if_pos (by simpa using mt (hs _).2 hx), List.map_cons]
      refine congrArg (x :: ·) (hrest _ fun k => ?_)
      rw [List.mem_cons, hs, List.map_append, List.mem_append, or_comm]
      exact or_congr_right List.mem_singleton.symm

end Distinct

namespace Graph

section Identities
variable {ν ι α : Type} [Identified ν ι] (g : Graph ν ι α)

/-- Nodes of one identity are one node. -/
theorem eq_of_id_eq {m n : ν} (hm : m ∈ g.nodes) (hn : n ∈ g.nodes)
    (h : Identified.id m = Identified.id n) : m = n :=
  List.inj_on_of_nodup_map g.distinct hm hn h

/-- Edges of one identity are one edge. -/
theorem eq_of_ends_eq {l m : Edge ν α} (hl : l ∈ g.edges) (hm : m ∈ g.edges)
    (h : l.ends = m.ends) : l = m :=
  List.inj_on_of_nodup_map g.separate hl hm h

/-- A node is found by its identity. -/
theorem node?_id [DecidableEq ι] {n : ν} (hn : n ∈ g.nodes) :
    g.node? (Identified.id n) = some n :=
  (find?_key_eq_some_iff Identified.id g.distinct).2 ⟨hn, rfl⟩

end Identities

variable {ν ι α : Type} [Identified ν ι] [DecidableEq ι]
variable {nodes : List ν} {edges : List (Edge ι α)}

theorem find?_eq_none_iff {i : ι} : find? nodes i = none ↔ i ∉ nodes.map Identified.id := by
  simp [find?]

/-- Nodes and edges form a graph exactly if identities are distinct and every end is a node. -/
theorem problems_eq_nil_iff : problems nodes edges = [] ↔ (nodes.map Identified.id).Nodup ∧
    ∀ e ∈ edges, find? nodes e.initial ≠ none ∧ find? nodes e.terminal ≠ none := by
  have hends : ∀ e : Edge ι α, missingEnds nodes e = [] ↔
      find? nodes e.initial ≠ none ∧ find? nodes e.terminal ≠ none := by
    intro e
    simp [missingEnds]
  rw [problems, List.append_eq_nil_iff, List.map_eq_nil_iff, repeats_eq_nil_iff,
    List.flatMap_eq_nil_iff]
  simp only [hends]
  refine and_congr_right fun _ => ⟨fun h e he => ?_, fun h e he => ?_⟩
  · obtain ⟨f, hf, hid⟩ := exists_mem_firsts Edge.identity he
    have := h f hf
    rw [Edge.identity, Edge.identity, Prod.mk.injEq, Prod.mk.injEq] at hid
    rwa [hid.1, hid.2.1] at this
  · exact h e ((firsts_sublist _ _).subset he)

theorem exists_build (h : problems nodes edges = []) : ∃ g, build nodes edges = .ok g := by
  unfold build
  split
  · exact ⟨_, rfl⟩
  · rename_i hp
    rw [h] at hp
    cases hp

theorem build_eq_error {ps : List (GraphProblem ι)} (h : build nodes edges = .error ps) :
    ps = problems nodes edges ∧ ps ≠ [] := by
  unfold build at h
  split at h
  · cases h
  · rename_i hp
    cases h
    exact ⟨hp.symm, by simp⟩

theorem exists_build_iff : (∃ g, build nodes edges = .ok g) ↔ problems nodes edges = [] :=
  ⟨fun ⟨_, h⟩ => (build_eq_ok h).1, exists_build⟩

/-- The edges that leave a node are those declared from it, of those of one identity the first. -/
theorem outgoing_of_build {g : Graph ν ι α} (h : build nodes edges = .ok g) (n : ν) :
    g.outgoing n = (firsts Edge.identity (edges.filter (·.initial = Identified.id n))).filterMap
      (resolve? nodes) := by
  obtain ⟨-, -, he⟩ := build_eq_ok h
  rw [outgoing, he, List.filter_filterMap, firsts_filter, List.filterMap_filter]
  · refine List.filterMap_congr fun e _ => ?_
    cases hl : resolve? nodes e with
    | none => simp
    | some l =>
      have hi := id_of_find? (resolve?_eq_some hl).1
      simp [Option.filter, hi]
  · exact fun e _ f _ hef => congrArg (fun i => decide (i.1 = Identified.id n)) hef

/-- What can be wrong with nodes and edges: several nodes have one identity, or an end of an edge is
no node. -/
inductive IsProblem (nodes : List ν) (edges : List (Edge ι α)) : GraphProblem ι → Prop
  | repeatedNode {i : ι} (h : 2 ≤ (nodes.map Identified.id).count i) :
    IsProblem nodes edges (.repeatedNode i)
  | missingNode {e : Edge ι α} {i : ι} (he : e ∈ edges) (hi : i = e.initial ∨ i = e.terminal)
    (h : i ∉ nodes.map Identified.id) :
    IsProblem nodes edges (.missingNode e.initial e.terminal e.name i)

theorem mem_missingEnds {e : Edge ι α} {p : GraphProblem ι} : p ∈ missingEnds nodes e ↔
    ∃ i, (i = e.initial ∨ i = e.terminal) ∧ i ∉ nodes.map Identified.id ∧
      p = .missingNode e.initial e.terminal e.name i := by
  simp only [missingEnds, List.mem_map, List.mem_filter, Option.isNone_iff_eq_none,
    find?_eq_none_iff, List.mem_cons, List.not_mem_nil, or_false, and_assoc, eq_comm (a := p)]

/-- Everything that is wrong is found, also of edges that are left out as repetitions. -/
theorem mem_problems_iff {p : GraphProblem ι} :
    p ∈ problems nodes edges ↔ IsProblem nodes edges p := by
  rw [problems, List.mem_append, List.mem_flatMap]
  constructor
  · rintro (h | ⟨e, he, h⟩)
    · obtain ⟨n, hn, rfl⟩ := List.mem_map.1 h
      exact .repeatedNode ((mem_map_repeats _).1 (List.mem_map_of_mem hn))
    · obtain ⟨i, hi, hmissing, rfl⟩ := mem_missingEnds.1 h
      exact .missingNode ((firsts_sublist _ _).subset he) hi hmissing
  · rintro (h | ⟨he, hi, h⟩)
    · obtain ⟨n, hn, rfl⟩ := List.mem_map.1 ((mem_map_repeats _).2 h)
      exact Or.inl (List.mem_map_of_mem hn)
    · rename_i e i
      -- only the first edge of an identity is looked at, and it has the same ends
      obtain ⟨f, hf, hid⟩ := exists_mem_firsts Edge.identity he
      rw [Edge.identity, Edge.identity, Prod.mk.injEq, Prod.mk.injEq] at hid
      refine Or.inr ⟨f, hf, mem_missingEnds.2 ⟨i, ?_, h, ?_⟩⟩
      · rwa [hid.1, hid.2.1]
      · rw [hid.1, hid.2.1, hid.2.2]

/-- How the edges of a graph lie at its nodes: in the order in which they are declared, each once at
the node that it leaves and once at the node at which it arrives. -/
structure Incidence (g : Graph ν ι α) : Prop where
  outgoing : ∀ n ∈ g.nodes, (g.outgoing n).Sublist g.edges
  incoming : ∀ n ∈ g.nodes, (g.incoming n).Sublist g.edges
  leaves : ∀ e ∈ g.edges, ∀ n ∈ g.nodes, (g.outgoing n).countP (·.ends = e.ends) =
    if Identified.id n = Identified.id e.initial then 1 else 0
  arrives : ∀ e ∈ g.edges, ∀ n ∈ g.nodes, (g.incoming n).countP (·.ends = e.ends) =
    if Identified.id n = Identified.id e.terminal then 1 else 0

/-- Of the edges that pass a test an edge is one, or it does not pass. -/
theorem countP_filter_edges (g : Graph ν ι α) {e : Edge ν α} (he : e ∈ g.edges)
    (p : Edge ν α → Bool) :
    (g.edges.filter p).countP (·.ends = e.ends) = if p e = true then 1 else 0 := by
  have hself := filter_key_eq_singleton Edge.ends g.separate he
  rw [List.countP_eq_length_filter, List.filter_filter]
  simp only [Bool.and_comm _ (p _)]
  rw [← List.filter_filter, hself, List.filter_cons, List.filter_nil]
  split <;> rfl

theorem incidence (g : Graph ν ι α) : g.Incidence where
  outgoing _ _ := List.filter_sublist
  incoming _ _ := List.filter_sublist
  leaves e he n _ := by
    rw [outgoing, countP_filter_edges g he]
    exact if_congr (decide_eq_true_iff.trans eq_comm) rfl rfl
  arrives e he n _ := by
    rw [incoming, countP_filter_edges g he]
    exact if_congr (decide_eq_true_iff.trans eq_comm) rfl rfl

/-- What `build` does with nodes and edges: it makes a graph of them unless something is wrong, says
everything that is wrong, and a graph that it makes has all the nodes and every edge where it
belongs. -/
structure BuildsAllOrNothing [ToString ι] (nodes : List ν) (edges : List (Edge ι α)) : Prop where
  accepts : (∃ g, build nodes edges = .ok g) ↔ (nodes.map Identified.id).Nodup ∧
    ∀ e ∈ edges, e.initial ∈ nodes.map Identified.id ∧ e.terminal ∈ nodes.map Identified.id
  rejects : ∀ ps, build nodes edges = .error ps → ps ≠ [] ∧
    ∀ m, m ∈ (Report.ofList (ps.map GraphProblem.message)).messages ↔
      ∃ p, IsProblem nodes edges p ∧ p.message = m
  nodes_eq : ∀ g, build nodes edges = .ok g → g.nodes = nodes
  edges_eq : ∀ g, build nodes edges = .ok g →
    g.edges.map Edge.declared = firstOccurrences Edge.identity edges
  incident : ∀ g, build nodes edges = .ok g → g.Incidence

theorem buildsAllOrNothing [ToString ι] (nodes : List ν) (edges : List (Edge ι α)) :
    BuildsAllOrNothing nodes edges where
  accepts := by
    rw [exists_build_iff, problems_eq_nil_iff]
    simp only [ne_eq, find?_eq_none_iff, not_not]
  rejects ps h := by
    obtain ⟨rfl, hne⟩ := build_eq_error h
    refine ⟨hne, fun m => ?_⟩
    rw [Report.mem_ofList, List.mem_map]
    exact exists_congr fun p => and_congr_left fun _ => mem_problems_iff
  nodes_eq _ h := (build_eq_ok h).2.1
  edges_eq _ h := (map_declared_edges h).trans (firsts_eq_firstOccurrences _ _)
  incident g _ := g.incidence

/-- A loop, two edges between the same nodes and a repetition, which is left out. -/
example : (build ["a", "b"] [⟨"a", "a", "up", 0⟩, ⟨"a", "b", "up", 1⟩, ⟨"a", "b", "down", 2⟩,
      ⟨"a", "b", "up", 3⟩]).toOption.map (fun g =>
    [g.outgoing "a", g.incoming "a", g.incoming "b"].map (·.map (·.relation))) =
    some [[0, 1, 2], [0], [1, 2]] := by decide

end Graph

end AggregateSchema
