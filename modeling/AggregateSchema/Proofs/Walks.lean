import AggregateSchema.Graph.Visit
import AggregateSchema.Proofs.GraphBuilding
import Mathlib.Logic.Function.Basic

/-! Walks along the edges of a graph, in either direction: the edges that are remembered lead from
where a walk began to where it is. -/
namespace AggregateSchema

/-- Whether an edge leads from the one node to the other, along it or against it. -/
def Edge.Joins {ν α : Type} (e : Edge ν α) (m n : ν) : Prop :=
  e.initial = m ∧ e.terminal = n ∨ e.initial = n ∧ e.terminal = m

namespace Graph

section Connected
variable {ν ι α : Type} [Identified ν ι] (g : Graph ν ι α)

/-- A connected walk along edges of the graph: each edge joins the node before it to the node after
it, and these differ. -/
structure IsWalk (stops : Nat → ν) (start : ν) (trail : List (Edge ν α)) (current : ν) : Prop where
  starts : stops 0 = start
  ends : stops trail.length = current
  nodes : ∀ j ≤ trail.length, stops j ∈ g.nodes
  edges : ∀ e ∈ trail, e ∈ g.edges
  joins : ∀ j (h : j < trail.length), trail[j].Joins (stops j) (stops (j + 1))
  differ : ∀ j < trail.length, stops j ≠ stops (j + 1)

variable {g}

theorem IsWalk.nil {n : ν} (h : n ∈ g.nodes) : g.IsWalk (fun _ => n) n [] n where
  starts := rfl
  ends := rfl
  nodes _ _ := h
  edges := by simp
  joins j h := absurd h (Nat.not_lt_zero j)
  differ j h := absurd h (Nat.not_lt_zero j)

/-- A walk goes on along an edge that joins its last node to another one. -/
theorem IsWalk.concat {stops : Nat → ν} {start m n : ν} {trail : List (Edge ν α)} {e : Edge ν α}
    (h : g.IsWalk stops start trail m) (he : e ∈ g.edges) (hj : e.Joins m n) (hn : n ∈ g.nodes)
    (hne : m ≠ n) :
    g.IsWalk (Function.update stops (trail.length + 1) n) start (trail ++ [e]) n := by
  have hbefore : ∀ j ≤ trail.length, Function.update stops (trail.length + 1) n j = stops j :=
    fun j hj => Function.update_of_ne (by omega) ..
  have hlast : Function.update stops (trail.length + 1) n (trail.length + 1) = n :=
    Function.update_self ..
  have hlen : (trail ++ [e]).length = trail.length + 1 := by simp
  constructor
  case starts => rw [hbefore 0 (Nat.zero_le _), h.starts]
  case ends => rw [hlen, hlast]
  case nodes =>
    intro j hj
    rcases Nat.le_succ_iff.1 (hlen ▸ hj) with hj | rfl
    · rw [hbefore j hj]
      exact h.nodes j hj
    · rwa [hlast]
  case edges =>
    intro f hf
    rcases List.mem_append.1 hf with hf | hf
    · exact h.edges f hf
    · rwa [List.mem_singleton.1 hf]
  case joins =>
    intro j hlt
    rcases Nat.lt_succ_iff_lt_or_eq.1 (hlen ▸ hlt) with hlt | rfl
    · rw [List.getElem_append_left hlt, hbefore j (Nat.le_of_lt hlt), hbefore (j + 1) hlt]
      exact h.joins j hlt
    · rw [List.getElem_concat_length rfl, hbefore _ (Nat.le_refl _), hlast, h.ends]
      exact hj
  case differ =>
    intro j hlt
    rcases Nat.lt_succ_iff_lt_or_eq.1 (hlen ▸ hlt) with hlt | rfl
    · rw [hbefore j (Nat.le_of_lt hlt), hbefore (j + 1) hlt]
      exact h.differ j hlt
    · rwa [hbefore _ (Nat.le_refl _), hlast, h.ends]

theorem IsWalk.current_mem {stops : Nat → ν} {start current : ν} {trail : List (Edge ν α)}
    (h : g.IsWalk stops start trail current) : current ∈ g.nodes :=
  h.ends ▸ h.nodes _ (Nat.le_refl _)

end Connected

end Graph

/-- One step of a walk: takes an edge, by its place among those that leave the current node or among
those that arrive there, and goes to one of its ends. -/
structure Step where
  leaving : Bool
  place : Nat
  toTerminal : Bool

namespace Graph
variable {ν ι α : Type} [Identified ν ι] [DecidableEq ι] (g : Graph ν ι α)

/-- The visit after a step. Where there is no edge at the place the walk stays. -/
def step (v : Visit ν α) (s : Step) : Visit ν α :=
  match (if s.leaving then g.outgoing v.node else g.incoming v.node)[s.place]? with
  | some e => if s.toTerminal then v.toTerminal e else v.toInitial e
  | none => v

/-- The visit after all steps. -/
def walk (v : Visit ν α) (steps : List Step) : Visit ν α := steps.foldl g.step v

/-- The number of steps that end on a node other than the one on which they begin. -/
def moves (v : Visit ν α) : List Step → Nat
  | [] => 0
  | s :: steps =>
    (if Identified.id (g.step v s).node = Identified.id v.node then 0 else 1) +
      moves (g.step v s) steps

variable {g}

/-- A step takes an edge at the current node and goes to one of its ends, or there is no edge to
take. -/
theorem step_cases (v : Visit ν α) (s : Step) : g.step v s = v ∨
    ∃ e ∈ g.edges, ∃ n, g.step v s = v.moveTo e n ∧ (n = e.initial ∨ n = e.terminal) ∧
      (Identified.id e.initial = Identified.id v.node ∨
        Identified.id e.terminal = Identified.id v.node) := by
  unfold step
  cases h : (if s.leaving then g.outgoing v.node else g.incoming v.node)[s.place]? with
  | none => exact Or.inl rfl
  | some e =>
    have hat : e ∈ g.edges ∧ (Identified.id e.initial = Identified.id v.node ∨
        Identified.id e.terminal = Identified.id v.node) := by
      have he := List.mem_of_getElem? h
      split at he
      · exact (g.mem_outgoing.1 he).imp_right Or.inl
      · exact (g.mem_incoming.1 he).imp_right Or.inr
    refine Or.inr ⟨e, hat.1, if s.toTerminal then e.terminal else e.initial, ?_, ?_, hat.2⟩
    · cases s.toTerminal <;> rfl
    · cases s.toTerminal
      · exact Or.inl rfl
      · exact Or.inr rfl

/-- A step keeps the walk connected, and remembers an edge exactly if it leads to another node. -/
theorem IsWalk.step {stops : Nat → ν} {start : ν} {v : Visit ν α}
    (h : g.IsWalk stops start v.trail v.node) (s : Step) :
    (∃ stops, g.IsWalk stops start (g.step v s).trail (g.step v s).node) ∧
      (g.step v s).trail.length = v.trail.length +
        if Identified.id (g.step v s).node = Identified.id v.node then 0 else 1 := by
  rcases step_cases v s with hs | ⟨e, he, n, hs, hend, hat⟩
  · rw [hs, if_pos rfl]
    exact ⟨⟨stops, h⟩, rfl⟩
  obtain ⟨hi, ht⟩ := g.closed e he
  have hn : n ∈ g.nodes := by
    rcases hend with rfl | rfl
    · exact hi
    · exact ht
  rw [hs, Visit.node_moveTo, Visit.trail_moveTo]
  -- the end is compared with the current node, not with the side on which the edge was found
  by_cases hsame : Identified.id n = Identified.id v.node
  · rw [if_pos hsame, if_pos hsame, g.eq_of_id_eq hn h.current_mem hsame]
    exact ⟨⟨stops, h⟩, rfl⟩
  · rw [if_neg hsame, if_neg hsame, List.length_append, List.length_singleton]
    have hjoins : e.Joins v.node n := by
      rcases hat with hat | hat <;> rcases hend with rfl | rfl
      · exact absurd hat hsame
      · exact Or.inl ⟨g.eq_of_id_eq hi h.current_mem hat, rfl⟩
      · exact Or.inr ⟨rfl, g.eq_of_id_eq ht h.current_mem hat⟩
      · exact absurd hat hsame
    exact ⟨⟨_, h.concat he hjoins hn fun heq => hsame (heq ▸ rfl)⟩, rfl⟩

/-- What a walk adds to one that is connected. -/
theorem IsWalk.walk {stops : Nat → ν} {start : ν} {v : Visit ν α}
    (h : g.IsWalk stops start v.trail v.node) (steps : List Step) :
    (∃ stops, g.IsWalk stops start (g.walk v steps).trail (g.walk v steps).node) ∧
      (g.walk v steps).trail.length = v.trail.length + g.moves v steps := by
  induction steps generalizing v stops with
  | nil => exact ⟨⟨stops, h⟩, rfl⟩
  | cons s steps ih =>
    obtain ⟨⟨stops, hs⟩, hlen⟩ := h.step s
    obtain ⟨hw, hrest⟩ := ih hs
    exact ⟨hw, by rw [moves, ← Nat.add_assoc, ← hlen]; exact hrest⟩

/-- Wherever steps lead, the edges remembered are a connected walk from the node where they began, as
long as the number of steps that led to another node. -/
theorem isWalk_walk {start : ν} (h : start ∈ g.nodes) (steps : List Step) :
    (∃ stops, g.IsWalk stops start (g.walk (.start start) steps).trail
      (g.walk (.start start) steps).node) ∧
      (g.walk (.start start) steps).trail.length = g.moves (.start start) steps := by
  obtain ⟨hw, hlen⟩ := (IsWalk.nil h).walk (v := .start start) steps
  exact ⟨hw, by simpa [Visit.start] using hlen⟩

/-- Two nodes with a loop and two edges between them. -/
def loopAndParallels : Graph String String Nat where
  nodes := ["a", "b"]
  edges := [⟨"a", "a", "loop", 0⟩, ⟨"a", "b", "up", 1⟩, ⟨"a", "b", "down", 2⟩]
  distinct := by decide
  separate := by decide
  closed := by decide

/-- Up, back down another edge, round the loop, and to the near end of an edge. -/
def roundTrip : List Step := [⟨true, 1, true⟩, ⟨false, 1, false⟩, ⟨true, 0, true⟩, ⟨true, 2, false⟩]

theorem isWalk_walk_roundTrip :
    (loopAndParallels.walk (.start "a") roundTrip).names = ["up", "down"] ∧
      (∃ stops, loopAndParallels.IsWalk stops "a"
        (loopAndParallels.walk (.start "a") roundTrip).trail
        (loopAndParallels.walk (.start "a") roundTrip).node) ∧
      (loopAndParallels.walk (.start "a") roundTrip).trail.length = 2 := by
  have hstart : "a" ∈ loopAndParallels.nodes := by decide
  obtain ⟨hw, hlen⟩ := isWalk_walk hstart roundTrip
  exact ⟨by decide, hw, hlen.trans (by decide)⟩

end Graph

end AggregateSchema
