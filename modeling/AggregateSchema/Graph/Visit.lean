import AggregateSchema.Graph

/-! Walks through a graph that remember the edges taken. -/
namespace AggregateSchema

/-- A node together with the edges walked to it from where the walk began. -/
structure Visit (ν α : Type) where
  node : ν
  trail : List (Edge ν α)

namespace Visit

variable {ν ι α : Type} [Identified ν ι] [DecidableEq ι]

/-- The beginning of a walk. -/
def start (n : ν) : Visit ν α := ⟨n, []⟩

/-- Goes to one end of an edge at the current node. An end that is the current node itself is no
step. -/
def moveTo (v : Visit ν α) (e : Edge ν α) (n : ν) : Visit ν α :=
  if Identified.id n = Identified.id v.node then ⟨n, v.trail⟩ else ⟨n, v.trail ++ [e]⟩

def toInitial (v : Visit ν α) (e : Edge ν α) : Visit ν α := v.moveTo e e.initial

def toTerminal (v : Visit ν α) (e : Edge ν α) : Visit ν α := v.moveTo e e.terminal

/-- The edge taken last. -/
def source? (v : Visit ν α) : Option (Edge ν α) := v.trail.getLast?

/-- The names of the edges taken. -/
def names (v : Visit ν α) : List String := v.trail.map (·.name)

@[simp] theorem node_moveTo (v : Visit ν α) (e : Edge ν α) (n : ν) : (v.moveTo e n).node = n := by
  unfold moveTo
  split <;> rfl

theorem trail_moveTo (v : Visit ν α) (e : Edge ν α) (n : ν) :
    (v.moveTo e n).trail =
      if Identified.id n = Identified.id v.node then v.trail else v.trail ++ [e] := by
  unfold moveTo
  split <;> rfl

end Visit

end AggregateSchema
