import AggregateSchema.Graph.Visit
import AggregateSchema.Path
import AggregateSchema.ScalarKind

/-! Aggregates, the relations between them, and the hierarchy of ownership. -/
namespace AggregateSchema

/-- A scalar member. -/
structure Scalar where
  name : String
  kind : ScalarKind
  nullable : Bool
  isKey : Bool
  isDisplayName : Bool
  deriving DecidableEq, Repr

/-- An aggregate; its type name is also the name of its table. -/
structure Aggregate where
  path : Path
  typeName : String
  scalars : List Scalar
  deriving DecidableEq

instance : Identified Aggregate Path := ⟨Aggregate.path⟩

/-- How the initial aggregate of an edge is related to the terminal one: it owns it as a single
child, as the items of a list or as one tagged variant, or it refers to it. -/
inductive Relation where
  | child
  | children
  | variant (tag : Int)
  | reference (isKey isDisplayName : Bool)
  deriving DecidableEq, Repr

namespace Relation

def isOwnership : Relation → Bool
  | reference _ _ => false
  | _ => true

def isRepeated : Relation → Bool
  | children => true
  | _ => false

def isReference (r : Relation) : Bool := !r.isOwnership

/-- Whether the relation makes a key of its owner depend on the key of its target. -/
def isKeyReference : Relation → Bool
  | reference isKey _ => isKey
  | _ => false

end Relation

abbrev AggregateGraph := Graph Aggregate Path Relation

/-- An edge between two aggregates. -/
abbrev Link := Edge Aggregate Relation

/-- The variants of one discriminator, with their tags. -/
structure VariationGroup where
  name : String
  variants : List (Int × Link)

namespace AggregateGraph

variable (g : AggregateGraph)

/-- The edge from the owner of an aggregate. -/
def ownerLink? (a : Aggregate) : Option Link := (g.incoming a).find? (·.relation.isOwnership)

def owner? (a : Aggregate) : Option Aggregate := (g.ownerLink? a).map (·.initial)

def isRoot (a : Aggregate) : Bool := (g.ownerLink? a).isNone

/-- Whether an aggregate is an item of a list of its owner. -/
def isRepeated (a : Aggregate) : Bool :=
  match g.ownerLink? a with
  | some l => l.relation.isRepeated
  | none => false

/-- The owners of an aggregate, at most `height` of them, the nearest last. -/
def ownersWithin : Nat → Aggregate → List Aggregate
  | 0, _ => []
  | height + 1, a =>
    match g.owner? a with
    | some o => ownersWithin height o ++ [o]
    | none => []

/-- The owners of an aggregate, its root first. An owner's path is shorter by one name, so there are
no more of them than the depth of the path. -/
def ancestors (a : Aggregate) : List Aggregate := ownersWithin g a.path.depth a

def root (a : Aggregate) : Aggregate := (ancestors g a).head?.getD a

/-- The edges to the aggregates that an aggregate owns. -/
def ownedLinks (a : Aggregate) : List Link := (g.outgoing a).filter (·.relation.isOwnership)

def childLinks (a : Aggregate) : List Link := (g.outgoing a).filter (·.relation = .child)

def childrenLinks (a : Aggregate) : List Link := (g.outgoing a).filter (·.relation = .children)

def referenceLinks (a : Aggregate) : List Link := (g.outgoing a).filter (·.relation.isReference)

def referringLinks (a : Aggregate) : List Link := (g.incoming a).filter (·.relation.isReference)

/-- Adds a variant to the group of its name, or as a new group at the end. -/
def addVariant (name : String) (tag : Int) (l : Link) :
    List VariationGroup → List VariationGroup
  | [] => [⟨name, [(tag, l)]⟩]
  | v :: vs =>
    if v.name = name then { v with variants := v.variants ++ [(tag, l)] } :: vs
    else v :: addVariant name tag l vs

/-- The variants among some edges, grouped by name in order of first appearance. -/
def groupVariants (links : List Link) : List VariationGroup :=
  links.foldl (fun groups l => match l.relation with
    | .variant tag => addVariant l.name tag l groups
    | _ => groups) []

def variationGroups (a : Aggregate) : List VariationGroup := groupVariants (g.outgoing a)

/-- What an aggregate owns, down to at most `height` levels, each before what it owns itself. -/
def ownedWithin : Nat → Visit Aggregate Relation → List (Visit Aggregate Relation)
  | 0, _ => []
  | height + 1, v => (ownedLinks g v.node).flatMap fun l =>
    let w := v.toTerminal l
    w :: ownedWithin height w

/-- Everything that an aggregate owns, depth first in order of declaration. Paths grow from level to
level, so there are fewer levels than aggregates. -/
def descendants (v : Visit Aggregate Relation) : List (Visit Aggregate Relation) :=
  ownedWithin g g.nodes.length v

end AggregateGraph

end AggregateSchema
