import AggregateSchema.Entity
import AggregateSchema.Member
import AggregateSchema.Text.SnakeCase

/-! The key columns of an aggregate: those of its owner, and then its own. Keys may refer to any other
aggregate, so that they are searched for depth first. -/
namespace AggregateSchema

namespace Column

/-- The column of a scalar member. -/
def ofScalar (table : String) (s : Scalar) : Column :=
  ⟨s.name, s.kind.columnType, s.nullable, ⟨table, s.name⟩, .value, false⟩

/-- The name of the position column. -/
def sequenceName : String := "seq"

/-- The position of an item in its list. -/
def sequence (table : String) : Column :=
  ⟨sequenceName, .integer, false, ⟨table, sequenceName⟩, .sequence, false⟩

/-- The tag of the variant chosen. -/
def discriminator (table : String) (v : VariationGroup) : Column :=
  ⟨v.name, .integer, true, ⟨table, v.name⟩, .discriminator, false⟩

/-- The column of a reference that holds one key column of its target. -/
def foreignKey (table : String) (l : Link) (nullable : Bool) (key : Column) : Column :=
  let name := l.name ++ "_" ++ key.name
  ⟨name, key.type, nullable, ⟨table, name⟩, .foreignKey l.name l.terminal.path key.name, false⟩

/-- A key column of an owner as it appears in what it owns. One that the owner introduced itself is
named after the owner's table; one that it inherited keeps its name. -/
def inherit (ownerTable : String) (c : Column) : Column :=
  { c with
    name := if c.inherited then c.name else Text.toSnakeCase ownerTable ++ "_" ++ c.name
    nullable := false
    inherited := true }

@[simp] theorem origin_inherit (t : String) (c : Column) : (inherit t c).origin = c.origin := rfl

@[simp] theorem inherited_inherit (t : String) (c : Column) : (inherit t c).inherited = true := rfl

end Column

/-- What the key of an aggregate is put together from. -/
structure KeyRule where
  aggregate : Aggregate
  owner? : Option Aggregate
  isRepeated : Bool
  members : List Member

namespace KeyRule
variable {m : Type → Type} [Monad m]

/-- The key columns that one member adds, where `keyOf` gives the key of an aggregate. -/
def memberKeys (keyOf : Aggregate → m (List Column)) (table : String) : Member → m (List Column)
  | .scalar s => pure (if s.isKey then [Column.ofScalar table s] else [])
  | .reference l =>
    if l.relation.isKeyReference then
      (·.map (Column.foreignKey table l false)) <$> keyOf l.terminal
    else pure []
  | _ => pure []

/-- The key columns that are the aggregate's own. An item of a list that has none is told apart by its
position. -/
def own (r : KeyRule) (keyOf : Aggregate → m (List Column)) : m (List Column) := do
  let parts ← r.members.mapM (memberKeys keyOf r.aggregate.typeName)
  if r.isRepeated && parts.flatten.isEmpty then return [Column.sequence r.aggregate.typeName]
  else return parts.flatten

/-- The key: what the owner's key becomes, and then the own columns, which are looked for first. -/
def key (r : KeyRule) (keyOf : Aggregate → m (List Column)) : m (List Column) := do
  let own ← r.own keyOf
  match r.owner? with
  | none => return own
  | some o => return (← keyOf o).map (Column.inherit o.typeName) ++ own

end KeyRule

/-- The keys found so far. -/
abbrev KeyMemo := List (Path × List Column)

/-- A search for keys. It keeps those that it found, also when it comes upon an aggregate whose key
depends on itself. -/
abbrev KeySearch := ExceptT Path (StateM KeyMemo)

namespace AggregateGraph

variable (g : AggregateGraph)

def keyRule (a : Aggregate) : KeyRule :=
  ⟨a, owner? g a, isRepeated g a, members g a⟩

/-- Searches for the key of an aggregate while those of the aggregates in `resolving` are searched for.
There are at most `left` others. -/
def findKey : Nat → List Path → Aggregate → KeySearch (List Column)
  | 0, _, a => throw a.path
  | left + 1, resolving, a => do
    match (← get).lookup a.path with
    | some key => return key
    | none =>
      if a.path ∈ resolving then throw a.path
      else
        let key ← (keyRule g a).key (findKey left (a.path :: resolving))
        modify ((a.path, key) :: ·)
        return key

/-- The key columns of an aggregate. -/
def keyOf (a : Aggregate) : KeySearch (List Column) := findKey g g.nodes.length [] a

end AggregateGraph

end AggregateSchema
