import AggregateSchema.Failure
import AggregateSchema.Schema

/-! Rows of the tables of a schema. -/
namespace AggregateSchema

/-- A row; its values are sorted by column. -/
structure Row where
  path : Path
  table : String
  values : List (String × Json)

/-- The value of a column, or null for a column that the row does not have. -/
def Row.get (r : Row) (column : String) : Json := (r.values.lookup column).getD .null

namespace Schema

def entityOf (s : Schema) (a : Aggregate) : Except Failure Entity :=
  match s.entity? a.path with
  | some e => .ok e
  | none => .error (.unknownAggregate a.path)

/-- The root aggregate at a path, the only kind whose instances are stored by themselves. -/
def rootAt (s : Schema) (path : Path) : Except Failure Aggregate :=
  match s.node? path with
  | none => .error (.unknownAggregate path)
  | some a => if s.graph.isRoot a then .ok a else .error (.unmapped path.toText .notRoot)

end Schema

namespace Entity

/-- The entity's own columns that hold the key of a reference, each with the key column of the
target that it holds. -/
def referenceColumns (e : Entity) (reference : String) : List (Column × String) :=
  e.allColumns.filterMap fun c => match c.role with
    | .foreignKey name _ target =>
      if !c.inherited && name = reference then some (c, target) else none
    | _ => none

/-- The key columns that the entity has from its owner. -/
def inheritedKeys (e : Entity) : List Column := e.keys.filter (·.inherited)

end Entity

end AggregateSchema
