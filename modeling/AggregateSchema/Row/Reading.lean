import AggregateSchema.Row

/-! Restoring an instance from rows. -/
namespace AggregateSchema

namespace Row

/-- The position of a row in its list; one without a position comes last. -/
def position (r : Row) (column : String) : Int := ((r.get column).int64?).getD (int64Bound - 1)

end Row

namespace Entity

/-- Whether a row is nested in the given row of the owner: all inherited key columns agree. -/
def isNestedIn (e : Entity) (r : Row) (owner : Entity) (ownerRow : Row) : Bool :=
  e.inheritedKeys.all fun c => match owner.columnByOrigin? c.origin with
    | some k => (ownerRow.get k.name).same (r.get c.name)
    | none => false

/-- The rows of an entity that are nested in a row of its owner, in order of position. -/
def nestedRows (e : Entity) (rows : List Row) (owner : Entity) (ownerRow : Row) : List Row :=
  let matching := rows.filter fun r => r.path = e.path && e.isNestedIn r owner ownerRow
  match e.sequenceColumn? with
  | some c => matching.mergeSort fun r t => r.position c.name ≤ t.position c.name
  | none => matching

/-- The key of a reference with a place for its text, or null if no part of the key is given. -/
def restoreReference (e : Entity) (r : Row) (name : String) : Json :=
  let parts := (e.referenceColumns name).map fun (c, target) => (target, r.get c.name)
  if parts.all (·.2.isNull) then .null
  else .ofFields [("key", .ofFields parts), ("text", .null)]

end Entity

namespace Schema

/-- The rows of an owned aggregate that are nested in a row of its owner. -/
def nestedRows (s : Schema) (rows : List Row) (owner : Entity) (ownerRow : Row)
    (target : Aggregate) : Except Failure (List Row) := do
  return (← s.entityOf target).nestedRows rows owner ownerRow

/-- What the first of some rows stands for, or null if there is none. -/
def restoreFirst (restore : Row → Except Failure Json) : List Row → Except Failure Json
  | r :: _ => restore r
  | [] => .ok .null

/-- The fields of one member of an instance; `restore` gives what a nested row stands for. -/
def restoreMember (s : Schema) (rows : List Row) (restore : Aggregate → Row → Except Failure Json)
    (e : Entity) (row : Row) : Member → Except Failure (List (String × Json))
  | .scalar m => .ok [(m.name, row.get m.name)]
  | .child l => do
    return [(l.name, ← restoreFirst (restore l.terminal) (← s.nestedRows rows e row l.terminal))]
  | .children l => do
    let items ← (← s.nestedRows rows e row l.terminal).mapM (restore l.terminal)
    return [(l.name, .array items)]
  | .variation v => do
    let inner ← v.variants.mapM fun (_, l) => do
      let nested ← s.nestedRows rows e row l.terminal
      return (variantFieldName v.name l.terminal.path, ← restoreFirst (restore l.terminal) nested)
    return (v.name, row.get v.name) :: inner
  | .reference l => .ok [(l.name, e.restoreReference row l.name)]

/-- The instance of an aggregate that a row stands for, with what is nested in it to at most `levels`
levels. -/
def instanceOf (s : Schema) (rows : List Row) : Nat → Aggregate → Row → Except Failure Json
  | 0, a, _ => .error (.unknownAggregate a.path)
  | levels + 1, a, row => do
    let e ← s.entityOf a
    let fields ← (s.graph.members a).mapM (s.restoreMember rows (instanceOf s rows levels) e row)
    return .ofFields fields.flatten

/-- Restores an instance of the root aggregate at a path, which must have exactly one row. -/
def fromRows (s : Schema) (root : Path) (rows : List Row) : Except Failure Json := do
  let a ← s.rootAt root
  match rows.filter (·.path = root) with
  | [row] => s.instanceOf rows s.graph.nodes.length a row
  | _ => .error (.unmapped root.toText .notOneRootRow)

end Schema

end AggregateSchema
