import AggregateSchema.Row

/-! Storing an instance: one row for the root, and one for every aggregate nested in it. -/
namespace AggregateSchema

/-- An object, or null for one without fields. -/
def expectObject (v : Json) (field : String) : Except Failure Json :=
  if v.isObject || v.isNull then .ok v else .error (.unmapped field (.expectedObject v))

namespace ScalarKind

/-- Whether a value other than null is of a kind. -/
def admits (kind : ScalarKind) (v : Json) : Bool :=
  match kind, v with
  | identifier, .string _ => true
  | word, .string _ => true
  | sentence, .string _ => true
  | date, .string _ => true
  | datetime, .string _ => true
  | integer, .integer _ => true
  | decimal, .integer _ => true
  | decimal, .float _ => true
  | boolean, .bool _ => true
  | enumeration e, v => (v.int64?.bind e.nameOf?).isSome
  | _, _ => false

end ScalarKind

/-- The value of a scalar, checked. -/
def Scalar.check (s : Scalar) (v : Json) (field : String) : Except Failure Json :=
  if v.isNull then
    if s.nullable then .ok .null else .error (.unmapped field .missingValue)
  else if s.kind.admits v then .ok v
  else .error (.unmapped field (.wrongKind v s.kind))

/-- The place of a member of an instance. -/
def inField (field name : String) : String := field ++ "." ++ name

/-- The place of an item of a list. -/
def atIndex (field : String) (index : Nat) : String := s!"{field}[{index}]"

/-- Where a nested instance is stored: the row of its owner, and its own position in a list. -/
structure Placement where
  owner? : Option (Entity × Row)
  position? : Option Nat

namespace Entity

/-- The key columns taken from the row of the owner, and the position. -/
def placementValues (e : Entity) (p : Placement) : List (String × Json) :=
  (match p.owner? with
    | none => []
    | some (owner, row) => e.inheritedKeys.map fun c =>
      (c.name, match owner.columnByOrigin? c.origin with
        | some k => row.get k.name
        | none => .null)) ++
    e.sequenceColumn?.toList.map fun c => (c.name, .ofNat (p.position?.getD 0))

/-- The key of a reference, as it is given in an instance. -/
def givenKey (given : Json) (name field : String) : Except Failure (Option Json) :=
  match given.getD name with
  | .null => .ok none
  | .object pair => .ok ((Json.object pair).get? "key")
  | other => .error (.unmapped field (.expectedPair other))

/-- The columns of a reference. A key part that may not be null has to be given. -/
def referenceValues (e : Entity) (given : Json) (name field : String) :
    Except Failure (List (String × Json)) := do
  let key ← givenKey given name field
  (e.referenceColumns name).mapM fun (c, target) =>
    let v := ((key.bind (·.get? target)).getD .null)
    if v.isNull && !c.nullable then .error (.unmapped field (.missingKey target))
    else .ok (c.name, v)

/-- The columns that one member of an instance is stored in. -/
def memberValues (e : Entity) (given : Json) (field : String) :
    Member → Except Failure (List (String × Json))
  | .scalar s => do
    return [(s.name, ← s.check (given.getD s.name) (inField field s.name))]
  | .variation v =>
    let tag := given.getD v.name
    if tag.isNull || v.variants.any (fun x => tag.int64? = some x.1) then .ok [(v.name, tag)]
    else .error (.unmapped (inField field v.name) (.undeclaredTag tag))
  | .reference l => e.referenceValues given l.name (inField field l.name)
  | .child _ => .ok []
  | .children _ => .ok []

end Entity

/-- The items of a list; null is the empty list. -/
def expectList (v : Json) (field : String) : Except Failure (List Json) :=
  match v with
  | .null => .ok []
  | .array items => .ok items
  | other => .error (.unmapped field (.expectedList other))

/-- The rows of what one member of an instance nests in it; `store` gives those of a nested instance,
which may have a position in a list. -/
def storeMember (store : Aggregate → Json → Option Nat → String → Except Failure (List Row))
    (given : Json) (field : String) : Member → Except Failure (List Row)
  | .scalar _ => .ok []
  | .reference _ => .ok []
  | .child l => do
    let field := inField field l.name
    store l.terminal (← expectObject (given.getD l.name) field) none field
  | .children l => do
    let items ← expectList (given.getD l.name) (inField field l.name)
    let blocks ← items.zipIdx.mapM fun (item, i) => do
      let field := atIndex (inField field l.name) i
      store l.terminal (← expectObject item field) (some i) field
    return blocks.flatten
  | .variation v => do
    let blocks ← v.variants.mapM fun (_, l) => do
      let name := variantFieldName v.name l.terminal.path
      let field := inField field name
      store l.terminal (← expectObject (given.getD name) field) none field
    return blocks.flatten

namespace Schema

/-- The rows of an instance of an aggregate: its own, and then those of what is nested in it, to at
most `levels` levels. -/
def rowsOf (s : Schema) : Nat → Aggregate → Json → Placement → String → Except Failure (List Row)
  | 0, a, _, _, _ => .error (.unknownAggregate a.path)
  | levels + 1, a, given, placement, field => do
    let e ← s.entityOf a
    let values ← (s.graph.members a).mapM (e.memberValues given field)
    let row : Row := ⟨a.path, e.table, (e.placementValues placement ++ values.flatten).foldl
      (fun sorted f => Json.insertField f.1 f.2 sorted) []⟩
    let nested ← (s.graph.members a).mapM (storeMember (fun target inner position? =>
      rowsOf s levels target inner ⟨some (e, row), position?⟩) given field)
    return row :: nested.flatten

/-- Stores an instance of the root aggregate at a path: the root row first, and every other row after
that of its owner. -/
def toRows (s : Schema) (root : Path) (given : Json) : Except Failure (List Row) := do
  let a ← s.rootAt root
  let inner ← expectObject given root.toText
  s.rowsOf s.graph.nodes.length a inner ⟨none, none⟩ root.baseName

end Schema

end AggregateSchema
