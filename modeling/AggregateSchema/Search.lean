import AggregateSchema.Row
import AggregateSchema.Text.Pattern

/-! Search queries: a statement that filters the instances of an aggregate by a condition. -/
namespace AggregateSchema

/-- A statement with the names of its result columns. -/
structure Query where
  statement : Statement
  columns : List String

/-- A condition on an aggregate or a part of it; null stands for none. -/
def Json.condition? (v : Json) (field : String) : Except Failure (Option Json) :=
  match v with
  | .null => .ok none
  | .object fields => .ok (some (.object fields))
  | _ => .error (.badCondition field .expectedObject)

/-- A field of a condition, unless it is null. -/
def conditionField (condition : Option Json) (name : String) : Option Json :=
  (condition.bind (·.get? name)).filter fun v => !v.isNull

namespace Clause

/-- A column under the name of a result column. -/
def selected (e : Entity) (column result : String) : Clause :=
  needAlias e fun t => .text s!"{t}.{column} AS {result}"

/-- A comparison of a column with a value. -/
def compared (e : Entity) (column operator : String) (value : Json) : Clause :=
  .parameter value fun p => needAlias e fun t => .text s!"{t}.{column} {operator} {p}"

/-- Whether a column contains a text, in either case. -/
def containing (e : Entity) (column : String) (pattern : Json) : Clause :=
  .parameter pattern fun p => needAlias e fun t =>
    .text s!"UPPER({t}.{column}) LIKE UPPER({p}) ESCAPE '\\'"

/-- Whether a column holds one of some tags. -/
def among (e : Entity) (column : String) (tags : List Int) : Clause :=
  needAlias e fun t =>
    .text (s!"{t}.{column} IN (" ++ String.intercalate ", " (tags.map toString) ++ ")")

end Clause

namespace Query

def liftStatement {α : Type} (r : Except StatementProblem α) : Except Failure α :=
  r.mapError .statement

def select (q : Query) (e : Entity) (column result : String) : Except Failure Query := do
  let s ← liftStatement (q.statement.select (.selected e column result))
  return ⟨s, q.columns ++ [result]⟩

def filter (q : Query) (clause : Clause) : Except Failure Query := do
  return { q with statement := ← liftStatement (q.statement.filter clause) }

/-- Adds a comparison, if there is a value to compare with. -/
def compare? (q : Query) (e : Entity) (column operator : String) (value : Option Json) :
    Except Failure Query :=
  match value with
  | some v => q.filter (.compared e column operator v)
  | none => .ok q

/-- The value of the item of an enumeration that a condition names. -/
def item? (e : Enumeration) : Json → Option Int
  | .string name => e.valueOf? name
  | v => v.int64?.filter fun n => (e.nameOf? n).isSome

/-- Filters by the condition on a scalar, in the style of its kind. -/
def filterScalar (q : Query) (e : Entity) (column : String) (kind : ScalarKind) (value : Json)
    (field : String) : Except Failure Query :=
  match kind.filterStyle with
  | .range =>
    if value.isObject then do
      let q ← q.compare? e column ">=" (conditionField (some value) "from")
      q.compare? e column "<=" (conditionField (some value) "to")
    else .error (.badCondition field .expectedRange)
  | .select => match kind with
    | .enumeration definition => match item? definition value with
      | some n => q.filter (.compared e column "=" (.integer n))
      | none => .error (.badCondition field (.noItem value definition.name))
    | _ => .ok q
  | .freeText => match value with
    | .string text =>
      let trimmed := Text.trimChars text.toList
      if trimmed.isEmpty then .ok q
      else q.filter (.containing e column (.string (String.ofList (Text.containsPattern trimmed))))
    | _ => .error (.badCondition field .expectedText)
  | .exact => match value with
    | .bool b => q.filter (.compared e column "=" (.bool b))
    | _ => .error (.badCondition field .expectedBoolean)

def scalar (q : Query) (e : Entity) (s : Scalar) (value : Option Json) (front field : String) :
    Except Failure Query :=
  match e.columnByOrigin? ⟨e.table, s.name⟩ with
  | none => .error (.unmapped field .noColumn)
  | some c => do
    let q ← q.select e c.name (front ++ s.name)
    match value with
    | some v => q.filterScalar e c.name s.kind v field
    | none => return q

/-- Whether a variant is wanted; one that the condition does not mention is. -/
def isWanted (condition : Option Json) (field toggle : String) : Except Failure Bool :=
  match conditionField condition toggle with
  | none => .ok true
  | some (.bool b) => .ok b
  | some _ => .error (.badCondition (field ++ "." ++ toggle) .expectedBoolean)

/-- Filters by the variants wanted, if they are neither none nor all. -/
def variation (q : Query) (e : Entity) (v : VariationGroup) (condition : Option Json)
    (front field : String) : Except Failure Query := do
  let q ← q.select e v.name (front ++ v.name)
  let wanted ← v.variants.filterM fun x =>
    isWanted condition field (variantFieldName v.name x.2.terminal.path)
  if wanted.isEmpty || wanted.length = v.variants.length then return q
  else q.filter (.among e v.name (wanted.map (·.1)))

/-- Filters by the parts of a key that the condition gives. -/
def reference (q : Query) (e : Entity) (name : String) (value : Json) (field : String) :
    Except Failure Query :=
  if !value.isObject then .error (.badCondition field .expectedPair)
  else match conditionField (some value) "key" with
    | none => .ok q
    | some (.object key) => (e.referenceColumns name).foldlM (fun q (c, target) =>
        q.compare? e c.name "=" (conditionField (some (.object key)) target)) q
    | some _ => .error (.badCondition field .expectedKey)

/-- What stands before the names of result columns under a chain of children. -/
def resultFront (children : List String) : String :=
  if children.isEmpty then "" else String.intercalate "_" children ++ "_"

/-- Adds the members of an aggregate, and those of its children to at most `levels` levels. The names
from the aggregate where the search began are `children`. -/
def contribute (schema : Schema) : Nat → Query → Aggregate → Entity → Option Json →
    List String → String → Except Failure Query
  | 0, _, a, _, _, _, _ => .error (.unknownAggregate a.path)
  | levels + 1, q, a, e, condition, children, field =>
    (schema.graph.members a).foldlM (fun q m => do
      let value := conditionField condition m.name
      let front := resultFront children
      let inner := field ++ "." ++ m.name
      match m with
      | .scalar s => q.scalar e s value front inner
      | .child l =>
        let target ← schema.entityOf l.terminal
        let s ← liftStatement (q.statement.leftJoin target)
        let nested ← (value.getD .null).condition? inner
        contribute schema levels { q with statement := s } l.terminal target nested
          (children ++ [l.name]) inner
      | .children _ => return q
      | .variation v => q.variation e v condition front field
      | .reference _ => match value with
        | some v => q.reference e m.name v inner
        | none => return q) q

/-- The search for the instances of the aggregate at a path that meet a condition, in order of their
key. -/
def build (schema : Schema) (root : Path) (condition : Json) : Except Failure Query := do
  let a ← match schema.node? root with
    | some a => .ok a
    | none => .error (.unknownAggregate root)
  let e ← schema.entityOf a
  let condition ← condition.condition? a.typeName
  let s ← liftStatement (Statement.empty.setFrom e)
  let q ← contribute schema schema.graph.nodes.length ⟨s, []⟩ a e condition [] a.typeName
  let s ← liftStatement (e.keys.foldlM (fun s k => s.orderBy e k.name .ascending) q.statement)
  return { q with statement := s }

/-- The text of the query. -/
def text (q : Query) : Except Failure String := liftStatement q.statement.render

end Query

end AggregateSchema
