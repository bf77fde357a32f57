import AggregateSchema.Member

/-! What a user sees of an aggregate: the form of a search condition, a row of search results, and an
instance in detail. -/
namespace AggregateSchema

inductive FieldKind where
  | value (kind : ScalarKind) (nullable : Bool)
  /-- Two bounds. -/
  | range (kind : ScalarKind)
  /-- One item of an enumeration. -/
  | select (enumeration : Enumeration)
  /-- A text to be found inside another. -/
  | text
  | toggle
  | nested (path : Path)
  | nestedList (path : Path)
  /-- The key of another aggregate with a text that shows it. -/
  | keyAndText (target : Path)
  | displayText
  /-- The tag of the variant chosen. -/
  | discriminator
  deriving DecidableEq

structure ViewField where
  name : String
  kind : FieldKind
  default? : Option String
  deriving DecidableEq

/-- An ordered list of fields under a name. -/
structure Projection where
  name : String
  fields : List ViewField
  deriving DecidableEq

def Projection.field? (p : Projection) (name : String) : Option ViewField :=
  p.fields.find? (·.name = name)

structure Views where
  path : Path
  searchCondition : Projection
  searchResult : Projection
  detail : Projection
  deriving DecidableEq

/-- The field that belongs to one variant of a variation. -/
def variantFieldName (variation : String) (variant : Path) : String :=
  variation ++ "_" ++ variant.baseName

namespace AggregateGraph

variable (g : AggregateGraph)

/-- How a condition filters a scalar. -/
def conditionKind (kind : ScalarKind) : FieldKind :=
  match kind.filterStyle, kind with
  | .range, k => .range k
  | .freeText, _ => .text
  | .select, .enumeration e => .select e
  | _, k => .value k true

def memberConditionFields : Member → List ViewField
  | .scalar s => [⟨s.name, conditionKind s.kind, none⟩]
  | .child l => [⟨l.name, .nested l.terminal.path, none⟩]
  | .children _ => []
  | .variation v => v.variants.map fun (_, l) =>
    ⟨variantFieldName v.name l.terminal.path, .toggle, some "true"⟩
  | .reference l => [⟨l.name, .keyAndText l.terminal.path, none⟩]

def conditionFields (a : Aggregate) : List ViewField := (members g a).flatMap memberConditionFields

/-- The fields of a result row, with those of children to at most `levels` levels under the name of
the child. -/
def resultFieldsWithin : Nat → Aggregate → List ViewField
  | 0, _ => []
  | levels + 1, a => (members g a).flatMap fun
    | .scalar s => [⟨s.name, .value s.kind s.nullable, none⟩]
    | .child l => (resultFieldsWithin levels l.terminal).map fun f =>
      { f with name := l.name ++ "_" ++ f.name }
    | .children _ => []
    | .variation v => [⟨v.name, .displayText, none⟩]
    | .reference l => [⟨l.name, .displayText, none⟩]

def resultFields (a : Aggregate) : List ViewField := resultFieldsWithin g g.nodes.length a

def memberDetailFields : Member → List ViewField
  | .scalar s => [⟨s.name, .value s.kind s.nullable, none⟩]
  | .child l => [⟨l.name, .nested l.terminal.path, none⟩]
  | .children l => [⟨l.name, .nestedList l.terminal.path, none⟩]
  | .variation v => ⟨v.name, .discriminator, none⟩ :: v.variants.map fun (_, l) =>
    ⟨variantFieldName v.name l.terminal.path, .nested l.terminal.path, none⟩
  | .reference l => [⟨l.name, .keyAndText l.terminal.path, none⟩]

def detailFields (a : Aggregate) : List ViewField := (members g a).flatMap memberDetailFields

def views (a : Aggregate) : Views where
  path := a.path
  searchCondition := ⟨a.typeName ++ "SearchCondition", conditionFields g a⟩
  searchResult := ⟨a.typeName ++ "SearchResult", resultFields g a⟩
  detail := ⟨a.typeName ++ "Instance", detailFields g a⟩

end AggregateGraph

end AggregateSchema
