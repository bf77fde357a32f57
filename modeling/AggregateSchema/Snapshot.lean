import AggregateSchema.Json.Text
import AggregateSchema.Schema

/-! The whole model of a schema as a JSON document. -/
namespace AggregateSchema

/-- The version of the document's format. -/
def snapshotVersion : String := "1.0"

/-- The version of this program. -/
def programVersion : String := "0.1.0"

/-- A path is written as its text. -/
def Path.toJson (p : Path) : Json := .string p.toText

def Scalar.toJson (s : Scalar) : Json := .object [
  ("name", .string s.name), ("kind", .string s.kind.name), ("nullable", .bool s.nullable),
  ("is_key", .bool s.isKey), ("is_display_name", .bool s.isDisplayName)]

namespace Relation

/-- The tag of a variant. -/
def tag? : Relation → Option Int
  | variant tag => some tag
  | _ => none

def fields : Relation → List (String × Json)
  | reference isKey isDisplayName => [("relation", .string "reference"),
    ("is_primary_key_link", .bool isKey), ("is_display_name", .bool isDisplayName)]
  | r => [("relation", .string "parent_child"), ("repeated", .bool r.isRepeated),
    ("variant", .ofInt? r.tag?)]

def toJson (r : Relation) : Json := .object r.fields

end Relation

def Origin.toJson (o : Origin) : Json :=
  .object [("table", .string o.table), ("column", .string o.column)]

def ColumnRole.fields : ColumnRole → List (String × Json)
  | value => [("role", .string "value")]
  | sequence => [("role", .string "sequence")]
  | discriminator => [("role", .string "discriminator")]
  | foreignKey reference target targetColumn => [("role", .string "foreign_key"),
    ("reference", .string reference), ("target", target.toJson),
    ("target_column", .string targetColumn)]

def Column.toJson (c : Column) : Json := .object (
  [("name", .string c.name), ("sql_type", .string c.type.name), ("nullable", .bool c.nullable),
    ("origin", c.origin.toJson)] ++ c.role.fields ++ [("inherited", .bool c.inherited)])

def NavigationKind.fields : NavigationKind → List (String × Json)
  | parent => [("kind", .string "parent")]
  | child => [("kind", .string "child")]
  | children => [("kind", .string "children")]
  | variant tag => [("kind", .string "variant"), ("tag", .integer tag)]
  | reference => [("kind", .string "reference")]

def Navigation.toJson (n : Navigation) : Json := .object (
  [("name", .string n.name), ("target", n.target.toJson),
    ("target_table", .string n.targetTable)] ++ n.kind.fields ++ [("nullable", .bool n.nullable)])

def Entity.toJson (e : Entity) : Json := .object [
  ("path", e.path.toJson), ("table", .string e.table),
  ("parent", .ofText? (e.owner?.map Path.toText)),
  ("pk_columns", .array (e.keys.map Column.toJson)),
  ("columns", .array (e.columns.map Column.toJson)),
  ("navigations", .array (e.navigations.map Navigation.toJson))]

def FieldKind.fields : FieldKind → List (String × Json)
  | value kind nullable => [("kind", .string "value"), ("scalar", .string kind.name),
    ("nullable", .bool nullable)]
  | range kind => [("kind", .string "range"), ("scalar", .string kind.name)]
  | select e => [("kind", .string "select"), ("enumeration", .string e.name)]
  | text => [("kind", .string "text")]
  | toggle => [("kind", .string "toggle")]
  | nested path => [("kind", .string "nested"), ("path", path.toJson)]
  | nestedList path => [("kind", .string "nested_list"), ("path", path.toJson)]
  | keyAndText target => [("kind", .string "key_and_text"), ("target", target.toJson)]
  | displayText => [("kind", .string "display_text")]
  | discriminator => [("kind", .string "discriminator")]

def ViewField.toJson (f : ViewField) : Json := .object (
  [("name", .string f.name)] ++ f.kind.fields ++
    f.default?.toList.map fun d => ("default", .string d))

def Projection.toJson (p : Projection) : Json := .object [
  ("name", .string p.name), ("fields", .array (p.fields.map ViewField.toJson))]

def Views.toJson (v : Views) : Json := .object [
  ("path", v.path.toJson), ("search_condition", v.searchCondition.toJson),
  ("search_result", v.searchResult.toJson), ("detail", v.detail.toJson)]

def Link.relationJson (l : Link) : Json := .object (
  [("name", .string l.name), ("target", l.terminal.path.toJson)] ++ l.relation.fields)

namespace Schema

/-- One aggregate of the document. -/
def aggregateJson (s : Schema) (a : Aggregate) (e : Entity) : Json := .object (
  [("path", a.path.toJson), ("typeName", .string a.typeName)] ++
    ((s.graph.owner? a).toList.map fun o => ("parent", o.path.toJson)) ++
  [("scalars", .array (a.scalars.map Scalar.toJson)),
    ("relations", .array ((s.graph.outgoing a).map Link.relationJson)),
    ("entity", e.toJson), ("views", (s.graph.views a).toJson)])

/-- The document: every aggregate that has an entity, owners first. -/
def snapshot (s : Schema) : Json := .object [
  ("version", .string snapshotVersion), ("compilerVersion", .string programVersion),
  ("aggregates", .array (s.aggregates.filterMap fun a =>
    (s.entity? a.path).map (s.aggregateJson a)))]

end Schema

end AggregateSchema
