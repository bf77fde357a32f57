import AggregateSchema.Enumeration

/-! Kinds of scalar members, with the way each is filtered and stored. -/
namespace AggregateSchema

inductive ScalarKind where
  | identifier
  | word
  | sentence
  | integer
  | decimal
  | boolean
  | date
  | datetime
  | enumeration (definition : Enumeration)
  deriving DecidableEq, Repr

/-- How a search condition filters a scalar: between two bounds, by one item of an enumeration, by
a text that occurs in it, or by its exact value. -/
inductive FilterStyle where
  | range
  | select
  | freeText
  | exact
  deriving DecidableEq, Repr

def FilterStyle.name : FilterStyle → String
  | range => "range"
  | select => "select"
  | freeText => "free_text"
  | exact => "exact"

/-- Types of stored columns. -/
inductive ColumnType where
  | text
  | integer
  | decimal
  | datetime
  deriving DecidableEq, Repr

def ColumnType.name : ColumnType → String
  | text => "text"
  | integer => "integer"
  | decimal => "decimal"
  | datetime => "date_time"

namespace ScalarKind

def name : ScalarKind → String
  | identifier => "identifier"
  | word => "word"
  | sentence => "sentence"
  | integer => "integer"
  | decimal => "decimal"
  | boolean => "boolean"
  | date => "date"
  | datetime => "datetime"
  | enumeration definition => definition.name

/-- The kind of a built-in name. -/
def ofName? : String → Option ScalarKind
  | "identifier" => some identifier
  | "word" => some word
  | "sentence" => some sentence
  | "integer" => some integer
  | "decimal" => some decimal
  | "boolean" => some boolean
  | "date" => some date
  | "datetime" => some datetime
  | _ => none

def filterStyle : ScalarKind → FilterStyle
  | integer | decimal | date | datetime => .range
  | enumeration _ => .select
  | identifier | word | sentence => .freeText
  | boolean => .exact

def columnType : ScalarKind → ColumnType
  | identifier | word | sentence => .text
  | integer | boolean | enumeration _ => .integer
  | decimal => .decimal
  | date | datetime => .datetime

end ScalarKind

end AggregateSchema
