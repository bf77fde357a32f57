import AggregateSchema.Json.Text
import AggregateSchema.Path
import AggregateSchema.Report
import AggregateSchema.ScalarKind
import AggregateSchema.Statement

/-! Why the program gives up on an input. -/
namespace AggregateSchema

/-- What is wrong with a value that is to be stored or that was stored. -/
inductive MappingProblem where
  | notOneRootRow
  | notRoot
  | expectedObject (found : Json)
  | expectedPair (found : Json)
  | expectedList (found : Json)
  | undeclaredTag (found : Json)
  | missingKey (column : String)
  | missingValue
  | wrongKind (found : Json) (kind : ScalarKind)
  | noColumn

def MappingProblem.message : MappingProblem → String
  | notOneRootRow => "exactly one row of the root entity is required"
  | notRoot => "only root aggregates can be mapped"
  | expectedObject found => s!"expected an object, found {found.compact}"
  | expectedPair found => s!"expected a key/text pair, found {found.compact}"
  | expectedList found => s!"expected a list, found {found.compact}"
  | undeclaredTag found => s!"{found.compact} is not a declared variant tag"
  | missingKey column => s!"key column '{column}' is required"
  | missingValue => "a value is required"
  | wrongKind found kind => s!"{found.compact} is not a valid {kind.name}"
  | noColumn => "no column stores this member"

/-- What is wrong with one part of a search condition. -/
inductive ConditionProblem where
  | expectedObject
  | expectedRange
  | expectedText
  | expectedBoolean
  | expectedPair
  | expectedKey
  | noItem (found : Json) (enumeration : String)

def ConditionProblem.message : ConditionProblem → String
  | expectedObject => "expected an object"
  | expectedRange => "expected an object with 'from' and 'to'"
  | expectedText => "expected a string"
  | expectedBoolean => "expected a boolean"
  | expectedPair => "expected an object with 'key' and 'text'"
  | expectedKey => "'key' must be an object"
  | noItem found enumeration => s!"{found.compact} is not an item of '{enumeration}'"

inductive Failure where
  | unreadable (path reason : String)
  | unwritable (path reason : String)
  | malformedFile (path : String) (report : Report)
  | noSchemaFiles (directory : String)
  | invalidSchema (report : Report)
  | unknownAggregate (path : Path)
  | statement (problem : StatementProblem)
  | badCondition (field : String) (problem : ConditionProblem)
  | unmapped (field : String) (problem : MappingProblem)
  | unsupportedLanguage (language : String)

namespace Failure

def message : Failure → String
  | unreadable path reason => s!"Failed to read file '{path}': {reason}"
  | unwritable path reason => s!"Failed to write file '{path}': {reason}"
  | malformedFile path report => s!"Failed to parse schema file {path}:\n{report.text}"
  | noSchemaFiles directory => s!"No schema files found in '{directory}'"
  | invalidSchema report => s!"Schema is invalid ({report.size} problem(s)):\n{report.text}"
  | unknownAggregate path => s!"Unknown aggregate: {path}"
  | statement problem => problem.message
  | badCondition field problem =>
    s!"Search condition for '{field}' is malformed: {problem.message}"
  | unmapped field problem => s!"Cannot map value of '{field}': {problem.message}"
  | unsupportedLanguage language => s!"Unsupported schema language: {language}"

/-- A short name for the kind of failure, which stays the same from version to version. -/
def code : Failure → String
  | unreadable _ _ => "halapp::io::read_error"
  | unwritable _ _ => "halapp::io::write_error"
  | malformedFile _ _ => "halapp::parse::parse_failed"
  | noSchemaFiles _ => "halapp::parse::no_schema_files"
  | invalidSchema _ => "halapp::schema::invalid"
  | unknownAggregate _ => "halapp::schema::unknown_aggregate"
  | statement _ => "halapp::query::contract_violation"
  | badCondition _ _ => "halapp::query::bad_condition"
  | unmapped _ _ => "halapp::runtime::mapping_failed"
  | unsupportedLanguage _ => "halapp::frontend::unsupported_language"

/-- Advice to the user. -/
def help? : Failure → Option String
  | malformedFile _ _ => some "Each problem is listed below; fix them all and re-run."
  | noSchemaFiles _ => some "Schema files are XML documents with the .xml extension"
  | unknownAggregate _ =>
    some "Aggregate paths start with '/' and name every ancestor, e.g. /Order/Lines"
  | _ => none

end Failure

end AggregateSchema
