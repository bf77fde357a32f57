import AggregateSchema.Document
import AggregateSchema.Schema

/-! What was read from schema documents, with the problems found in them. -/
namespace AggregateSchema

/-- A document with problems still adds what it declares, so that all problems are found at once. -/
structure Source where
  draft : Draft
  report : Report
  files : Nat

namespace Source

def empty : Source := ⟨.empty, .empty, 0⟩

def ofDocument (text : String) : Source :=
  let (draft, problems) := Document.read text
  ⟨draft, .ofList (problems.map DocumentProblem.message), 1⟩

def append (s t : Source) : Source :=
  ⟨s.draft ++ t.draft, s.report.merge t.report, s.files + t.files⟩

instance : Append Source := ⟨append⟩

def declare (s : Source) (d : Declaration) : Source := { s with draft := s.draft.declare d }

def declareEnumeration (s : Source) (d : EnumerationDeclaration) : Source :=
  { s with draft := s.draft.declareEnumeration d }

/-- Resolves the draft. The problems of the documents are reported together with those of the
resolution, before them. -/
def resolve (s : Source) (registry : TypeRegistry) : Except Report Schema :=
  match s.draft.resolve registry with
  | .ok schema => s.report.toExcept schema
  | .error problems => .error (s.report.extend (problems.map SchemaProblem.message))

end Source

end AggregateSchema
