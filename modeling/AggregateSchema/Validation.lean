import AggregateSchema.Report
import AggregateSchema.Schema

/-! Rules of design that a schema should keep beyond those it needs to exist. -/
namespace AggregateSchema

inductive DesignProblem where
  | repeatedMember (path : Path) (member : String)
  | selfReference (reference : String) (path : Path)
  deriving DecidableEq

def DesignProblem.message : DesignProblem → String
  | repeatedMember path member => s!"Aggregate '{path}' declares member '{member}' more than once."
  | selfReference reference path => s!"Reference '{reference}' of '{path}' refers to its own aggregate."

namespace AggregateGraph

variable (g : AggregateGraph)

/-- Scalars and relations share their names. -/
def repeatedMembers (a : Aggregate) : List DesignProblem :=
  (repeats Member.name (members g a)).map fun m => .repeatedMember a.path m.name

def selfReferences (a : Aggregate) : List DesignProblem :=
  ((referenceLinks g a).filter (·.terminal.path = a.path)).map fun l =>
    .selfReference l.name a.path

end AggregateGraph

namespace Schema

def designProblems (s : Schema) : List DesignProblem :=
  s.aggregates.flatMap fun a => s.graph.repeatedMembers a ++ s.graph.selfReferences a

/-- Whether the schema keeps all rules. -/
def validate (s : Schema) : Except (List DesignProblem) Unit :=
  if s.designProblems.isEmpty then .ok () else .error s.designProblems

end Schema

end AggregateSchema
