import AggregateSchema.Schema
import AggregateSchema.Text.Quoted

/-! Short texts that show a schema, a visit or an edge to a developer. -/
namespace AggregateSchema

/-- The items between square brackets. -/
def bracketed (items : List String) : String := "[" ++ String.intercalate ", " items ++ "]"

def Path.outline (p : Path) : String :=
  "AggregatePath \x7b segments: " ++ bracketed (p.segments.map Text.quoted) ++ " \x7d"

def Path.idOutline (p : Path) : String := "NodeId(" ++ Text.quoted p.toText ++ ")"

def Visit.outline (v : Visit Aggregate Relation) : String :=
  "GraphNode \x7b id: " ++ v.node.path.idOutline ++ ", trail: " ++
    bracketed (v.names.map Text.quoted) ++ " \x7d"

def Link.outline (l : Link) : String :=
  "GraphEdge \x7b relation: " ++ Text.quoted l.name ++ ", initial: " ++
    l.initial.path.idOutline ++ ", terminal: " ++ l.terminal.path.idOutline ++ " \x7d"

def Schema.outline (s : Schema) : String :=
  "AppSchema \x7b aggregates: " ++ bracketed (s.entities.map (·.path.outline)) ++ " \x7d"

end AggregateSchema
