import AggregateSchema.Xml.Event

/-! The tree of elements that a sequence of events stands for. -/
namespace AggregateSchema.Xml

/-- An element; text between elements is not kept. -/
structure Element where
  name : String
  attributes : List (String × String)
  children : List Element

inductive XmlProblem where
  | scan (located : Located)
  | tag (problem : TagProblem)
  | surplusClose
  | secondRoot (name : String)
  | unclosed (name : String)
  | noRoot

def XmlProblem.message : XmlProblem → String
  | scan located => s!"Malformed XML at byte {located.position}: {located.problem.message}"
  | tag problem => problem.message
  | surplusClose => "Malformed XML: unexpected closing tag."
  | secondRoot name => s!"Malformed XML: '{name}' is a second root element."
  | unclosed name => s!"Malformed XML: element '{name}' is not closed."
  | noRoot => "Malformed XML: the document has no root element."

/-- Elements that are still open, the innermost first, and the whole tree once it is closed. -/
structure Growth where
  pending : List Element
  root? : Option Element

namespace Growth

def seed : Growth := ⟨[], none⟩

/-- Puts a closed element into the innermost open one; outside all, it is the root. -/
def attach (g : Growth) (e : Element) : Except XmlProblem Growth :=
  match g.pending with
  | o :: rest => .ok { g with pending := { o with children := o.children ++ [e] } :: rest }
  | [] => match g.root? with
    | some _ => .error (.secondRoot e.name)
    | none => .ok { g with root? := some e }

/-- The element that a tag opens, given how the heads of elements are read. -/
def element (head : Tag → Except TagProblem Head) (tag : Tag) : Except XmlProblem Element :=
  ((head tag).mapError .tag).map fun h => ⟨h.name, h.attributes, []⟩

def step (head : Tag → Except TagProblem Head) (g : Growth) : Event → Except XmlProblem Growth
  | .start tag => (element head tag).map fun e => { g with pending := e :: g.pending }
  | .empty tag => element head tag >>= g.attach
  | .close => match g.pending with
    | e :: rest => attach { g with pending := rest } e
    | [] => .error .surplusClose
  | .other => .ok g

/-- The tree, if nothing is left open. -/
def finish (g : Growth) : Except XmlProblem Element :=
  match g.pending, g.root? with
  | e :: _, _ => .error (.unclosed e.name)
  | [], some e => .ok e
  | [], none => .error .noRoot

end Growth

namespace Element

/-- The tree of a sequence of events. -/
def ofEvents (head : Tag → Except TagProblem Head) (events : List Event) :
    Except XmlProblem Element :=
  events.foldlM (Growth.step head) .seed >>= Growth.finish

/-- Reads a text as one tree. A problem inside a tag comes before any that ends the events later. -/
def parse (text : String) : Except XmlProblem Element := do
  let (es, problem) := events text.toList
  let g ← es.foldlM (Growth.step Tag.head) .seed
  match problem with
  | some located => .error (.scan located)
  | none => g.finish

def attribute? (e : Element) (key : String) : Option String := e.attributes.lookup key

def has (e : Element) (key : String) : Bool := (e.attribute? key).isSome

end Element

end AggregateSchema.Xml
