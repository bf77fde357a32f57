import AggregateSchema.Arguments
import AggregateSchema.Json.Parser
import AggregateSchema.Search

/-! Running a command: what is printed, and the code with which it ends. -/
namespace AggregateSchema

def programName : String := "halapp"

/-- Lines of text, each closed by a line feed. -/
def lines (ls : List String) : String := String.join (ls.map (· ++ "\n"))

namespace Console

def good (text : String) : String := "  ◉ " ++ text

def note (text : String) : String := "  ◇ " ++ text

def divider : List String := ["", "  " ++ String.ofList (List.replicate 53 '╌'), ""]

def rootLine (a : Aggregate) : String := s!"  ▸ {a.path.baseName}  {a.typeName}"

/-- How an aggregate belongs to its owner. -/
def belonging (g : AggregateGraph) (a : Aggregate) : String :=
  match g.ownerLink? a with
  | none => "child"
  | some link =>
    match link.relation with
    | .variant tag => s!"variant {tag}"
    | .children => "multiple"
    | _ => "child"

/-- The lines of what a root owns. The last line among those with one owner has a corner. -/
def branchLines (g : AggregateGraph) (root : Aggregate) : List Aggregate → List String
  | [] => []
  | a :: rest =>
    let isLast := !rest.any fun b => b.path.parent? = a.path.parent?
    let indent := String.join
      (List.replicate (a.path.depth - root.path.depth - 1) "    ")
    (s!"  {indent}" ++ (if isLast then "╰──" else "├──") ++
      s!"  {a.path.baseName}   {a.typeName} · " ++ belonging g a) :: branchLines g root rest

def tree (s : Schema) : List String :=
  s.roots.flatMap fun a =>
    rootLine a :: branchLines s.graph a ((s.graph.descendants (.start a)).map (·.node))

def tableLine (e : Entity) : String :=
  "  ▸   " ++ String.ofList (e.table.toList.rightpad 16 ' ') ++
    s!" {e.keys.length} keys · {e.columns.length} columns"

/-- The report on a schema without problems. -/
def checked (s : Schema) (milliseconds : String) : List String :=
  [good "Looking good.", ""] ++ tree s ++ divider ++ s.entities.map tableLine ++
    ["", note s!"Checked in {milliseconds}ms"]

def saved (s : Schema) (file : String) : List String :=
  [good s!"{s.aggregates.length} aggregates, {s.columnCount} columns written to {file}"]

def searched (q : Query) (sql : String) : List String :=
  sql :: q.statement.parameters.map (fun p => s!"  {p.name} = {p.value.compact}") ++
    [note ("columns: " ++ String.intercalate ", " q.columns)]

def usage : List String := [s!"Usage: {programName} [OPTIONS] <check|model|query>"]

end Console

/-- Why a command fails. -/
inductive CommandProblem where
  | failure (problem : Failure)
  | path (text : String) (problem : PathProblem)
  | condition (text : String)

def CommandProblem.message : CommandProblem → String
  | failure problem => problem.message
  | path text problem => s!"Invalid aggregate path '{text}': {problem.message}"
  | condition text => s!"Invalid search condition: {text}"

/-- What a command comes to. -/
inductive Result where
  | checked (schema : Schema)
  | shown (schema : Schema)
  | toSave (schema : Schema) (file : String)
  | searched (query : Query) (sql : String)

def Result.text (milliseconds : String) : Result → String
  | checked schema => lines (Console.checked schema milliseconds)
  | shown schema => lines [schema.snapshot.pretty]
  | toSave schema file => lines (Console.saved schema file)
  | searched query sql => lines (Console.searched query sql)

namespace Command

def settings : Command → Settings
  | check s | model s | query s _ _ => s

/-- Runs a command on the files of its directory. -/
def run (command : Command) (files : List (String × ByteArray)) : Except CommandProblem Result := do
  let schema ← (command.settings.load .standard files).mapError .failure
  match command with
  | check _ => return .checked schema
  | model s => match s.outFile? with
    | some file => return .toSave schema file
    | none => return .shown schema
  | query _ root condition =>
    let path ← (Path.parse root).mapError (.path root)
    let value ← match Json.parse? condition with
      | some v => .ok v
      | none => .error (.condition condition)
    let q ← (Query.build schema path value).mapError .failure
    return .searched q (← q.text.mapError .failure)

end Command

/-- What is left of a run: its code, what it printed, and the files. -/
structure Outcome where
  code : UInt8
  text : String
  storage : Entry

def Stop.code : Stop → UInt8
  | invalid => 2
  | _ => 0

def Stop.text : Stop → String
  | version => lines [s!"{programName} {programVersion}"]
  | help => lines Console.usage
  | invalid => ""

/-- Runs a command line inside a storage. The time that it takes is given as a text. -/
def runCommandLine (storage : Entry) (milliseconds : String) (words : List String) : Outcome :=
  match Command.read words with
  | .error stop => ⟨stop.code, stop.text, storage⟩
  | .ok command =>
    match command.run (storage.files command.settings.directory) with
    | .error _ => ⟨1, "", storage⟩
    | .ok (.toSave schema file) => match storage.save file schema.snapshot.pretty with
      | .ok storage => ⟨0, (Result.toSave schema file).text milliseconds, storage⟩
      | .error _ => ⟨1, "", storage⟩
    | .ok result => ⟨0, result.text milliseconds, storage⟩

end AggregateSchema
