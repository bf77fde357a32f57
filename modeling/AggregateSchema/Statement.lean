import AggregateSchema.Entity
import AggregateSchema.Json

/-! SELECT statements over one table and tables inside it. Values stand apart from the text, as
parameters. -/
namespace AggregateSchema

/-- Why a call on a statement is rejected. -/
inductive StatementProblem where
  | fromAlreadySet (current requested : String)
  | fromNotSet
  | joinOntoFrom (table : String)
  | alreadyJoined (table : String)
  | notADescendant (table base : String)
  | unknownTable (table : String)
  | unknownColumn (table column : String)
  | selectNotSet
  deriving DecidableEq, Repr

def StatementProblem.message : StatementProblem → String
  | fromAlreadySet current requested =>
    s!"FROM is already set to '{current}', cannot set '{requested}'"
  | fromNotSet => "FROM is not set"
  | joinOntoFrom table => s!"'{table}' is the FROM table and cannot be joined"
  | alreadyJoined table => s!"'{table}' is already joined"
  | notADescendant table base =>
    s!"'{table}' is not a descendant of '{base}'; only descendant tables can be joined"
  | unknownTable table => s!"'{table}' appears neither in FROM nor in a JOIN"
  | unknownColumn table column => s!"'{table}' has no column '{column}'"
  | selectNotSet => "SELECT clause is empty"

/-- A value with the placeholder that stands for it in the text. -/
structure Parameter where
  name : String
  value : Json

inductive Direction where
  | ascending
  | descending
  deriving DecidableEq, Repr

def Direction.word : Direction → String
  | ascending => "ASC"
  | descending => "DESC"

/-- An entry of the ORDER BY clause: the number of a table and a column of it. -/
structure Order where
  table : Nat
  column : String
  direction : Direction
  deriving DecidableEq, Repr

/-- The tables, the first of them after FROM and the others joined to it, and the clauses. -/
structure Statement where
  tables : List Entity
  selections : List String
  filters : List String
  parameters : List Parameter
  orders : List Order

/-- A clause in the making: it may ask for the alias of a table and register parameters, and ends
with a text or a rejection. -/
inductive Clause where
  | text (s : String)
  | reject (problem : StatementProblem)
  | aliasFor (table : Entity) (next : Except StatementProblem String → Clause)
  | parameter (value : Json) (next : String → Clause)

namespace Clause

/-- The alias of a table, which has to be in the statement. -/
def needAlias (table : Entity) (next : String → Clause) : Clause :=
  .aliasFor table fun
    | .ok name => next name
    | .error problem => .reject problem

/-- Adds something to the end of the text. -/
def andThen : Clause → (String → Clause) → Clause
  | .text s, f => f s
  | .reject problem, _ => .reject problem
  | .aliasFor table next, f => .aliasFor table fun a => (next a).andThen f
  | .parameter value next, f => .parameter value fun p => (next p).andThen f

/-- The texts of some clauses, one after the other. -/
def concat : List Clause → Clause
  | [] => .text ""
  | c :: cs => c.andThen fun s => (concat cs).andThen fun t => .text (s ++ t)

end Clause

/-- A call on a statement, which may be rejected. -/
inductive Call where
  | setFrom (table : Entity)
  | leftJoin (table : Entity)
  | select (clause : Clause)
  | filter (clause : Clause)
  | orderBy (table : Entity) (column : String) (direction : Direction)

namespace Statement

def empty : Statement := ⟨[], [], [], [], []⟩

/-- The number of a table in the statement. -/
def position? (s : Statement) (table : Entity) : Option Nat :=
  s.tables.findIdx? (·.path = table.path)

def aliasOf (index : Nat) : String := s!"t{index}"

def aliasFor (s : Statement) (table : Entity) : Except StatementProblem String :=
  match s.position? table with
  | some i => .ok (aliasOf i)
  | none => .error (.unknownTable table.table)

def placeholder (index : Nat) : String := s!"@p_{index}"

/-- Registers a value under the next placeholder. -/
def register (s : Statement) (value : Json) : String × Statement :=
  let name := placeholder s.parameters.length
  (name, { s with parameters := s.parameters ++ [⟨name, value⟩] })

def setFrom (s : Statement) (table : Entity) : Except StatementProblem Statement :=
  match s.tables with
  | current :: _ => .error (.fromAlreadySet current.table table.table)
  | [] => .ok { s with tables := [table] }

/-- Joins a table that lies inside the FROM table. -/
def leftJoin (s : Statement) (table : Entity) : Except StatementProblem Statement :=
  match s.tables with
  | [] => .error .fromNotSet
  | base :: _ =>
    if base.path = table.path then .error (.joinOntoFrom table.table)
    else if (s.position? table).isSome then .error (.alreadyJoined table.table)
    else if !base.isAncestorOf table then .error (.notADescendant table.table base.table)
    else .ok { s with tables := s.tables ++ [table] }

/-- Goes through a clause. What it registers stays in the statement, however it ends. -/
def run (s : Statement) : Clause → Except StatementProblem String × Statement
  | .text t => (.ok t, s)
  | .reject problem => (.error problem, s)
  | .aliasFor table next => s.run (next (s.aliasFor table))
  | .parameter value next => (s.register value).2.run (next (s.register value).1)

/-- Runs a clause. The parameters of a rejected one are dropped again. -/
def runClause (s : Statement) (clause : Clause) : Except StatementProblem String × Statement :=
  match s.run clause with
  | (.ok text, t) => (.ok text, t)
  | (.error problem, t) =>
    (.error problem, { t with parameters := t.parameters.take s.parameters.length })

def orderBy (s : Statement) (table : Entity) (column : String) (direction : Direction) :
    Except StatementProblem Statement :=
  match s.position? table with
  | none => .error (.unknownTable table.table)
  | some i =>
    if (table.column? column).isNone then .error (.unknownColumn table.table column)
    else .ok { s with orders := s.orders ++ [⟨i, column, direction⟩] }

/-- The outcome of a change that is checked before anything is changed. -/
def checked (s : Statement) :
    Except StatementProblem Statement → Except StatementProblem Unit × Statement
  | .ok t => (.ok (), t)
  | .error problem => (.error problem, s)

/-- Performs a call: whether it is accepted, and the statement after it. -/
def perform (s : Statement) : Call → Except StatementProblem Unit × Statement
  | .setFrom table => s.checked (s.setFrom table)
  | .leftJoin table => s.checked (s.leftJoin table)
  | .select clause => match s.runClause clause with
    | (.ok text, t) => (.ok (), { t with selections := t.selections ++ [text] })
    | (.error problem, t) => (.error problem, t)
  | .filter clause => match s.runClause clause with
    | (.ok text, t) => (.ok (), { t with filters := t.filters ++ [text] })
    | (.error problem, t) => (.error problem, t)
  | .orderBy table column direction => s.checked (s.orderBy table column direction)

/-- The statement after a call that has to be accepted. -/
def call (s : Statement) (c : Call) : Except StatementProblem Statement :=
  match s.perform c with
  | (.ok _, t) => .ok t
  | (.error problem, _) => .error problem

def select (s : Statement) (clause : Clause) : Except StatementProblem Statement :=
  s.call (.select clause)

/-- Adds a predicate; all of them have to hold. -/
def filter (s : Statement) (clause : Clause) : Except StatementProblem Statement :=
  s.call (.filter clause)

def hasFilters (s : Statement) : Bool := !s.filters.isEmpty

/-- The equations that tie a joined table to the key of the FROM table. -/
def joinConditions (base : Entity) (index : Nat) (table : Entity) : List String :=
  base.keys.filterMap fun key => (table.columnByOrigin? key.origin).map fun joined =>
    s!"{aliasOf index}.{joined.name} = {aliasOf 0}.{key.name}"

def renderJoin (base : Entity) (index : Nat) (table : Entity) : String :=
  s!"LEFT JOIN {table.table} AS {aliasOf index} ON (" ++
    String.intercalate " AND " (joinConditions base index table) ++ ")"

def renderOrder (o : Order) : String := s!"{aliasOf o.table}.{o.column} {o.direction.word}"

/-- The joins of the given tables, the first of which has the given number. -/
def renderJoins (base : Entity) (index : Nat) : List Entity → List String
  | [] => []
  | table :: rest => renderJoin base index table :: renderJoins base (index + 1) rest

/-- The statement on a single line. -/
def render (s : Statement) : Except StatementProblem String :=
  match s.tables with
  | [] => .error .fromNotSet
  | base :: joined =>
    if s.selections.isEmpty then .error .selectNotSet
    else .ok (String.intercalate " " (
      ["SELECT " ++ String.intercalate ", " s.selections,
        s!"FROM {base.table} AS {aliasOf 0}"] ++
      renderJoins base 1 joined ++
      (if s.filters.isEmpty then []
        else ["WHERE " ++ String.intercalate " AND " (s.filters.map fun w => "(" ++ w ++ ")")]) ++
      (if s.orders.isEmpty then []
        else ["ORDER BY " ++ String.intercalate ", " (s.orders.map renderOrder)])))

end Statement

end AggregateSchema
