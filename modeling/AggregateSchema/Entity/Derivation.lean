import AggregateSchema.Entity.Key

/-! The entities of all aggregates of a graph. -/
namespace AggregateSchema

/-- Why a graph has no entities. -/
inductive EntityProblem where
  | sharedTable (table : String) (first second : Path)
  | keyCycle (path : Path)
  | keylessRoot (path : Path)
  | repeatedColumn (table column : String)
  deriving DecidableEq

def EntityProblem.message : EntityProblem → String
  | sharedTable table first second =>
    s!"Table name '{table}' is used by both '{first}' and '{second}'."
  | keyCycle path => s!"Primary key of '{path}' depends on itself through key references."
  | keylessRoot path =>
    s!"Aggregate '{path}' has no key but owns nested aggregates, which need one to be identified."
  | repeatedColumn table column => s!"Table '{table}' has more than one column named '{column}'."

namespace AggregateGraph

variable (g : AggregateGraph)

/-- The columns outside the key that one member takes, where `keyOf` gives the key of an aggregate. -/
def memberColumns {m : Type → Type} [Monad m] (keyOf : Aggregate → m (List Column)) (table : String) :
    Member → m (List Column)
  | .scalar s => pure (if s.isKey then [] else [Column.ofScalar table s])
  | .variation v => pure [Column.discriminator table v]
  | .reference l =>
    if l.relation.isKeyReference then pure []
    else (·.map (Column.foreignKey table l true)) <$> keyOf l.terminal
  | _ => pure []

def navigationTo (name : String) (target : Aggregate) (kind : NavigationKind) (nullable : Bool) :
    Navigation := ⟨name, target.path, target.typeName, kind, nullable⟩

def memberNavigations : Member → List Navigation
  | .scalar _ => []
  | .child l => [navigationTo l.name l.terminal .child false]
  | .children l => [navigationTo l.name l.terminal .children false]
  | .variation v => v.variants.map fun (tag, l) =>
    navigationTo (v.name ++ "__" ++ l.terminal.typeName) l.terminal (.variant tag) true
  | .reference l => [navigationTo l.name l.terminal .reference (!l.relation.isKeyReference)]

/-- The navigation to the owner comes first. -/
def navigations (a : Aggregate) : List Navigation :=
  (g.owner? a).toList.map (fun o => navigationTo o.typeName o .parent false) ++
    (members g a).flatMap memberNavigations

/-- Nested rows are found by the key of their root. -/
def keylessRootProblems (a : Aggregate) (keys : List Column) : List EntityProblem :=
  if keys.isEmpty && isRoot g a && !(descendants g (.start a)).isEmpty then [.keylessRoot a.path]
  else []

def repeatedColumnProblems (e : Entity) : List EntityProblem :=
  (repeats Column.name e.allColumns).map fun c => .repeatedColumn e.table c.name

/-- The entity of an aggregate with the given key, and the problems found on the way. There is none if
its other columns take in a key that depends on itself. -/
def entityWithKey (a : Aggregate) (keys : List Column) :
    Except Path (List (List Column)) → List EntityProblem × Option Entity
  | .error p => (keylessRootProblems g a keys ++ [.keyCycle p], none)
  | .ok columns =>
    let e : Entity :=
      ⟨a.path, a.typeName, (owner? g a).map (·.path), keys, columns.flatten, navigations g a⟩
    (keylessRootProblems g a keys ++ repeatedColumnProblems e, some e)

/-- The entity of one aggregate, with the problems found on the way. There is none if a key that it
needs depends on itself. -/
def deriveEntity (a : Aggregate) : StateM KeyMemo (List EntityProblem × Option Entity) := do
  match ← (keyOf g a).run with
  | .error p => return ([.keyCycle p], none)
  | .ok keys =>
    return entityWithKey g a keys (← ((members g a).mapM (memberColumns (keyOf g) a.typeName)).run)

def greatestDepth : Nat := (g.nodes.map (·.path.depth)).foldl max 0

/-- The aggregates level by level, in order of declaration within a level. -/
def byDepth : List Aggregate :=
  (List.range (greatestDepth g + 1)).flatMap fun d => g.nodes.filter (·.path.depth = d)

/-- The aggregates whose table an earlier one has, each with the latest such one. -/
def sharedTables (seen : List (String × Path)) : List Aggregate → List EntityProblem
  | [] => []
  | a :: rest =>
    (match seen.lookup a.typeName with
      | some first => [.sharedTable a.typeName first a.path]
      | none => []) ++ sharedTables ((a.typeName, a.path) :: seen) rest

/-- The entities, owners before what they own, if nothing is wrong with any of them. A key that was
found for one of them is known to those that come after it. -/
def entities : Except (List EntityProblem) (List Entity) :=
  let (derived, _) := ((byDepth g).mapM (deriveEntity g)).run []
  let problems := sharedTables [] (byDepth g) ++ derived.flatMap (·.1)
  if problems.isEmpty then .ok (derived.filterMap (·.2)) else .error problems

end AggregateGraph

end AggregateSchema
