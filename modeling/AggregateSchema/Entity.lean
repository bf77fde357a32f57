import AggregateSchema.Path
import AggregateSchema.ScalarKind

/-! The stored form of an aggregate: a table with its columns, and navigations to other tables. -/
namespace AggregateSchema

/-- The table and name under which a column was introduced. -/
structure Origin where
  table : String
  column : String
  deriving DecidableEq, Repr

/-- What a column holds: a scalar, the position in a list, the tag of the variant chosen, or one
part of the key of another aggregate. -/
inductive ColumnRole where
  | value
  | sequence
  | discriminator
  | foreignKey (reference : String) (target : Path) (targetColumn : String)
  deriving DecidableEq

structure Column where
  name : String
  type : ColumnType
  nullable : Bool
  origin : Origin
  role : ColumnRole
  inherited : Bool
  deriving DecidableEq

inductive NavigationKind where
  | parent
  | child
  | children
  | variant (tag : Int)
  | reference
  deriving DecidableEq

/-- A relation to another table that takes no column of its own. -/
structure Navigation where
  name : String
  target : Path
  targetTable : String
  kind : NavigationKind
  nullable : Bool
  deriving DecidableEq

structure Entity where
  path : Path
  table : String
  owner? : Option Path
  keys : List Column
  columns : List Column
  navigations : List Navigation
  deriving DecidableEq

namespace Entity

/-- Key columns first, then the others. -/
def allColumns (e : Entity) : List Column := e.keys ++ e.columns

def column? (e : Entity) (name : String) : Option Column := e.allColumns.find? (·.name = name)

/-- The column that was introduced at the given place, be it inherited or not. -/
def columnByOrigin? (e : Entity) (origin : Origin) : Option Column :=
  e.allColumns.find? (·.origin = origin)

/-- The entity's own position column. -/
def sequenceColumn? (e : Entity) : Option Column :=
  e.keys.find? fun c => !c.inherited && c.role = .sequence

def isAncestorOf (e other : Entity) : Bool := other.path.isBelow e.path

end Entity

end AggregateSchema
