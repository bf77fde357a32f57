import AggregateSchema.ScalarKind

/-! Type names and the scalar kinds that they stand for. -/
namespace AggregateSchema

/-- Registered names, the latest first. -/
structure TypeRegistry where
  entries : List (String × ScalarKind)

namespace TypeRegistry

def empty : TypeRegistry := ⟨[]⟩

/-- Registers a name; an earlier kind of that name is replaced. -/
def register (r : TypeRegistry) (name : String) (kind : ScalarKind) : TypeRegistry :=
  ⟨(name, kind) :: r.entries⟩

/-- Registers an enumeration under its own name. -/
def registerEnumeration (r : TypeRegistry) (e : Enumeration) : TypeRegistry :=
  r.register e.name (.enumeration e)

def resolve? (r : TypeRegistry) (name : String) : Option ScalarKind := r.entries.lookup name

/-- The names that are known without registration. -/
def standard : TypeRegistry := ⟨[
  ("identifier", .identifier), ("word", .word), ("sentence", .sentence), ("integer", .integer),
  ("sequence", .integer), ("numeric", .decimal), ("decimal", .decimal), ("boolean", .boolean),
  ("date", .date), ("datetime", .datetime)]⟩

end TypeRegistry

end AggregateSchema
