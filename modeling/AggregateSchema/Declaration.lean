/-! Declarations of aggregates, relations and enumerations, as they are read. -/
namespace AggregateSchema

/-- A scalar member; one that is neither key nor required may be null. -/
structure ScalarDeclaration where
  name : String
  typeName : String
  isKey : Bool
  isDisplayName : Bool
  required : Bool
  deriving DecidableEq, Repr

/-- What every variant of a variation has to declare. -/
structure VariationBase where
  name : String
  isAbstract : Bool
  members : List ScalarDeclaration
  deriving DecidableEq, Repr

structure VariantDeclaration where
  name : String
  tag : Int
  typeName : Option String
  members : List ScalarDeclaration
  deriving DecidableEq, Repr

/-- A declaration. Owners and targets are given by the text of their path. -/
inductive Declaration where
  | aggregate (path : String) (typeName : Option String) (members : List ScalarDeclaration)
  | child (name owner : String) (isKey : Bool) (typeName : Option String)
      (members : List ScalarDeclaration)
  | children (name owner : String) (typeName : Option String) (members : List ScalarDeclaration)
  | variation (name owner : String) (isKey : Bool) (base : Option VariationBase)
      (variants : List VariantDeclaration)
  | reference (name owner target : String) (isKey isDisplayName : Bool)
  deriving DecidableEq, Repr

structure EnumerationDeclaration where
  name : String
  items : List (String × Option Int)
  deriving DecidableEq, Repr

/-- All that was declared, in order. -/
structure Draft where
  declarations : List Declaration
  enumerations : List EnumerationDeclaration
  deriving DecidableEq, Repr

namespace Draft

def empty : Draft := ⟨[], []⟩

def declare (d : Draft) (x : Declaration) : Draft :=
  { d with declarations := d.declarations ++ [x] }

def declareEnumeration (d : Draft) (x : EnumerationDeclaration) : Draft :=
  { d with enumerations := d.enumerations ++ [x] }

/-- What the first declares, and then what the second does. -/
def append (d e : Draft) : Draft :=
  ⟨d.declarations ++ e.declarations, d.enumerations ++ e.enumerations⟩

instance : Append Draft := ⟨append⟩

def isEmpty (d : Draft) : Bool := d.declarations.isEmpty && d.enumerations.isEmpty

@[simp] theorem declarations_append (d e : Draft) :
    (d ++ e).declarations = d.declarations ++ e.declarations := rfl

@[simp] theorem enumerations_append (d e : Draft) :
    (d ++ e).enumerations = d.enumerations ++ e.enumerations := rfl

@[simp] theorem empty_append (d : Draft) : empty ++ d = d := rfl

theorem append_assoc (c d e : Draft) : c ++ d ++ e = c ++ (d ++ e) := by
  show append (append c d) e = append c (append d e)
  simp [append]

end Draft

end AggregateSchema
