import AggregateSchema.Declaration
import AggregateSchema.Entity.Derivation
import AggregateSchema.TypeRegistry
import AggregateSchema.View

/-! Schemas: a graph of aggregates with its entities, resolved from a draft. -/
namespace AggregateSchema

/-- Why a draft is no schema. -/
inductive SchemaProblem where
  | enumeration (problem : EnumerationProblem)
  | path (problem : PathProblem)
  | target (reference : String) (owner : Path) (problem : PathProblem)
  | keyChild (child : String) (owner : Path)
  | unknownType (typeName member : String) (owner : Path)
  | keyVariation (variation : String) (owner : Path)
  | noVariants (variation : String) (owner : Path)
  | repeatedTag (variation : String) (owner : Path) (tag : Int)
  | concreteBase (base variation : String)
  | missingMember (variant variation base member : String)
  | memberKind (variant variation base member : String) (actual expected : ScalarKind)
  | repeatedPath (path : Path)
  | graph (problem : GraphProblem Path)
  | entity (problem : EntityProblem)

def SchemaProblem.message : SchemaProblem → String
  | enumeration problem => problem.message
  | path problem => problem.message
  | target reference owner problem =>
    s!"Reference '{reference}' of '{owner}': {problem.message}"
  | keyChild child owner => s!"Child '{child}' of '{owner}' cannot be a key."
  | unknownType typeName member owner =>
    s!"Type name '{typeName}' of '{member}' in '{owner}' is invalid."
  | keyVariation variation owner => s!"Variation '{variation}' of '{owner}' cannot be a key."
  | noVariants variation owner => s!"Variation '{variation}' of '{owner}' has no variants."
  | repeatedTag variation owner tag =>
    s!"Variation '{variation}' of '{owner}' uses tag {tag} more than once."
  | concreteBase base variation =>
    s!"Base type '{base}' of variation '{variation}' is not abstract and cannot have variants."
  | missingMember variant variation base member =>
    s!"Variant '{variant}' of variation '{variation}' is not assignable to '{base}': " ++
      s!"member '{member}' is missing."
  | memberKind variant variation base member actual expected =>
    s!"Variant '{variant}' of variation '{variation}' is not assignable to '{base}': " ++
      s!"member '{member}' is '{actual.name}', expected '{expected.name}'."
  | repeatedPath p => s!"Aggregate path duplicates: {p}"
  | graph problem => problem.message
  | entity problem => problem.message

/-- What declarations come to: problems, aggregates and the edges between them. -/
structure Resolution where
  problems : List SchemaProblem
  aggregates : List Aggregate
  edges : List (Edge Path Relation)

namespace Resolution

def none : Resolution := ⟨[], [], []⟩

def problem (p : SchemaProblem) : Resolution := ⟨[p], [], []⟩

def append (r s : Resolution) : Resolution :=
  ⟨r.problems ++ s.problems, r.aggregates ++ s.aggregates, r.edges ++ s.edges⟩

instance : Append Resolution := ⟨append⟩

def concat (rs : List Resolution) : Resolution := rs.foldr append none

end Resolution

namespace TypeRegistry

/-- The scalar that a declaration stands for, if its type is known. -/
def scalar? (registry : TypeRegistry) (d : ScalarDeclaration) : Option Scalar :=
  (registry.resolve? d.typeName).map fun kind =>
    ⟨d.name, kind, !d.isKey && !d.required, d.isKey, d.isDisplayName⟩

/-- An aggregate without its relations. A blank type name counts as none, and the last name of the
path stands in for it. -/
def aggregate (registry : TypeRegistry) (path : Path) (typeName : Option String)
    (members : List ScalarDeclaration) : Resolution where
  problems := (members.filter fun d => (registry.resolve? d.typeName).isNone).map fun d =>
    .unknownType d.typeName d.name path
  aggregates := [⟨path, (typeName.filter (!Text.isBlank ·)).getD path.baseName,
    members.filterMap (scalar? registry)⟩]
  edges := []

/-- An aggregate that another one owns. -/
def owned (registry : TypeRegistry) (owner : Path) (name relationName : String)
    (relation : Relation) (typeName : Option String) (members : List ScalarDeclaration) :
    Resolution :=
  match owner.child name with
  | .error p => .problem (.path p)
  | .ok path => registry.aggregate path typeName members ++
    ⟨[], [], [⟨owner, path, relationName, relation⟩]⟩

/-- How one variant fails to fit a base: a member is missing, or has another kind. -/
def baseProblems (registry : TypeRegistry) (variation : String) (base : VariationBase)
    (variant : VariantDeclaration) : List SchemaProblem :=
  base.members.flatMap fun expected =>
    match variant.members.find? (·.name = expected.name) with
    | none => [.missingMember variant.name variation base.name expected.name]
    | some own =>
      match registry.resolve? expected.typeName, registry.resolve? own.typeName with
      | some e, some a =>
        if e = a then [] else [.memberKind variant.name variation base.name expected.name a e]
      | _, _ => []

def variationProblems (registry : TypeRegistry) (owner : Path) (name : String) (isKey : Bool)
    (base : Option VariationBase) (variants : List VariantDeclaration) : List SchemaProblem :=
  (if isKey then [.keyVariation name owner] else []) ++
    (if variants.isEmpty then [.noVariants name owner] else []) ++
    (repeats VariantDeclaration.tag variants).map (fun v => .repeatedTag name owner v.tag) ++
    match base with
    | none => []
    | some b =>
      (if !b.isAbstract && !variants.isEmpty then [.concreteBase b.name name] else []) ++
        variants.flatMap (baseProblems registry name b)

/-- What follows from a path, or the problem of a text that is none. -/
def withPath (text : String) (f : Path → Resolution) : Resolution :=
  match Path.parse text with
  | .error p => .problem (.path p)
  | .ok path => f path

/-- What one declaration comes to. -/
def resolution (registry : TypeRegistry) : Declaration → Resolution
  | .aggregate path typeName members =>
    withPath path fun path => registry.aggregate path typeName members
  | .child name owner isKey typeName members => withPath owner fun owner =>
    ⟨if isKey then [.keyChild name owner] else [], [], []⟩ ++
      registry.owned owner name name .child typeName members
  | .children name owner typeName members => withPath owner fun owner =>
    registry.owned owner name name .children typeName members
  | .variation name owner isKey base variants => withPath owner fun owner =>
    ⟨registry.variationProblems owner name isKey base variants, [], []⟩ ++
      .concat (variants.map fun v =>
        registry.owned owner v.name name (.variant v.tag) v.typeName v.members)
  | .reference name owner target isKey isDisplayName => withPath owner fun owner =>
    match Path.parse target with
    | .error p => .problem (.target name owner p)
    | .ok target => ⟨[], [], [⟨owner, target, name, .reference isKey isDisplayName⟩]⟩

end TypeRegistry

/-- A graph of aggregates for which entities exist. -/
structure Schema where
  graph : AggregateGraph
  entities : List Entity
  derived : graph.entities = .ok entities

namespace Schema

def node? (s : Schema) (path : Path) : Option Aggregate := s.graph.node? path

/-- The aggregates in the order of their entities, owners before what they own. -/
def aggregates (s : Schema) : List Aggregate := s.entities.filterMap fun e => s.node? e.path

def roots (s : Schema) : List Aggregate := s.aggregates.filter s.graph.isRoot

def entity? (s : Schema) (path : Path) : Option Entity := s.entities.find? (·.path = path)

def views? (s : Schema) (path : Path) : Option Views := (s.node? path).map s.graph.views

def columnCount (s : Schema) : Nat :=
  s.entities.foldr (fun e n => e.allColumns.length + n) 0

end Schema

namespace Draft

/-- Registers the enumerations, those without problems. -/
def registerEnumerations (registry : TypeRegistry) :
    List EnumerationDeclaration → List SchemaProblem × TypeRegistry
  | [] => ([], registry)
  | d :: ds =>
    match Enumeration.ofItems d.name d.items with
    | .ok e => registerEnumerations (registry.registerEnumeration e) ds
    | .error ps =>
      let (rest, registry) := registerEnumerations registry ds
      (ps.map .enumeration ++ rest, registry)

/-- The registry in which the draft's members are resolved. -/
def registry (d : Draft) (registry : TypeRegistry) : TypeRegistry :=
  (registerEnumerations registry d.enumerations).2

def resolution (d : Draft) (base : TypeRegistry) : Resolution :=
  .concat (d.declarations.map (d.registry base).resolution)

/-- The problems found before the graph is built. -/
def declarationProblems (d : Draft) (base : TypeRegistry) : List SchemaProblem :=
  (registerEnumerations base d.enumerations).1 ++ (d.resolution base).problems ++
    (repeats Aggregate.path (d.resolution base).aggregates).map (fun a => .repeatedPath a.path)

/-- The graph of the draft: of two aggregates with one path the first counts. -/
def graph (d : Draft) (base : TypeRegistry) : Except (List (GraphProblem Path)) AggregateGraph :=
  Graph.build (firsts Aggregate.path (d.resolution base).aggregates) (d.resolution base).edges

/-- Resolves a draft into a schema, or finds everything that is wrong with its declarations and its
graph; entities are looked at only if nothing is. -/
def resolve (d : Draft) (base : TypeRegistry) : Except (List SchemaProblem) Schema :=
  let front := d.declarationProblems base
  match d.graph base with
  | .error ps => .error (front ++ ps.map .graph)
  | .ok g =>
    if front.isEmpty then
      match h : g.entities with
      | .ok es => .ok ⟨g, es, h⟩
      | .error ps => .error (ps.map .entity)
    else .error front

end Draft

end AggregateSchema
