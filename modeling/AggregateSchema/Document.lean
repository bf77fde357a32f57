import AggregateSchema.Declaration
import AggregateSchema.Report
import AggregateSchema.Text.Int64
import AggregateSchema.Xml.Element

/-! Schema documents: what the elements of an XML text declare. -/
namespace AggregateSchema

inductive DocumentProblem where
  | xml (problem : Xml.XmlProblem)
  | repeatedRoot (path : String)
  | variationRoot (path : String)
  | forbiddenAttribute (path key : String)
  | keyChildren (name owner : String)
  | untagged (element variation owner : String)
  | badTag (text path : String)
  | badValue (text item enumeration : String)

def DocumentProblem.message : DocumentProblem → String
  | xml problem => problem.message
  | repeatedRoot path => s!"Root aggregate '{path}' cannot be multiple."
  | variationRoot path => s!"Root aggregate '{path}' cannot be a variation."
  | forbiddenAttribute path key => s!"Aggregate '{path}' cannot have attribute '{key}'."
  | keyChildren name owner => s!"Children '{name}' of '{owner}' cannot be a key."
  | untagged element variation owner =>
    s!"Element '{element}' inside variation '{variation}' of '{owner}' " ++
      "is neither a field nor a tagged variant."
  | badTag text path => s!"Tag '{text}' of variant '{path}' is not an integer."
  | badValue text item enumeration =>
    s!"Value '{text}' of item '{item}' in enumeration '{enumeration}' is not an integer."

/-- What some elements inside an aggregate come to: its scalar members, declarations, and
problems. -/
structure Reading where
  scalars : List ScalarDeclaration
  draft : Draft
  problems : List DocumentProblem

namespace Reading

def nothing : Reading := ⟨[], .empty, []⟩

def append (r s : Reading) : Reading :=
  ⟨r.scalars ++ s.scalars, r.draft ++ s.draft, r.problems ++ s.problems⟩

instance : Append Reading := ⟨append⟩

def ofScalar (s : ScalarDeclaration) : Reading := ⟨[s], .empty, []⟩

def ofDeclaration (d : Declaration) : Reading := ⟨[], ⟨[d], []⟩, []⟩

def ofEnumeration (d : EnumerationDeclaration) : Reading := ⟨[], ⟨[], [d]⟩, []⟩

def ofProblems (ps : List DocumentProblem) : Reading := ⟨[], .empty, ps⟩

/-- The same without scalar members, which belong to a nested aggregate. -/
def outer (r : Reading) : Reading := { r with scalars := [] }

@[simp] theorem draft_append (r s : Reading) : (r ++ s).draft = r.draft ++ s.draft := rfl

@[simp] theorem problems_append (r s : Reading) : (r ++ s).problems = r.problems ++ s.problems := rfl

@[simp] theorem draft_outer (r : Reading) : r.outer.draft = r.draft := rfl

@[simp] theorem draft_ofProblems (ps : List DocumentProblem) : (ofProblems ps).draft = .empty := rfl

theorem append_assoc (q r s : Reading) : q ++ r ++ s = q ++ (r ++ s) := by
  show append (append q r) s = append q (append r s)
  simp [append, Draft.append_assoc]

end Reading

/-- What the elements inside a variation come to: members of its base, its variants, and what is
nested in these. -/
structure VariationReading where
  base : List ScalarDeclaration
  variants : List VariantDeclaration
  nested : Reading

namespace VariationReading

def nothing : VariationReading := ⟨[], [], .nothing⟩

def append (r s : VariationReading) : VariationReading :=
  ⟨r.base ++ s.base, r.variants ++ s.variants, r.nested ++ s.nested⟩

instance : Append VariationReading := ⟨append⟩

end VariationReading

namespace Document

open Xml (Element)

/-- Spellings that turn a marker off. -/
def offSpellings : List String := ["false", "0"]

/-- A marker is on if it is there and not spelled off. -/
def flag (e : Element) (key : String) : Bool :=
  (e.attribute? key).any fun value => Text.trim value ∉ offSpellings

def table? (e : Element) : Option String := e.attribute? "table"

/-- Attributes that no aggregate may have. A key on a nested aggregate is found when the draft is
resolved. -/
def nestedForbidden : List String := ["type", "name", "refTo"]

def forbidden : List String := ["type", "key", "name", "refTo"]

def forbiddenProblems (keys : List String) (e : Element) (path : String) :
    List DocumentProblem :=
  (keys.filter e.has).map (.forbiddenAttribute path)

def scalar (e : Element) : ScalarDeclaration :=
  ⟨e.name, (e.attribute? "type").getD "", flag e "key", flag e "name", flag e "required"⟩

/-- The items of an enumeration; one whose value is no integer is left out. -/
def enumerationItems (enumeration : String) :
    List Element → List (String × Option Int) × List DocumentProblem
  | [] => ([], [])
  | e :: es =>
    let (items, problems) := enumerationItems enumeration es
    match e.attribute? "value" with
    | none => ((e.name, none) :: items, problems)
    | some text => match Text.trimmedInt64? text with
      | some value => ((e.name, some value) :: items, problems)
      | none => (items, .badValue text e.name enumeration :: problems)

def enumeration (e : Element) : Reading :=
  let (items, problems) := enumerationItems e.name e.children
  .ofEnumeration ⟨e.name, items⟩ ++ .ofProblems problems

/-- The members of the base that a variant does not declare itself, and then its own. -/
def inheritMembers (base : VariationBase) (v : VariantDeclaration) : VariantDeclaration :=
  { v with members :=
      base.members.filter (fun m => !v.members.any (·.name = m.name)) ++ v.members }

/-- A variation has a base if it declares members of one or says whether it is abstract. -/
def base? (e : Element) (members : List ScalarDeclaration) : Option VariationBase :=
  if !members.isEmpty || e.has "abstract" then
    some ⟨(table? e).getD e.name, flag e "abstract", members⟩
  else none

def variation (e : Element) (owner : String) (r : VariationReading) : Reading :=
  let base := base? e r.base
  let variants := match base with
    | some b => r.variants.map (inheritMembers b)
    | none => r.variants
  r.nested ++ .ofDeclaration (.variation e.name owner (flag e "key") base variants)

def below (owner name : String) : String := owner ++ "/" ++ name

mutual
/-- What one element inside the aggregate at `owner` declares. What is nested in an aggregate is
declared before it. -/
def declared (owner : String) : Element → Reading
  | ⟨name, attributes, children⟩ =>
    let e : Element := ⟨name, attributes, children⟩
    if e.has "type" then .ofScalar (scalar e)
    else if e.has "enum" then enumeration e
    else match e.attribute? "refTo" with
      | some target =>
        .ofDeclaration (.reference name owner target (flag e "key") (flag e "name"))
      | none =>
        if e.has "variation" then variation e owner (variationContent owner name children)
        else
          let path := below owner name
          let problems := forbiddenProblems nestedForbidden e path
          let inner := content path children
          if e.has "multiple" then
            .ofProblems (if e.has "key" then [.keyChildren name owner] else []) ++
              .ofProblems problems ++ inner.outer ++
              .ofDeclaration (.children name owner (table? e) inner.scalars)
          else
            .ofProblems problems ++ inner.outer ++
              .ofDeclaration (.child name owner (flag e "key") (table? e) inner.scalars)

/-- What the elements inside the aggregate at `owner` declare. -/
def content (owner : String) : List Element → Reading
  | [] => .nothing
  | e :: es => declared owner e ++ content owner es

/-- What one element inside a variation declares: a member of the base, or a variant. -/
def variant (owner name : String) : Element → VariationReading
  | ⟨elementName, attributes, children⟩ =>
    let e : Element := ⟨elementName, attributes, children⟩
    if e.has "type" then ⟨[scalar e], [], .nothing⟩
    else match e.attribute? "tag" with
      | none => ⟨[], [], .ofProblems [.untagged elementName name owner]⟩
      | some text =>
        let path := below owner elementName
        match Text.trimmedInt64? text with
        | none => ⟨[], [], .ofProblems [.badTag text path]⟩
        | some tag =>
          let inner := content path children
          ⟨[], [⟨elementName, tag, table? e, inner.scalars⟩],
            .ofProblems (forbiddenProblems forbidden e path) ++ inner.outer⟩

def variationContent (owner name : String) : List Element → VariationReading
  | [] => .nothing
  | e :: es => variant owner name e ++ variationContent owner name es
end

/-- What one element directly inside the document declares: an enumeration or a root aggregate. -/
def topLevel (e : Element) : Reading :=
  if e.has "enum" then enumeration e
  else
    let path := below "" e.name
    let inner := content path e.children
    .ofProblems (if e.has "multiple" then [.repeatedRoot path] else []) ++
      .ofProblems (if e.has "variation" then [.variationRoot path] else []) ++
      .ofProblems (forbiddenProblems forbidden e path) ++ inner.outer ++
      .ofDeclaration (.aggregate path (table? e) inner.scalars)

/-- What a whole tree declares. Its root only holds the other elements. -/
def ofElement (root : Element) : Reading :=
  root.children.foldr (fun e r => topLevel e ++ r) .nothing

/-- What a text declares. A malformed one declares nothing. -/
def read (text : String) : Draft × List DocumentProblem :=
  match Element.parse text with
  | .error p => (.empty, [.xml p])
  | .ok root => let r := ofElement root; (r.draft, r.problems)

theorem read_of_parse {text : String} {root : Element} (h : Element.parse text = .ok root) :
    read text = ((ofElement root).draft, (ofElement root).problems) := by
  rw [read, h]

end Document

end AggregateSchema
