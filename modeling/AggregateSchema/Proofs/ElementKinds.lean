import AggregateSchema.Document

/-! What the elements of a document stand for, and where. -/
namespace AggregateSchema.Document

open Xml (Element)

/-- What an element directly inside an aggregate stands for. -/
inductive ElementKind where
  | field
  | enumeration
  | reference (target : String)
  | variation
  | children
  | child

def kind (e : Element) : ElementKind :=
  if e.has "type" then .field
  else if e.has "enum" then .enumeration
  else match e.attribute? "refTo" with
    | some target => .reference target
    | none =>
      if e.has "variation" then .variation
      else if e.has "multiple" then .children
      else .child

/-- The tag of an element directly inside a variation, if the element is a variant. -/
def variantTag? (e : Element) : Option Int :=
  if e.has "type" then none else (e.attribute? "tag").bind Text.trimmedInt64?

/-- The fields among some elements, in order. -/
def fields (es : List Element) : List ScalarDeclaration := (es.filter (·.has "type")).map scalar

/-- An element stands directly inside the aggregate at a path. The elements inside an enumeration, a
field or a reference do not, nor do those inside an element of a variation that is no variant. -/
inductive StandsIn (root : Element) : String → Element → Prop where
  | top {e c : Element} (he : e ∈ root.children) (h : e.has "enum" = false) (hc : c ∈ e.children) :
    StandsIn root (below "" e.name) c
  | nested {owner : String} {e c : Element} (he : StandsIn root owner e)
    (h : kind e = .children ∨ kind e = .child) (hc : c ∈ e.children) :
    StandsIn root (below owner e.name) c
  | variant {owner : String} {e v c : Element} (he : StandsIn root owner e)
    (h : kind e = .variation) (hv : v ∈ e.children) (ht : (variantTag? v).isSome = true)
    (hc : c ∈ v.children) : StandsIn root (below owner v.name) c

/-- An element is of its kind by what it has. -/
theorem has_of_kind (e : Element) : match kind e with
    | .field => e.has "type" = true
    | .enumeration => e.has "type" = false ∧ e.has "enum" = true
    | .variation => e.has "variation" = true
    | .children => e.has "multiple" = true
    | _ => True := by
  cases ht : e.has "type" with
  | true => simp [kind, ht]
  | false =>
  cases hn : e.has "enum" with
  | true => simp [kind, ht, hn]
  | false =>
  cases hr : e.attribute? "refTo" with
  | some target => simp [kind, ht, hn, hr]
  | none =>
  cases hv : e.has "variation" with
  | true => simp [kind, ht, hn, hr, hv]
  | false => cases hm : e.has "multiple" <;> simp [kind, ht, hn, hr, hv, hm]

theorem kind_eq_field_iff (e : Element) : kind e = .field ↔ e.has "type" = true := by
  refine ⟨fun h => ?_, fun h => by rw [kind, if_pos h]⟩
  have htype := has_of_kind e
  rwa [h] at htype

theorem declared_eq (owner : String) (e : Element) : declared owner e =
    match kind e with
    | .field => .ofScalar (scalar e)
    | .enumeration => enumeration e
    | .reference target =>
      .ofDeclaration (.reference e.name owner target (flag e "key") (flag e "name"))
    | .variation => variation e owner (variationContent owner e.name e.children)
    | .children =>
      .ofProblems (if e.has "key" then [.keyChildren e.name owner] else []) ++
        .ofProblems (forbiddenProblems nestedForbidden e (below owner e.name)) ++
        (content (below owner e.name) e.children).outer ++
        .ofDeclaration (.children e.name owner (table? e)
          (content (below owner e.name) e.children).scalars)
    | .child =>
      .ofProblems (forbiddenProblems nestedForbidden e (below owner e.name)) ++
        (content (below owner e.name) e.children).outer ++
        .ofDeclaration (.child e.name owner (flag e "key") (table? e)
          (content (below owner e.name) e.children).scalars) := by
  obtain ⟨name, attributes, children⟩ := e
  rw [declared, kind]
  split
  · rfl
  split
  · rfl
  cases Element.attribute? ⟨name, attributes, children⟩ "refTo" with
  | some target => rfl
  | none =>
    dsimp only
    split
    · rfl
    · split <;> rfl

/-- An element inside a variation is a field of the base, or a variant, or else it is refused. -/
theorem variant_cases (owner name : String) (e : Element) :
    (e.has "type" = true ∧ variantTag? e = none ∧
      variant owner name e = ⟨[scalar e], [], .nothing⟩) ∨
    (e.has "type" = false ∧ variantTag? e = none ∧
      ∃ problem, variant owner name e = ⟨[], [], .ofProblems [problem]⟩) ∨
    (e.has "type" = false ∧ ∃ tag, variantTag? e = some tag ∧
      variant owner name e =
        ⟨[], [⟨e.name, tag, table? e, (content (below owner e.name) e.children).scalars⟩],
          .ofProblems (forbiddenProblems forbidden e (below owner e.name)) ++
            (content (below owner e.name) e.children).outer⟩) := by
  obtain ⟨elementName, attributes, children⟩ := e
  rw [variant, variantTag?]
  split
  · rename_i htype
    exact Or.inl ⟨htype, rfl, rfl⟩
  · rename_i htype
    rw [Bool.not_eq_true] at htype
    refine Or.inr ?_
    cases Element.attribute? ⟨elementName, attributes, children⟩ "tag" with
    | none => exact Or.inl ⟨htype, rfl, _, rfl⟩
    | some text =>
      dsimp only [Option.bind_some]
      cases Text.trimmedInt64? text with
      | none => exact Or.inl ⟨htype, rfl, _, rfl⟩
      | some tag => exact Or.inr ⟨htype, tag, rfl, rfl⟩

end AggregateSchema.Document
