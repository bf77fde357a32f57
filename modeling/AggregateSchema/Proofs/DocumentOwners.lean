import AggregateSchema.Document
import AggregateSchema.Proofs.DeclarationOrder

/-! The owners that a document names are aggregates that it declares. -/
namespace AggregateSchema

namespace Declaration

/-- The texts of the paths of the aggregates that a declaration adds. A variant lies directly below the
owner of its variation. -/
def declaredTexts : Declaration → List String
  | .aggregate path .. => [path]
  | .child name owner .. => [Document.below owner name]
  | .children name owner .. => [Document.below owner name]
  | .variation _ owner _ _ variants => variants.map fun v => Document.below owner v.name
  | .reference .. => []

end Declaration

namespace Draft

/-- The texts of the owners that are named. -/
def ownerTexts (d : Draft) : List String := d.declarations.filterMap Declaration.owner?

/-- The texts of the paths of all aggregates that are added. -/
def declaredTexts (d : Draft) : List String := d.declarations.flatMap Declaration.declaredTexts

@[simp] theorem ownerTexts_append (d e : Draft) :
    (d ++ e).ownerTexts = d.ownerTexts ++ e.ownerTexts := by
  simp [ownerTexts]

@[simp] theorem declaredTexts_append (d e : Draft) :
    (d ++ e).declaredTexts = d.declaredTexts ++ e.declaredTexts := by
  simp [declaredTexts]

/-- Every owner that is named is declared, or is one of some that are declared elsewhere. -/
def OwnersIn (d : Draft) (outer : List String) : Prop := d.ownerTexts ⊆ outer ++ d.declaredTexts

variable {d e : Draft} {outer more : List String}

theorem ownersIn_of_ownerTexts_eq_nil (h : d.ownerTexts = []) : d.OwnersIn outer := by
  simp [OwnersIn, h]

theorem OwnersIn.append (hd : d.OwnersIn outer) (he : e.OwnersIn outer) : (d ++ e).OwnersIn outer := by
  intro t ht
  rw [ownerTexts_append, List.mem_append] at ht
  rw [declaredTexts_append, List.mem_append, List.mem_append]
  rcases ht with ht | ht
  · exact (List.mem_append.1 (hd ht)).imp_right Or.inl
  · exact (List.mem_append.1 (he ht)).imp_right Or.inr

/-- What is declared next may own what was declared before. -/
theorem OwnersIn.enclose (hd : d.OwnersIn more) (hmore : more ⊆ e.declaredTexts)
    (he : e.OwnersIn outer) : (d ++ e).OwnersIn outer := by
  intro t ht
  rw [ownerTexts_append, List.mem_append] at ht
  rw [declaredTexts_append, List.mem_append, List.mem_append]
  rcases ht with ht | ht
  · rcases List.mem_append.1 (hd ht) with ht | ht
    · exact Or.inr (Or.inr (hmore ht))
    · exact Or.inr (Or.inl ht)
  · exact (List.mem_append.1 (he ht)).imp_right Or.inr

theorem OwnersIn.mono (hd : d.OwnersIn outer) (h : outer ⊆ more) : d.OwnersIn more :=
  List.Subset.trans hd (List.append_subset.2
    ⟨List.subset_append_of_subset_left _ h, List.subset_append_right _ _⟩)

end Draft

namespace Document

open Xml (Element)

/-- A declaration names its owner. -/
theorem ownersIn_ofDeclaration {x : Declaration} {owner : String} (h : x.owner? = some owner) :
    (Reading.ofDeclaration x).draft.OwnersIn [owner] := by
  simp [Draft.OwnersIn, Draft.ownerTexts, Reading.ofDeclaration, h]

/-- The variants of a variation are those that were read, with more members perhaps. -/
theorem declaredTexts_variation (e : Element) (owner : String) (r : VariationReading) :
    ∃ x, (variation e owner r).draft = r.nested.draft ++ (Reading.ofDeclaration x).draft ∧
      x.owner? = some owner ∧ x.declaredTexts = r.variants.map fun v => below owner v.name := by
  refine ⟨_, rfl, rfl, ?_⟩
  rw [Declaration.declaredTexts]
  split
  · rw [List.map_map]
    rfl
  · rfl

mutual
/-- What one element inside an aggregate declares is owned by the aggregate or by what the element
declares. -/
theorem ownersIn_declared (owner : String) : ∀ e : Element, (declared owner e).draft.OwnersIn [owner]
  | ⟨name, attributes, children⟩ => by
    have hcontent := ownersIn_content (below owner name) children
    have hvariants := ownersIn_variationContent owner name children
    rw [declared]
    split
    · exact Draft.ownersIn_of_ownerTexts_eq_nil rfl
    split
    · exact Draft.ownersIn_of_ownerTexts_eq_nil rfl
    split
    · exact ownersIn_ofDeclaration rfl
    split
    · obtain ⟨x, hx, howner, hpaths⟩ :=
        declaredTexts_variation ⟨name, attributes, children⟩ owner (variationContent owner name children)
      rw [hx]
      refine hvariants.enclose ?_ (ownersIn_ofDeclaration howner)
      simp [Draft.declaredTexts, Reading.ofDeclaration, hpaths]
    · -- the aggregate is declared after its content
      dsimp only
      split <;>
        simp only [Reading.draft_append, Reading.draft_ofProblems, Reading.draft_outer,
          Draft.empty_append]
      · exact hcontent.enclose (List.Subset.refl _) (ownersIn_ofDeclaration rfl)
      · exact hcontent.enclose (List.Subset.refl _) (ownersIn_ofDeclaration rfl)

theorem ownersIn_content (owner : String) :
    ∀ es : List Element, (content owner es).draft.OwnersIn [owner]
  | [] => Draft.ownersIn_of_ownerTexts_eq_nil rfl
  | e :: es => (ownersIn_declared owner e).append (ownersIn_content owner es)

/-- What a variant declares is owned by the variant. -/
theorem ownersIn_variant (owner name : String) : ∀ e : Element,
    (variant owner name e).nested.draft.OwnersIn
      ((variant owner name e).variants.map fun v => below owner v.name)
  | ⟨elementName, attributes, children⟩ => by
    have hcontent := ownersIn_content (below owner elementName) children
    rw [variant]
    split
    · exact Draft.ownersIn_of_ownerTexts_eq_nil rfl
    split
    · exact Draft.ownersIn_of_ownerTexts_eq_nil rfl
    dsimp only
    split
    · exact Draft.ownersIn_of_ownerTexts_eq_nil rfl
    · exact hcontent

theorem ownersIn_variationContent (owner name : String) : ∀ es : List Element,
    (variationContent owner name es).nested.draft.OwnersIn
      ((variationContent owner name es).variants.map fun v => below owner v.name)
  | [] => Draft.ownersIn_of_ownerTexts_eq_nil rfl
  | e :: es => by
    have h := ownersIn_variant owner name e
    have hs := ownersIn_variationContent owner name es
    show Draft.OwnersIn (_ ++ _)
      (((variant owner name e).variants ++ (variationContent owner name es).variants).map _)
    rw [List.map_append]
    exact (h.mono (List.subset_append_left _ _)).append (hs.mono (List.subset_append_right _ _))
end

theorem ownersIn_topLevel (e : Element) : (topLevel e).draft.OwnersIn [] := by
  have hcontent := ownersIn_content (below "" e.name) e.children
  rw [topLevel]
  split
  · exact Draft.ownersIn_of_ownerTexts_eq_nil rfl
  · simp only [Reading.draft_append, Reading.draft_ofProblems, Reading.draft_outer,
      Draft.empty_append]
    exact hcontent.enclose (List.Subset.refl _) (Draft.ownersIn_of_ownerTexts_eq_nil rfl)

theorem ownersIn_ofElement (root : Element) : (ofElement root).draft.OwnersIn [] := by
  rw [ofElement]
  induction root.children with
  | nil => exact Draft.ownersIn_of_ownerTexts_eq_nil rfl
  | cons e es ih => exact (ownersIn_topLevel e).append ih

/-- Every owner that a document names is the path of an aggregate that it declares, whatever else is
wrong with the document. -/
theorem ownerTexts_subset :
    (∀ root : Element, (ofElement root).draft.ownerTexts ⊆ (ofElement root).draft.declaredTexts) ∧
      ∀ text, (read text).1.ownerTexts ⊆ (read text).1.declaredTexts := by
  refine ⟨ownersIn_ofElement, fun text => ?_⟩
  rw [read]
  split
  · exact List.Subset.refl _
  · exact ownersIn_ofElement _

/-- Orders with a variant that owns a reference, and with problems at two levels. -/
def orderText : String := "<schema><Order multiple='1'>" ++
  "<Payment variation='1'><Cash tag='1'><Note refTo='/Note'/></Cash><Card tag='x'/></Payment>" ++
  "<Line><Item/></Line></Order></schema>"

theorem ownerTexts_subset_orderText :
    ((read orderText).1.ownerTexts = ["/Order/Cash", "/Order", "/Order/Line", "/Order"] ∧
      (read orderText).1.declaredTexts =
        ["/Order/Cash", "/Order/Line/Item", "/Order/Line", "/Order"] ∧
      (read orderText).2.length = 2) ∧
    (read orderText).1.ownerTexts ⊆ (read orderText).1.declaredTexts :=
  ⟨by decide +kernel, ownerTexts_subset.2 orderText⟩

end Document

end AggregateSchema
