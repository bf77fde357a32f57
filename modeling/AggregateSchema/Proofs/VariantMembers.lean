import AggregateSchema.Proofs.ElementKinds
import AggregateSchema.Proofs.VariationBases

/-! The members that variants have from the base of their variation. -/
namespace AggregateSchema

def Declaration.isVariation : Declaration → Bool
  | .variation .. => true
  | _ => false

/-- A variation is complete if all its variants have the members of the base, if there is one. -/
def Declaration.IsComplete : Declaration → Prop
  | .variation _ _ _ (some b) variants =>
    ∀ v ∈ variants, ∀ m ∈ b.members, m.name ∈ v.members.map (·.name)
  | _ => True

def SchemaProblem.isMissingMember : SchemaProblem → Bool
  | .missingMember .. => true
  | _ => false

namespace TypeRegistry
variable (registry : TypeRegistry)

theorem any_isMissingMember_aggregate (path : Path) (typeName : Option String)
    (members : List ScalarDeclaration) :
    (registry.aggregate path typeName members).problems.any (·.isMissingMember) = false := by
  simp [aggregate, SchemaProblem.isMissingMember]

theorem any_isMissingMember_owned (owner : Path) (name relationName : String) (relation : Relation)
    (typeName : Option String) (members : List ScalarDeclaration) :
    (registry.owned owner name relationName relation typeName members).problems.any
      (·.isMissingMember) = false := by
  rw [owned]
  split
  · rfl
  · rw [Resolution.problems_append, List.append_nil, any_isMissingMember_aggregate]

theorem any_isMissingMember_baseProblems {b : VariationBase} {v : VariantDeclaration}
    (h : ∀ m ∈ b.members, m.name ∈ v.members.map (·.name)) (variation : String) :
    (registry.baseProblems variation b v).any (·.isMissingMember) = false := by
  rw [baseProblems, List.any_flatMap, List.any_eq_false]
  intro m hm
  obtain ⟨own, hown, hname⟩ := List.mem_map.1 (h m hm)
  split
  · rename_i hnone
    exact absurd hname (by simpa using List.find?_eq_none.1 hnone own hown)
  · split
    · split <;> simp [SchemaProblem.isMissingMember]
    · simp

theorem any_isMissingMember_withPath {f : Path → Resolution}
    (h : ∀ path, (f path).problems.any (·.isMissingMember) = false) (text : String) :
    (withPath text f).problems.any (·.isMissingMember) = false := by
  rw [withPath]
  split
  · rfl
  · exact h _

theorem any_isMissingMember_variationProblems {name : String} {base : Option VariationBase}
    {variants : List VariantDeclaration} (owner : Path) (isKey : Bool)
    (h : ∀ b, base = some b → ∀ v ∈ variants, ∀ m ∈ b.members, m.name ∈ v.members.map (·.name)) :
    (registry.variationProblems owner name isKey base variants).any (·.isMissingMember) = false := by
  have htags : ((repeats VariantDeclaration.tag variants).map fun v =>
      SchemaProblem.repeatedTag name owner v.tag).any (·.isMissingMember) = false := by
    rw [List.any_map]
    exact List.any_eq_false.2 fun _ _ => Bool.false_ne_true
  unfold variationProblems
  rw [List.any_append, List.any_append, List.any_append, htags]
  cases base with
  | none => cases isKey <;> cases variants <;> rfl
  | some b =>
    have hbase : (variants.flatMap (registry.baseProblems name b)).any (·.isMissingMember) = false := by
      rw [List.any_flatMap, List.any_eq_false]
      intro v hv
      simp [registry.any_isMissingMember_baseProblems (h b rfl v hv) name]
    rw [List.any_append, hbase]
    cases isKey <;> cases variants <;> cases b.isAbstract <;> rfl

theorem any_isMissingMember_resolution {x : Declaration} (h : x.IsComplete) :
    (registry.resolution x).problems.any (·.isMissingMember) = false := by
  cases x with
  | aggregate path typeName members =>
    exact any_isMissingMember_withPath (registry.any_isMissingMember_aggregate · typeName members) path
  | child name owner isKey typeName members =>
    refine any_isMissingMember_withPath (fun o => ?_) owner
    rw [Resolution.problems_append, List.any_append, any_isMissingMember_owned, Bool.or_false]
    cases isKey <;> rfl
  | children name owner typeName members =>
    exact any_isMissingMember_withPath (registry.any_isMissingMember_owned · name name _ typeName _)
      owner
  | reference name owner target isKey isDisplayName =>
    refine any_isMissingMember_withPath (fun o => ?_) owner
    split <;> rfl
  | variation name owner isKey base variants =>
    refine any_isMissingMember_withPath (fun o => ?_) owner
    have hbase : ∀ b, base = some b → ∀ v ∈ variants, ∀ m ∈ b.members,
        m.name ∈ v.members.map (·.name) := by
      rintro b rfl
      exact h
    have hvariants : ((variants.map fun v => registry.owned o v.name name (.variant v.tag) v.typeName
        v.members).flatMap (·.problems)).any (·.isMissingMember) = false := by
      rw [List.flatMap_map, List.any_flatMap, List.any_eq_false]
      exact fun v _ => by simp [any_isMissingMember_owned]
    rw [Resolution.problems_append, List.any_append, Resolution.problems_concat, hvariants]
    exact Bool.or_eq_false_iff.2
      ⟨registry.any_isMissingMember_variationProblems o isKey hbase, rfl⟩

end TypeRegistry

namespace Draft

theorem any_isMissingMember_registerEnumerations (registry : TypeRegistry)
    (ds : List EnumerationDeclaration) :
    (registerEnumerations registry ds).1.any (·.isMissingMember) = false := by
  induction ds generalizing registry with
  | nil => rfl
  | cons x ds ih =>
    unfold registerEnumerations
    split
    · exact ih _
    · rw [List.any_append, ih, List.any_map, Bool.or_false]
      exact List.any_eq_false.2 fun _ _ => Bool.false_ne_true

/-- Where all variations are complete, no member is missing. -/
theorem any_isMissingMember_of_resolve {d : Draft} (h : ∀ x ∈ d.declarations, x.IsComplete)
    {registry : TypeRegistry} {ps : List SchemaProblem} (hps : d.resolve registry = .error ps) :
    ps.any (·.isMissingMember) = false := by
  have hfront : (d.declarationProblems registry).any (·.isMissingMember) = false := by
    have hpaths : ((repeats Aggregate.path (d.resolution registry).aggregates).map fun a =>
        SchemaProblem.repeatedPath a.path).any (·.isMissingMember) = false := by
      rw [List.any_map]
      exact List.any_eq_false.2 fun _ _ => Bool.false_ne_true
    have hdeclared : (d.resolution registry).problems.any (·.isMissingMember) = false := by
      rw [resolution, Resolution.problems_concat, List.flatMap_map, List.any_flatMap,
        List.any_eq_false]
      intro x hx
      simp [(d.registry registry).any_isMissingMember_resolution (h x hx)]
    rw [declarationProblems, List.any_append, List.any_append, hpaths, hdeclared,
      any_isMissingMember_registerEnumerations]
    rfl
  simp only [resolve] at hps
  split at hps
  · cases hps
    rw [List.any_append, hfront, List.any_map, Bool.false_or]
    exact List.any_eq_false.2 fun _ _ => Bool.false_ne_true
  · split at hps
    · split at hps
      · cases hps
      · cases hps
        rw [List.any_map]
        exact List.any_eq_false.2 fun _ _ => Bool.false_ne_true
    · cases hps
      exact hfront

end Draft

namespace Document

open Xml (Element)

/-- What is nested in a variation adds no field to its owner. -/
theorem scalars_nested (owner name : String) (es : List Element) :
    (variationContent owner name es).nested.scalars = [] := by
  induction es with
  | nil => rfl
  | cons e es ih =>
    show (variant owner name e).nested.scalars ++ (variationContent owner name es).nested.scalars = []
    rw [ih]
    rcases variant_cases owner name e with ⟨-, -, he⟩ | ⟨-, -, _, he⟩ | ⟨-, _, -, he⟩
    · rw [he]
      rfl
    · rw [he]
      rfl
    · rw [he]
      rfl

theorem scalars_declared (owner : String) (e : Element) :
    (declared owner e).scalars = if e.has "type" then [scalar e] else [] := by
  by_cases ht : e.has "type" = true
  · rw [if_pos ht, declared_eq, (kind_eq_field_iff e).2 ht]
    rfl
  · rw [if_neg ht, declared_eq]
    cases hk : kind e with
    | field => exact absurd ((kind_eq_field_iff e).1 hk) ht
    | variation => exact congrArg (· ++ []) (scalars_nested owner e.name e.children)
    | _ => rfl

/-- The fields of an aggregate are those of the elements directly inside it. -/
theorem scalars_content (owner : String) (es : List Element) :
    (content owner es).scalars = fields es := by
  induction es with
  | nil => rfl
  | cons e es ih =>
    show (declared owner e).scalars ++ (content owner es).scalars = fields (e :: es)
    rw [scalars_declared, ih, fields, fields, List.filter_cons]
    split <;> rfl

theorem base_variationContent (owner name : String) (es : List Element) :
    (variationContent owner name es).base = fields es := by
  induction es with
  | nil => rfl
  | cons e es ih =>
    show (variant owner name e).base ++ (variationContent owner name es).base = fields (e :: es)
    rw [ih, fields, fields, List.filter_cons]
    rcases variant_cases owner name e with ⟨ht, -, he⟩ | ⟨ht, -, _, he⟩ | ⟨ht, _, -, he⟩ <;>
      rw [he, ht] <;> rfl

/-- A variant without what it has from a base. -/
def ownVariant? (e : Element) : Option VariantDeclaration :=
  (variantTag? e).map fun tag => ⟨e.name, tag, table? e, fields e.children⟩

theorem variants_variationContent (owner name : String) (es : List Element) :
    (variationContent owner name es).variants = es.filterMap ownVariant? := by
  induction es with
  | nil => rfl
  | cons e es ih =>
    show (variant owner name e).variants ++ (variationContent owner name es).variants = _
    rw [ih, List.filterMap_cons, ownVariant?]
    rcases variant_cases owner name e with ⟨-, ht, he⟩ | ⟨-, ht, _, he⟩ | ⟨-, tag, ht, he⟩
    · rw [he, ht]
      rfl
    · rw [he, ht]
      rfl
    · rw [he, ht, scalars_content]
      rfl

/-- The fields of a base that a variant does not declare again, and then its own. -/
def carried (base own : List ScalarDeclaration) : List ScalarDeclaration :=
  base.filter (fun m => m.name ∉ own.map (·.name)) ++ own

/-- A variant as it is declared by an element inside a variation, with what it has from the base. -/
structure IsVariantOf (base : List ScalarDeclaration) (e : Element) (v : VariantDeclaration) :
    Prop where
  name : v.name = e.name
  tag : variantTag? e = some v.tag
  typeName : v.typeName = table? e
  members : v.members = carried base (fields e.children)
  carries : ∀ m ∈ base, m.name ∈ v.members.map (·.name)
  wins : ∀ m ∈ fields e.children,
    v.members.filter (·.name = m.name) = (fields e.children).filter (·.name = m.name)

/-- A variation as it is declared by an element. -/
structure IsVariationOf (e : Element) (base : Option VariationBase)
    (variants : List VariantDeclaration) : Prop where
  base_eq : base = base? e (fields e.children)
  members_eq : base.elim [] (·.members) = fields e.children
  variants : List.Forall₂ (IsVariantOf (fields e.children))
    (e.children.filter fun c => (variantTag? c).isSome) variants

theorem name_mem_carried {base own : List ScalarDeclaration} {m : ScalarDeclaration} (hm : m ∈ base) :
    m.name ∈ (carried base own).map (·.name) := by
  rw [carried, List.map_append, List.mem_append]
  by_cases h : m.name ∈ own.map (·.name)
  · exact Or.inr h
  · exact Or.inl (List.mem_map_of_mem (List.mem_filter.2 ⟨hm, decide_eq_true h⟩))

theorem filter_carried_of_mem {base own : List ScalarDeclaration} {m : ScalarDeclaration}
    (hm : m ∈ own) : (carried base own).filter (·.name = m.name) = own.filter (·.name = m.name) := by
  rw [carried, List.filter_append, List.filter_filter, List.filter_eq_nil_iff.2, List.nil_append]
  intro b _ hb
  rw [Bool.and_eq_true, decide_eq_true_eq, decide_eq_true_eq] at hb
  exact hb.2 (hb.1 ▸ List.mem_map_of_mem hm)

/-- A base holds the fields that it is read from, and without any there may be none. -/
theorem members_base? (e : Element) (members : List ScalarDeclaration) :
    (base? e members).elim [] (·.members) = members := by
  rw [base?]
  split
  · rfl
  · rename_i h
    cases members with
    | nil => rfl
    | cons m ms => simp at h

def carry (base : List ScalarDeclaration) (v : VariantDeclaration) : VariantDeclaration :=
  { v with members := carried base v.members }

theorem inheritMembers_eq (b : VariationBase) (v : VariantDeclaration) :
    inheritMembers b v = carry b.members v := by
  rw [inheritMembers, carry, carried]
  congr 2
  refine List.filter_congr fun m _ => ?_
  rw [decide_not, Bool.not_inj_iff, Bool.eq_iff_iff]
  simp only [List.any_eq_true, decide_eq_true_eq, List.mem_map]

/-- Whether there is a base or none, every variant has what it carries from it. -/
theorem variation_eq (e : Element) (owner : String) (r : VariationReading) :
    variation e owner r = r.nested ++ .ofDeclaration (.variation e.name owner (flag e "key")
      (base? e r.base) (r.variants.map (carry r.base))) := by
  have hb := members_base? e r.base
  rw [variation]
  cases h : base? e r.base with
  | none =>
    have hcarry : r.variants.map (carry r.base) = r.variants := by
      rw [← hb, h]
      exact List.map_id _
    rw [hcarry]
  | some b =>
    have hcarry : r.variants.map (inheritMembers b) = r.variants.map (carry r.base) := by
      rw [← hb, h]
      exact List.map_congr_left fun v _ => inheritMembers_eq b v
    rw [← hcarry]

theorem isVariantOf_carry {base : List ScalarDeclaration} {e : Element} {v : VariantDeclaration}
    (h : ownVariant? e = some v) : IsVariantOf base e (carry base v) := by
  obtain ⟨tag, htag, rfl⟩ := Option.map_eq_some_iff.1 h
  exact ⟨rfl, htag, rfl, rfl, fun _ => name_mem_carried, fun _ => filter_carried_of_mem⟩

theorem forall₂_isVariantOf (base : List ScalarDeclaration) (es : List Element) :
    List.Forall₂ (IsVariantOf base) (es.filter fun e => (variantTag? e).isSome)
      ((es.filterMap ownVariant?).map (carry base)) := by
  induction es with
  | nil => exact .nil
  | cons e es ih =>
    cases htag : variantTag? e with
    | none =>
      have hv : ownVariant? e = none := by rw [ownVariant?, htag]; rfl
      rwa [List.filter_cons_of_neg (by simp [htag]), List.filterMap_cons_none hv]
    | some tag =>
      have hv : ownVariant? e = some ⟨e.name, tag, table? e, fields e.children⟩ := by
        rw [ownVariant?, htag]
        rfl
      rw [List.filter_cons_of_pos (by simp [htag]), List.filterMap_cons_some hv, List.map_cons]
      exact .cons (isVariantOf_carry hv) ih

/-- What an element comes to that is a variation. -/
theorem exists_isVariationOf {e : Element} (h : kind e = .variation) (owner : String) :
    ∃ base variants, IsVariationOf e base variants ∧ (declared owner e).draft =
      (variationContent owner e.name e.children).nested.draft ++
        ⟨[.variation e.name owner (flag e "key") base variants], []⟩ := by
  refine ⟨base? e (fields e.children), (e.children.filterMap ownVariant?).map
    (carry (fields e.children)), ⟨rfl, members_base? e _, forall₂_isVariantOf _ _⟩, ?_⟩
  rw [declared_eq, h]
  show (variation e owner _).draft = _
  rw [variation_eq, base_variationContent, variants_variationContent]
  rfl

theorem declarations_enumeration (e : Element) : (enumeration e).draft.declarations = [] := by
  rw [enumeration]
  cases enumerationItems e.name e.children
  rfl

/-- What an element declares that is no variation: itself after its content, if it has any. -/
theorem declarations_cases {e : Element} (h : kind e ≠ .variation) (owner : String) :
    ((kind e = .children ∨ kind e = .child) ∧ ∃ x : Declaration, x.isVariation = false ∧
      (declared owner e).draft.declarations =
        (content (below owner e.name) e.children).draft.declarations ++ [x]) ∨
    ((kind e ≠ .children ∧ kind e ≠ .child) ∧
      ∀ x ∈ (declared owner e).draft.declarations, x.isVariation = false) := by
  rw [declared_eq]
  cases hk : kind e with
  | field => exact Or.inr ⟨⟨nofun, nofun⟩, nofun⟩
  | enumeration => exact Or.inr ⟨⟨nofun, nofun⟩, by simp [declarations_enumeration]⟩
  | reference target =>
    refine Or.inr ⟨⟨nofun, nofun⟩, fun x hx => ?_⟩
    obtain rfl := List.mem_singleton.1 hx
    rfl
  | variation => exact absurd hk h
  | children => exact Or.inl ⟨Or.inl rfl, _, rfl, rfl⟩
  | child => exact Or.inl ⟨Or.inr rfl, _, rfl, rfl⟩

theorem declarations_content (owner : String) (es : List Element) :
    (content owner es).draft.declarations =
      es.flatMap fun e => (declared owner e).draft.declarations := by
  induction es with
  | nil => rfl
  | cons e es ih => exact congrArg (_ ++ ·) ih

/-- Inside a variation only the content of variants is nested. -/
theorem declarations_nested (owner name : String) (es : List Element) :
    (variationContent owner name es).nested.draft.declarations =
      (es.filter fun e => (variantTag? e).isSome).flatMap fun e =>
        (content (below owner e.name) e.children).draft.declarations := by
  induction es with
  | nil => rfl
  | cons e es ih =>
    show (variant owner name e).nested.draft.declarations ++
      (variationContent owner name es).nested.draft.declarations = _
    rw [ih, List.filter_cons]
    rcases variant_cases owner name e with ⟨-, ht, he⟩ | ⟨-, ht, _, he⟩ | ⟨-, tag, ht, he⟩
    · rw [he, ht]
      rfl
    · rw [he, ht]
      rfl
    · rw [he, ht]
      rfl

theorem declarations_topLevel {e : Element} (h : e.has "enum" = false) : ∃ x : Declaration,
    x.isVariation = false ∧ (topLevel e).draft.declarations =
      (content (below "" e.name) e.children).draft.declarations ++ [x] := by
  rw [topLevel, if_neg (by simp [h])]
  exact ⟨_, rfl, rfl⟩

theorem declarations_ofElement (root : Element) : (ofElement root).draft.declarations =
    root.children.flatMap fun e => (topLevel e).draft.declarations := by
  rw [ofElement]
  induction root.children with
  | nil => rfl
  | cons e es ih => exact congrArg (_ ++ ·) ih

/-- What stands in a document is declared by it. -/
theorem StandsIn.declarations_subset {root : Element} {owner : String} {e : Element}
    (h : StandsIn root owner e) :
    (declared owner e).draft.declarations ⊆ (ofElement root).draft.declarations := by
  have hcontent : ∀ {owner : String} {e : Element} {es : List Element}, e ∈ es →
      (declared owner e).draft.declarations ⊆ (content owner es).draft.declarations := by
    intro owner e es he x hx
    rw [declarations_content]
    exact List.mem_flatMap.2 ⟨e, he, hx⟩
  induction h with
  | @top e c he h hc =>
    obtain ⟨x, -, htop⟩ := declarations_topLevel h
    intro y hy
    rw [declarations_ofElement]
    refine List.mem_flatMap.2 ⟨e, he, ?_⟩
    rw [htop]
    exact List.mem_append_left _ (hcontent hc hy)
  | @nested owner e c he h hc ih =>
    have hk : kind e ≠ .variation := fun hk => by simp [hk] at h
    rcases declarations_cases hk owner with ⟨-, x, -, hx⟩ | ⟨hno, -⟩
    · exact fun y hy => ih (hx ▸ List.mem_append_left _ (hcontent hc hy))
    · exact absurd h (not_or.2 hno)
  | @variant owner e v c he h hv ht hc ih =>
    obtain ⟨base, variants, -, hd⟩ := exists_isVariationOf h owner
    intro y hy
    apply ih
    rw [hd, Draft.declarations_append, declarations_nested]
    exact List.mem_append_left _ (List.mem_flatMap.2 ⟨v, List.mem_filter.2 ⟨hv, ht⟩, hcontent hc hy⟩)

/-- Every variation that is declared is an element of the document. -/
def IsRead (root : Element) (x : Declaration) : Prop :=
  x.isVariation = true → ∃ owner e base variants, StandsIn root owner e ∧ kind e = .variation ∧
    IsVariationOf e base variants ∧ x = .variation e.name owner (flag e "key") base variants

mutual
theorem isRead_declared (root : Element) (owner : String) : ∀ e : Element, StandsIn root owner e →
    ∀ x ∈ (declared owner e).draft.declarations, IsRead root x
  | ⟨name, attributes, children⟩ => by
    intro he x hx
    have hcontent := isRead_content root (below owner name) children
    have hvariants := isRead_variants root children
    by_cases hk : kind ⟨name, attributes, children⟩ = .variation
    · obtain ⟨base, variants, hv, hd⟩ := exists_isVariationOf hk owner
      rw [hd, Draft.declarations_append, declarations_nested, List.mem_append] at hx
      rcases hx with hx | hx
      · obtain ⟨v, hmem, hx⟩ := List.mem_flatMap.1 hx
        obtain ⟨hmem, ht⟩ := List.mem_filter.1 hmem
        exact hvariants owner v hmem (fun c hc => he.variant hk hmem ht hc) x hx
      · obtain rfl := List.mem_singleton.1 hx
        exact fun _ => ⟨owner, _, base, variants, he, hk, hv, rfl⟩
    · rcases declarations_cases hk owner with ⟨hnested, y, hy, hd⟩ | ⟨-, hno⟩
      · rw [hd, List.mem_append] at hx
        rcases hx with hx | hx
        · exact hcontent (fun c hc => he.nested hnested hc) x hx
        · obtain rfl := List.mem_singleton.1 hx
          exact fun hx => by simp [hy] at hx
      · exact fun h => by simp [hno x hx] at h

theorem isRead_content (root : Element) (owner : String) : ∀ es : List Element,
    (∀ e ∈ es, StandsIn root owner e) → ∀ x ∈ (content owner es).draft.declarations, IsRead root x
  | [] => by simp [content, Reading.nothing, Draft.empty]
  | e :: es => by
    intro he x hx
    rcases List.mem_append.1 hx with hx | hx
    · exact isRead_declared root owner e (he e List.mem_cons_self) x hx
    · exact isRead_content root owner es (fun c hc => he c (List.mem_cons_of_mem e hc)) x hx

theorem isRead_variants (root : Element) : ∀ (es : List Element) (owner : String), ∀ v ∈ es,
    (∀ c ∈ v.children, StandsIn root (below owner v.name) c) →
    ∀ x ∈ (content (below owner v.name) v.children).draft.declarations, IsRead root x
  | [] => by simp
  | ⟨name, attributes, children⟩ :: es => by
    intro owner v hv
    rcases List.mem_cons.1 hv with rfl | hv
    · exact isRead_content root (below owner name) children
    · exact isRead_variants root es owner v hv
end

theorem isRead_ofElement (root : Element) : ∀ x ∈ (ofElement root).draft.declarations,
    IsRead root x := by
  intro x hx
  rw [declarations_ofElement] at hx
  obtain ⟨e, he, hx⟩ := List.mem_flatMap.1 hx
  cases henum : e.has "enum" with
  | true =>
    rw [topLevel, if_pos henum, declarations_enumeration] at hx
    cases hx
  | false =>
    obtain ⟨y, hy, hd⟩ := declarations_topLevel henum
    rw [hd, List.mem_append] at hx
    rcases hx with hx | hx
    · exact isRead_content root _ e.children (fun c hc => .top he henum hc) x hx
    · obtain rfl := List.mem_singleton.1 hx
      exact fun hx => by simp [hy] at hx

/-- What is read of a variation is complete. -/
theorem IsVariationOf.isComplete {e : Element} {base : Option VariationBase}
    {variants : List VariantDeclaration} (h : IsVariationOf e base variants) (owner : String)
    (isKey : Bool) : (Declaration.variation e.name owner isKey base variants).IsComplete := by
  cases base with
  | none => trivial
  | some b =>
    have hb : b.members = fields e.children := h.members_eq
    intro v hv m hm
    obtain ⟨i, hi, rfl⟩ := List.getElem_of_mem hv
    have hvariant := h.variants.get (by rw [h.variants.length_eq]; exact hi) hi
    exact hvariant.carries m (hb ▸ hm)

theorem isComplete_of_mem_read {text : String} {x : Declaration}
    (hx : x ∈ (read text).1.declarations) : x.IsComplete := by
  rw [read] at hx
  split at hx
  · cases hx
  · rename_i root _
    have hread := isRead_ofElement root x hx
    cases x with
    | variation name owner isKey base variants =>
      obtain ⟨owner, e, base, variants, -, -, hv, heq⟩ := hread rfl
      exact heq ▸ hv.isComplete owner _
    | _ => trivial

/-- Every element that is a variation is declared with variants that have the whole base, whatever the
order of fields and variants and whatever is declared again; there are no other variations, and in
what was read no member is ever missing. -/
theorem variants_carry_base :
    (∀ text root, Element.parse text = .ok root →
      (∀ owner e, StandsIn root owner e → kind e = .variation → ∃ base variants,
        IsVariationOf e base variants ∧
          .variation e.name owner (flag e "key") base variants ∈ (read text).1.declarations) ∧
      ∀ x ∈ (read text).1.declarations, IsRead root x) ∧
    ∀ d : Draft, (∀ x ∈ d.declarations, ∃ text, x ∈ (read text).1.declarations) →
      ∀ registry problems, d.resolve registry = .error problems →
        problems.any (·.isMissingMember) = false := by
  refine ⟨fun text root h => ?_, fun d hd registry problems hp => ?_⟩
  · rw [read_of_parse h]
    refine ⟨fun owner e he hk => ?_, isRead_ofElement root⟩
    obtain ⟨base, variants, hv, hd⟩ := exists_isVariationOf hk owner
    refine ⟨base, variants, hv, he.declarations_subset ?_⟩
    rw [hd, Draft.declarations_append]
    exact List.mem_append_right _ (List.mem_singleton_self _)
  · refine Draft.any_isMissingMember_of_resolve (fun x hx => ?_) hp
    obtain ⟨text, hx⟩ := hd x hx
    exact isComplete_of_mem_read hx

/-- A variation with a variant between two fields, and another after both. The first declares the second
field, but as another kind, and the other declares none. -/
def paymentElement : Element := ⟨"Pay", [("variation", "1")], [
  ⟨"sum", [("type", "decimal")], []⟩, ⟨"Card", [("tag", "1")], [⟨"note", [("type", "word")], []⟩]⟩,
  ⟨"note", [("type", "date")], []⟩, ⟨"Cash", [("tag", "2")], []⟩]⟩

def paymentRoot : Element := ⟨"all", [], [⟨"Order", [], [paymentElement]⟩]⟩

def paymentText : String := "<all><Order><Pay variation='1'><sum type='decimal'/>" ++
  "<Card tag='1'><note type='word'/></Card><note type='date'/><Cash tag='2'/></Pay></Order></all>"

theorem variants_carry_base_paymentText :
    (∃ base variants, IsVariationOf paymentElement base variants ∧
      variants.map (fun v => (v.name, v.members.map fun m => (m.name, m.typeName))) =
        [("Card", [("sum", "decimal"), ("note", "word")]),
          ("Cash", [("sum", "decimal"), ("note", "date")])] ∧
      .variation "Pay" "/Order" false base variants ∈ (read paymentText).1.declarations) ∧
    ∃ problems, (read paymentText).1.resolve .standard = .error problems ∧
      problems.any (·.isMissingMember) = false := by
  have hparse : Element.parse paymentText = .ok paymentRoot := by
    set_option maxRecDepth 2000 in rfl
  obtain ⟨hdeclared, -⟩ := variants_carry_base.1 _ _ hparse
  have hstands : StandsIn paymentRoot (below "" "Order") paymentElement :=
    .top (e := ⟨"Order", [], [paymentElement]⟩) List.mem_cons_self rfl List.mem_cons_self
  have hread : (read paymentText).1.declarations = [
      .variation "Pay" "/Order" false
        (some ⟨"Pay", false, [⟨"sum", "decimal", false, false, false⟩,
          ⟨"note", "date", false, false, false⟩]⟩)
        [⟨"Card", 1, none, [⟨"sum", "decimal", false, false, false⟩,
            ⟨"note", "word", false, false, false⟩]⟩,
          ⟨"Cash", 2, none, [⟨"sum", "decimal", false, false, false⟩,
            ⟨"note", "date", false, false, false⟩]⟩],
      .aggregate "/Order" none []] := by
    rw [read_of_parse hparse]
    decide +kernel
  obtain ⟨base, variants, hv, hmem⟩ := hdeclared _ paymentElement hstands rfl
  have heq := hmem
  rw [hread, List.mem_cons, List.mem_singleton] at heq
  have hvariants := (Declaration.variation.inj (heq.resolve_right nofun)).2.2.2.2
  refine ⟨⟨base, variants, hv, by rw [hvariants]; rfl, hmem⟩, ?_⟩
  obtain ⟨problems, hproblems, -⟩ := exists_error_of_any ((read paymentText).1.resolve .standard)
    (fun problems => !problems.isEmpty) (by rw [read_of_parse hparse]; decide +kernel)
  exact ⟨problems, hproblems,
    variants_carry_base.2 _ (fun x hx => ⟨paymentText, hx⟩) _ _ hproblems⟩

end Document

end AggregateSchema
