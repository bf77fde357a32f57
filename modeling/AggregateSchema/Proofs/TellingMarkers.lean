import AggregateSchema.Proofs.OffMarkers
import AggregateSchema.Proofs.SplitDocuments

/-! Markers that cannot be left out, though they are spelled off. -/
namespace AggregateSchema

namespace Reading
variable {r s t : Reading}

theorem outer_eq_iff : r.outer = s.outer ↔ r.draft.declarations = s.draft.declarations ∧
    r.draft.enumerations = s.draft.enumerations ∧ r.problems = s.problems := by
  obtain ⟨_, ⟨_, _⟩, _⟩ := r
  obtain ⟨_, ⟨_, _⟩, _⟩ := s
  simp [outer, and_assoc]

theorem outer_left_cancel (h : (r ++ s).outer = (r ++ t).outer) : s.outer = t.outer := by
  rw [outer_eq_iff] at h ⊢
  simpa using h

theorem outer_right_cancel (h : (s ++ r).outer = (t ++ r).outer) : s.outer = t.outer := by
  rw [outer_eq_iff] at h ⊢
  simpa using h

/-- What comes before a declaration can be told, whatever the declaration is. -/
theorem outer_declaration_cancel {x y : Declaration}
    (h : (r ++ ofDeclaration x).outer = (s ++ ofDeclaration y).outer) : r.outer = s.outer := by
  rw [outer_eq_iff] at h ⊢
  obtain ⟨hd, he, hp⟩ := h
  exact ⟨(List.append_inj' hd rfl).1, List.append_cancel_right he, List.append_cancel_right hp⟩

end Reading

namespace Document

open Xml (Element)

section Telling
variable {k : String} {e f : Element}

theorem has_of_spelledOff (h : spelledOff e k = true) : e.has k = true := by
  obtain ⟨value, hvalue, -⟩ := (Option.any_eq_true _ _).1 h
  rw [Element.has, hvalue]
  rfl

theorem Drops.has_eq_false_self (h : Drops [k] e f) : f.has k = false := by
  rw [Element.has, h.attribute?_eq, if_pos List.mem_cons_self]
  rfl

/-- Without a marker that is refused, fewer are refused. -/
theorem Drops.length_filter_has_lt (h : Drops [k] e f) (refused : List String) (hk : k ∈ refused) :
    (refused.filter f.has).length < (refused.filter e.has).length := by
  have hfilter : refused.filter f.has = (refused.filter e.has).filter (· ≠ k) := by
    rw [List.filter_filter]
    refine List.filter_congr fun x _ => ?_
    by_cases hx : x = k
    · rw [hx, h.has_eq_false_self]
      simp
    · rw [h.has_of_not_mem (by simpa using hx)]
      simp [hx]
  rw [hfilter, List.length_filter_lt_length_iff_exists]
  exact ⟨k, List.mem_filter.2 ⟨hk, has_of_spelledOff (h.off k List.mem_cons_self)⟩, by simp⟩

theorem length_problems_topLevel (h : e.has "enum" = false) : (topLevel e).problems.length =
    (("multiple" :: "variation" :: forbidden).filter e.has).length +
      (content (below "" e.name) e.children).problems.length := by
  rw [topLevel, if_neg (by simp [h])]
  cases hm : e.has "multiple" <;> cases hv : e.has "variation" <;>
    simp [Reading.ofProblems, Reading.outer, Reading.ofDeclaration, forbiddenProblems, hm, hv] <;> omega

theorem topLevel_ne_of_telling (h : Drops [k] e f) (hc : f.children = e.children)
    (hk : k ∈ telling .top e) : (topLevel f).outer ≠ (topLevel e).outer := by
  intro heq
  obtain ⟨hdeclarations, -, hproblems⟩ := Reading.outer_eq_iff.1 heq
  have hlen := congrArg List.length hproblems
  rw [telling] at hk
  cases henum : e.has "enum" with
  | true =>
    rw [if_pos henum, List.mem_singleton] at hk
    obtain ⟨x, -, hx⟩ := declarations_topLevel (hk ▸ h.has_eq_false_self)
    rw [hdeclarations, topLevel, if_pos henum, declarations_enumeration] at hx
    simp at hx
  | false =>
    rw [henum, if_neg Bool.false_ne_true] at hk
    have hrefused : ∀ k ∈ ["multiple", "variation", "key", "name"],
        k ∈ "multiple" :: "variation" :: forbidden := by decide
    have hlt := h.length_filter_has_lt _ (hrefused k hk)
    rw [length_problems_topLevel henum, length_problems_topLevel (h.has_eq_false henum), h.name,
      hc] at hlen
    omega

/-- An element declares itself after all that is inside it. -/
theorem getLast?_declarations (owner : String) (e : Element) :
    (declared owner e).draft.declarations.getLast? = match kind e with
      | .field | .enumeration => none
      | .reference target => some (.reference e.name owner target (flag e "key") (flag e "name"))
      | .variation => some (.variation e.name owner (flag e "key") (base? e (fields e.children))
          ((e.children.filterMap ownVariant?).map (carry (fields e.children))))
      | .children => some (.children e.name owner (table? e)
          (content (below owner e.name) e.children).scalars)
      | .child => some (.child e.name owner (flag e "key") (table? e)
          (content (below owner e.name) e.children).scalars) := by
  rw [declared_eq]
  cases hk : kind e with
  | variation =>
    dsimp only
    rw [variation_eq, base_variationContent, variants_variationContent]
    exact List.getLast?_concat
  | children => exact List.getLast?_concat
  | child => exact List.getLast?_concat
  | enumeration => exact congrArg List.getLast? (declarations_enumeration e)
  | _ => rfl

theorem length_problems_children (h : kind e = .children) (owner : String) :
    (declared owner e).problems.length = (("key" :: nestedForbidden).filter e.has).length +
      (content (below owner e.name) e.children).problems.length := by
  rw [declared_eq, h]
  cases hk : e.has "key" <;>
    simp [Reading.ofProblems, Reading.outer, Reading.ofDeclaration, forbiddenProblems, hk]
  omega

theorem length_problems_child (h : kind e = .child) (owner : String) :
    (declared owner e).problems.length = (nestedForbidden.filter e.has).length +
      (content (below owner e.name) e.children).problems.length := by
  rw [declared_eq, h]
  simp [Reading.ofProblems, Reading.outer, Reading.ofDeclaration, forbiddenProblems]

theorem declared_ne_of_telling (h : Drops [k] e f) (hc : f.children = e.children)
    (hk : k ∈ telling .aggregate e) (owner : String) :
    (declared owner f).outer ≠ (declared owner e).outer := by
  intro heq
  obtain ⟨hdeclarations, -, hproblems⟩ := Reading.outer_eq_iff.1 heq
  have hlast := congrArg List.getLast? hdeclarations
  have hlen := congrArg List.length hproblems
  rw [getLast?_declarations, getLast?_declarations] at hlast
  have hkind := has_of_kind f
  have hself := h.has_eq_false_self
  rw [telling] at hk
  cases hke : kind e with
  | field => simp [hke] at hk
  | reference target => simp [hke] at hk
  | enumeration =>
    obtain rfl : k = "enum" := by simpa [hke] using hk
    have htype : f.has "type" = false := by
      have hhas := has_of_kind e
      rw [hke] at hhas
      rw [h.has_of_not_marker (by decide), hhas.1]
    cases hkf : kind f <;> simp_all
  | variation =>
    rw [hke] at hk
    rcases List.mem_cons.1 hk with rfl | hk
    · cases hkf : kind f <;> simp_all
    · split at hk
      · rename_i hnil
        obtain rfl := List.mem_singleton.1 hk
        have hkf : kind f = .variation := by
          rw [h.kind_eq (by simp) (by simp) (by simp), hke]
        have hhas := has_of_spelledOff (h.off "abstract" List.mem_cons_self)
        rw [hke, hkf, hc, List.isEmpty_iff.1 hnil] at hlast
        simp [base?, hself, hhas] at hlast
      · cases hk
  | children =>
    rw [hke] at hk
    rcases List.mem_cons.1 hk with rfl | hk
    · cases hkf : kind f <;> simp_all
    · have hrefused : ∀ k ∈ ["key", "name"], k ≠ "multiple" ∧ k ∈ "key" :: nestedForbidden := by
        decide
      have hkf : kind f = .children := by
        rw [h.kind_eq (by simp [hke]) (by simp [hke]) (by simpa using fun _ => (hrefused k hk).1.symm),
          hke]
      have hlt := h.length_filter_has_lt _ (hrefused k hk).2
      rw [length_problems_children hke, length_problems_children hkf, h.name, hc] at hlen
      omega
  | child =>
    obtain rfl : k = "name" := by simpa [hke] using hk
    have hkf : kind f = .child := by
      rw [h.kind_eq (by simp) (by simp) (by simp), hke]
    have hlt := h.length_filter_has_lt nestedForbidden (by decide)
    rw [length_problems_child hke, length_problems_child hkf, h.name, hc] at hlen
    omega

theorem nested_variant (h : (variantTag? e).isSome = true) (owner name : String) :
    (variant owner name e).nested = .ofProblems (forbiddenProblems forbidden e (below owner e.name)) ++
      (content (below owner e.name) e.children).outer := by
  rcases variant_cases owner name e with ⟨-, hv, -⟩ | ⟨-, hv, -⟩ | ⟨-, tag, -, he⟩
  · simp [hv] at h
  · simp [hv] at h
  · rw [he]

theorem variant_ne_of_telling (h : Drops [k] e f) (hc : f.children = e.children)
    (hk : k ∈ telling .variation e) (owner name : String) :
    (variant owner name f).nested.outer ≠ (variant owner name e).nested.outer := by
  intro heq
  have hlen := congrArg List.length (Reading.outer_eq_iff.1 heq).2.2
  rw [telling] at hk
  split at hk
  · rename_i hv
    have hrefused : ∀ k ∈ ["key", "name"], k ∈ forbidden := by decide
    have hlt := h.length_filter_has_lt _ (hrefused k hk)
    rw [nested_variant hv, nested_variant (h.variantTag?_eq ▸ hv), h.name, hc] at hlen
    simp [Reading.ofProblems, Reading.outer, forbiddenProblems] at hlen
    omega
  · cases hk

end Telling

/-- A tree without one marker that counts by being there, at one of its elements. -/
inductive Loses : Place → Element → Element → Prop where
  | here {p : Place} {e f : Element} (k : String) (drops : Drops [k] e f)
    (children : f.children = e.children) (counts : k ∈ telling p e) : Loses p e f
  | inside {p : Place} {name : String} {attributes : List (String × String)}
    {es fs : List Element} {c d : Element}
    (lost : Loses (p.inside ⟨name, attributes, es ++ c :: fs⟩) c d) :
    Loses p ⟨name, attributes, es ++ c :: fs⟩ ⟨name, attributes, es ++ d :: fs⟩

/-- At their place two elements read differently. -/
def Place.Differs : Place → Element → Element → Prop
  | .document, e, f => (ofElement f).outer ≠ (ofElement e).outer
  | .top, e, f => (topLevel f).outer ≠ (topLevel e).outer
  | .aggregate, e, f => ∀ owner, (declared owner f).outer ≠ (declared owner e).outer
  | .variation, e, f => ∀ owner name,
    (variant owner name f).nested.outer ≠ (variant owner name e).nested.outer
  | .unread, _, _ => False

theorem content_append (owner : String) (es fs : List Element) :
    content owner (es ++ fs) = content owner es ++ content owner fs := by
  induction es with
  | nil => rfl
  | cons e es ih =>
    show declared owner e ++ content owner (es ++ fs) =
      declared owner e ++ content owner es ++ content owner fs
    rw [ih, Reading.append_assoc]

theorem nested_variationContent_append (owner name : String) (es fs : List Element) :
    (variationContent owner name (es ++ fs)).nested =
      (variationContent owner name es).nested ++ (variationContent owner name fs).nested := by
  induction es with
  | nil => rfl
  | cons e es ih =>
    show (variant owner name e).nested ++ (variationContent owner name (es ++ fs)).nested =
      (variant owner name e).nested ++ (variationContent owner name es).nested ++
        (variationContent owner name fs).nested
    rw [ih, Reading.append_assoc]

section Siblings
variable {owner name : String} {es fs : List Element} {c d : Element}

theorem outer_declared_of_content
    (h : (content owner (es ++ d :: fs)).outer = (content owner (es ++ c :: fs)).outer) :
    (declared owner d).outer = (declared owner c).outer := by
  rw [content_append, content_append] at h
  exact Reading.outer_right_cancel (Reading.outer_left_cancel h)

theorem outer_variant_of_variationContent
    (h : (variationContent owner name (es ++ d :: fs)).nested.outer =
      (variationContent owner name (es ++ c :: fs)).nested.outer) :
    (variant owner name d).nested.outer = (variant owner name c).nested.outer := by
  rw [nested_variationContent_append, nested_variationContent_append] at h
  exact Reading.outer_right_cancel (Reading.outer_left_cancel h)

theorem outer_topLevel_of_ofElements
    (h : (ofElements (es ++ d :: fs)).outer = (ofElements (es ++ c :: fs)).outer) :
    (topLevel d).outer = (topLevel c).outer := by
  rw [ofElements_append, ofElements_append] at h
  exact Reading.outer_right_cancel (Reading.outer_left_cancel h)

end Siblings

section Contents
variable {owner variation name : String} {attributes : List (String × String)}
  {cs ds : List Element}

theorem outer_content_of_topLevel (he : Element.has ⟨name, attributes, cs⟩ "enum" = false)
    (h : (topLevel ⟨name, attributes, ds⟩).outer = (topLevel ⟨name, attributes, cs⟩).outer) :
    (content (below "" name) ds).outer = (content (below "" name) cs).outer := by
  have hd : Element.has ⟨name, attributes, ds⟩ "enum" = false := he
  rw [topLevel, topLevel, if_neg (by simp [hd]), if_neg (by simp [he])] at h
  exact Reading.outer_left_cancel (Reading.outer_declaration_cancel h)

theorem outer_content_of_declared
    (hk : kind ⟨name, attributes, cs⟩ = .children ∨ kind ⟨name, attributes, cs⟩ = .child)
    (h : (declared owner ⟨name, attributes, ds⟩).outer =
      (declared owner ⟨name, attributes, cs⟩).outer) :
    (content (below owner name) ds).outer = (content (below owner name) cs).outer := by
  have hd : kind ⟨name, attributes, ds⟩ = kind ⟨name, attributes, cs⟩ := rfl
  rw [declared_eq, declared_eq, hd] at h
  rcases hk with hk | hk
  · rw [hk] at h
    exact Reading.outer_left_cancel (Reading.outer_declaration_cancel h)
  · rw [hk] at h
    exact Reading.outer_left_cancel (Reading.outer_declaration_cancel h)

theorem outer_variationContent_of_declared (hk : kind ⟨name, attributes, cs⟩ = .variation)
    (h : (declared owner ⟨name, attributes, ds⟩).outer =
      (declared owner ⟨name, attributes, cs⟩).outer) :
    (variationContent owner name ds).nested.outer = (variationContent owner name cs).nested.outer := by
  have hd : kind ⟨name, attributes, ds⟩ = kind ⟨name, attributes, cs⟩ := rfl
  rw [declared_eq, declared_eq, hd, hk] at h
  dsimp only at h
  rw [variation_eq, variation_eq] at h
  exact Reading.outer_declaration_cancel h

theorem outer_content_of_variant (hv : (variantTag? ⟨name, attributes, cs⟩).isSome = true)
    (h : (variant owner variation ⟨name, attributes, ds⟩).nested.outer =
      (variant owner variation ⟨name, attributes, cs⟩).nested.outer) :
    (content (below owner name) ds).outer = (content (below owner name) cs).outer := by
  rw [nested_variant hv, nested_variant (e := ⟨name, attributes, ds⟩) hv] at h
  exact Reading.outer_left_cancel h

end Contents

theorem Loses.differs {p : Place} {e f : Element} (h : Loses p e f) : p.Differs e f := by
  induction h with
  | @here p e f k drops hc counts =>
    cases p with
    | document => cases counts
    | unread => cases counts
    | top => exact topLevel_ne_of_telling drops hc counts
    | aggregate => exact declared_ne_of_telling drops hc counts
    | variation => exact variant_ne_of_telling drops hc counts
  | @inside p name attributes es fs c d lost ih =>
    cases p with
    | document => exact fun heq => ih (outer_topLevel_of_ofElements heq)
    | unread => exact ih
    | top =>
      intro heq
      cases he : Element.has ⟨name, attributes, es ++ c :: fs⟩ "enum" with
      | true =>
        rw [Place.inside, if_pos he] at ih
        exact ih
      | false =>
        rw [Place.inside, if_neg (by simp [he])] at ih
        exact ih _ (outer_declared_of_content (outer_content_of_topLevel he heq))
    | aggregate =>
      intro owner heq
      rw [Place.inside] at ih
      cases hk : kind ⟨name, attributes, es ++ c :: fs⟩ with
      | variation =>
        rw [hk] at ih
        exact ih _ _ (outer_variant_of_variationContent (outer_variationContent_of_declared hk heq))
      | children =>
        rw [hk] at ih
        exact ih _ (outer_declared_of_content (outer_content_of_declared (Or.inl hk) heq))
      | child =>
        rw [hk] at ih
        exact ih _ (outer_declared_of_content (outer_content_of_declared (Or.inr hk) heq))
      | _ =>
        rw [hk] at ih
        exact ih
    | variation =>
      intro owner variationName heq
      cases hv : (variantTag? ⟨name, attributes, es ++ c :: fs⟩).isSome with
      | true =>
        rw [Place.inside, if_pos hv] at ih
        exact ih _ (outer_declared_of_content (outer_content_of_variant hv heq))
      | false =>
        rw [Place.inside, if_neg (by simp [hv])] at ih
        exact ih

/-- A document reads differently without any one marker that counts by being there, though it is
spelled off. -/
theorem read_ne_of_loses {text lossText : String} {root loss : Element}
    (htext : Element.parse text = .ok root) (hloss : Element.parse lossText = .ok loss)
    (h : Loses .document root loss) : read lossText ≠ read text := by
  rw [read_of_parse htext, read_of_parse hloss]
  intro heq
  obtain ⟨hdraft, hproblems⟩ := Prod.mk.inj heq
  exact h.differs (Reading.outer_eq_iff.2 ⟨by rw [hdraft], by rw [hdraft], hproblems⟩)

end Document

end AggregateSchema
