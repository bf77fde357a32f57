import AggregateSchema.Member
import Mathlib.Data.List.Induction
import Mathlib.Data.List.Nodup

/-! Members as they are declared, and how they are found again among the edges of a graph. -/
namespace AggregateSchema

/-- A member without the aggregates that it leads to: these are given by their paths. -/
inductive MemberShape where
  | scalar (name : String) (kind? : Option ScalarKind) (nullable isKey isDisplayName : Bool)
  | child (name : String) (target? : Option Path)
  | children (name : String) (target? : Option Path)
  | variation (name : String) (variants : List (Int × Option Path))
  | reference (name : String) (target? : Option Path) (isKey isDisplayName : Bool)
  deriving DecidableEq

/-- An edge from a given aggregate. -/
structure EdgeShape where
  target? : Option Path
  name : String
  relation : Relation

namespace EdgeShape

/-- The tag and target of a variant of the variation of a name. -/
def variantNamed? (name : String) (e : EdgeShape) : Option (Int × Option Path) :=
  match e.relation with
  | .variant tag => if e.name = name then some (tag, e.target?) else none
  | _ => none

end EdgeShape

def Edge.shape (l : Link) : EdgeShape := ⟨some l.terminal.path, l.name, l.relation⟩

namespace MemberShape

def name : MemberShape → String
  | scalar name _ _ _ _ | child name _ | children name _ | variation name _
  | reference name _ _ _ => name

/-- The edges that a member is made of. -/
def edges : MemberShape → List EdgeShape
  | scalar _ _ _ _ _ => []
  | child name target? => [⟨target?, name, .child⟩]
  | children name target? => [⟨target?, name, .children⟩]
  | variation name variants => variants.map fun v => ⟨v.2, name, .variant v.1⟩
  | reference name target? isKey isDisplayName => [⟨target?, name, .reference isKey isDisplayName⟩]

theorem name_of_mem_edges {m : MemberShape} {e : EdgeShape} (h : e ∈ m.edges) : e.name = m.name := by
  cases m with
  | scalar => cases h
  | variation name variants =>
    obtain ⟨v, _, rfl⟩ := List.mem_map.1 h
    rfl
  | _ =>
    obtain rfl := List.mem_singleton.1 h
    rfl

/-- A member that its edges give back. -/
def IsRelation : MemberShape → Prop
  | scalar _ _ _ _ _ => False
  | variation _ variants => variants ≠ []
  | _ => True

end MemberShape

namespace Member

def shape : Member → MemberShape
  | scalar s => .scalar s.name (some s.kind) s.nullable s.isKey s.isDisplayName
  | child l => .child l.name (some l.terminal.path)
  | children l => .children l.name (some l.terminal.path)
  | variation v => .variation v.name (v.variants.map fun x => (x.1, some x.2.terminal.path))
  | reference l => .reference l.name (some l.terminal.path) (reference l).isKey
    (reference l).isDisplayName

@[simp] theorem name_shape (m : Member) : m.shape.name = m.name := by
  cases m <;> rfl

end Member

namespace AggregateGraph

theorem find?_addVariant (name : String) (tag : Int) (l : Link) (groups : List VariationGroup)
    (n : String) : (addVariant name tag l groups).find? (·.name = n) =
      if name = n then some ⟨n, ((groups.find? (·.name = n)).elim [] (·.variants)) ++ [(tag, l)]⟩
      else groups.find? (·.name = n) := by
  induction groups with
  | nil =>
    by_cases h : name = n <;> simp [addVariant, h]
  | cons v vs ih =>
    rw [addVariant]
    by_cases hv : v.name = name
    · subst hv
      by_cases h : v.name = n <;> simp [h]
    · rw [if_neg hv, List.find?_cons, List.find?_cons, ih]
      by_cases h : v.name = n
      · simp [h, show ¬ name = n from fun e => hv (h.trans e.symm)]
      · simp [h]

/-- The variants of one name among some edges. -/
def variantsNamed (name : String) (links : List Link) : List (Int × Link) :=
  links.filterMap fun l => match l.relation with
    | .variant tag => if l.name = name then some (tag, l) else none
    | _ => none

/-- A group holds all variants of its name. -/
theorem find?_groupVariants (links : List Link) (name : String) :
    (groupVariants links).find? (·.name = name) =
      if variantsNamed name links = [] then none else some ⟨name, variantsNamed name links⟩ := by
  induction links using List.reverseRecOn with
  | nil => rfl
  | append_singleton ls l ih =>
    rw [groupVariants, List.foldl_append, ← groupVariants, List.foldl_cons, List.foldl_nil,
      variantsNamed, List.filterMap_append, ← variantsNamed]
    cases hr : l.relation with
    | variant tag =>
      rw [find?_addVariant, ih]
      by_cases hn : l.name = name
      · by_cases hv : variantsNamed name ls = [] <;> simp [hr, hn, hv]
      · simp [hr, hn]
    | _ => simp [hr, ih]

theorem map_variantsNamed (name : String) (links : List Link) :
    (variantsNamed name links).map (fun x => (x.1, some x.2.terminal.path)) =
      (links.map Edge.shape).filterMap (EdgeShape.variantNamed? name) := by
  rw [variantsNamed, List.map_filterMap, List.filterMap_map]
  apply List.filterMap_congr
  intro l _
  cases hr : l.relation with
  | variant tag =>
    by_cases hn : l.name = name <;>
      simp [EdgeShape.variantNamed?, Edge.shape, hr, hn]
  | _ => simp [EdgeShape.variantNamed?, Edge.shape, hr]

end AggregateGraph

namespace MemberShape

theorem filterMap_edges_of_ne {m : MemberShape} {name : String} (h : m.name ≠ name) :
    m.edges.filterMap (EdgeShape.variantNamed? name) = [] := by
  apply List.filterMap_eq_nil_iff.2
  intro e he
  have hn : e.name ≠ name := fun hn => h ((name_of_mem_edges he).symm.trans hn)
  unfold EdgeShape.variantNamed?
  split
  · exact if_neg hn
  · rfl

theorem filterMap_edges_variation (name : String) (variants : List (Int × Option Path)) :
    (variation name variants).edges.filterMap (EdgeShape.variantNamed? name) = variants := by
  rw [edges, List.filterMap_map]
  conv_rhs => rw [← List.filterMap_some (l := variants)]
  exact List.filterMap_congr fun v _ => by simp [EdgeShape.variantNamed?]

/-- Among the edges of members of distinct names, the variants of a variation are its own. -/
theorem filterMap_flatMap_edges {ms : List MemberShape} {name : String}
    {variants : List (Int × Option Path)} (hn : (ms.map MemberShape.name).Nodup)
    (h : variation name variants ∈ ms) :
    (ms.flatMap edges).filterMap (EdgeShape.variantNamed? name) = variants := by
  induction ms with
  | nil => cases h
  | cons m ms ih =>
    obtain ⟨hm, hn⟩ := List.nodup_cons.1 hn
    rw [List.flatMap_cons, List.filterMap_append]
    rcases List.mem_cons.1 h with rfl | h
    · rw [filterMap_edges_variation, List.filterMap_flatMap,
        List.flatMap_eq_nil_iff.2, List.append_nil]
      intro x hx
      refine filterMap_edges_of_ne fun he => hm ?_
      exact List.mem_map.2 ⟨x, hx, he⟩
    · rw [ih hn h, filterMap_edges_of_ne, List.nil_append]
      intro he
      exact hm (List.mem_map.2 ⟨_, h, he.symm⟩)

end MemberShape

namespace Member

/-- The variants of a group that was met add no member. -/
theorem ofLinks_append_of_find?_eq_none {groups : List VariationGroup} {name : String}
    (h : groups.find? (·.name = name) = none) {links : List Link}
    (hl : ∀ l ∈ links, l.name = name ∧ ∃ tag, l.relation = .variant tag) (rest : List Link) :
    ofLinks groups (links ++ rest) = ofLinks groups rest := by
  induction links with
  | nil => rfl
  | cons l ls ih =>
    obtain ⟨hn, tag, hr⟩ := hl l List.mem_cons_self
    rw [List.cons_append, ofLinks, hr]
    simp only [hn, h]
    exact ih fun x hx => hl x (List.mem_cons_of_mem _ hx)

theorem variant_of_map_shape {name : String} {variants : List (Int × Option Path)}
    {links : List Link} (h : links.map Edge.shape = (MemberShape.variation name variants).edges) :
    ∀ l ∈ links, l.name = name ∧ ∃ tag, l.relation = .variant tag := by
  intro l hl
  have hs : l.shape ∈ (MemberShape.variation name variants).edges := h ▸ List.mem_map_of_mem hl
  obtain ⟨x, _, hx⟩ := List.mem_map.1 hs
  obtain ⟨-, hx, hrel⟩ := EdgeShape.mk.inj hx
  exact ⟨hx.symm, x.1, hrel.symm⟩

theorem find?_filter_name_ne {name other : String} (h : other ≠ name)
    (groups : List VariationGroup) :
    (groups.filter (·.name ≠ name)).find? (·.name = other) = groups.find? (·.name = other) := by
  rw [List.find?_filter]
  congr 1
  funext v
  by_cases hv : v.name = other <;> simp [hv, h]

/-- Members of distinct names are found again among their edges. -/
theorem map_shape_ofLinks {groups : List VariationGroup} {links : List Link}
    {ms : List MemberShape} (hl : links.map Edge.shape = ms.flatMap MemberShape.edges)
    (hr : ∀ m ∈ ms, m.IsRelation) (hn : (ms.map MemberShape.name).Nodup)
    (hg : ∀ name variants, MemberShape.variation name variants ∈ ms → ∃ v : VariationGroup,
      groups.find? (·.name = name) = some v ∧
        v.variants.map (fun x => (x.1, some x.2.terminal.path)) = variants) :
    (ofLinks groups links).map shape = ms := by
  induction ms generalizing groups links with
  | nil =>
    obtain rfl : links = [] := by simpa using hl
    rfl
  | cons m ms ih =>
    obtain ⟨first, rest, rfl, hf, hrest⟩ := List.map_eq_append_iff.1 hl
    obtain ⟨hm, hn'⟩ := List.nodup_cons.1 hn
    have hr' := fun x hx => hr x (List.mem_cons_of_mem m hx)
    have ih' := ih hrest hr' hn' fun n vs h => hg n vs (List.mem_cons_of_mem m h)
    cases m with
    | scalar => exact absurd (hr _ List.mem_cons_self) id
    | child name target? =>
      obtain ⟨l, rfl, he⟩ := List.map_eq_singleton_iff.1 hf
      obtain ⟨rfl, rfl, hrel⟩ := EdgeShape.mk.inj he
      simp [ofLinks, hrel, shape, ih']
    | children name target? =>
      obtain ⟨l, rfl, he⟩ := List.map_eq_singleton_iff.1 hf
      obtain ⟨rfl, rfl, hrel⟩ := EdgeShape.mk.inj he
      simp [ofLinks, hrel, shape, ih']
    | reference name target? isKey isDisplayName =>
      obtain ⟨l, rfl, he⟩ := List.map_eq_singleton_iff.1 hf
      obtain ⟨rfl, rfl, hrel⟩ := EdgeShape.mk.inj he
      simp [ofLinks, hrel, shape, ih', Member.isKey, Member.isDisplayName, Relation.isKeyReference]
    | variation name variants =>
      obtain ⟨v, hv, hvs⟩ := hg name variants List.mem_cons_self
      have hvn : v.name = name := by simpa using List.find?_some hv
      have hvariant := variant_of_map_shape hf
      cases first with
      | nil => exact absurd (by simpa [MemberShape.edges] using hf) (hr _ List.mem_cons_self)
      | cons l ls =>
        obtain ⟨hln, tag, hrel⟩ := hvariant l List.mem_cons_self
        rw [List.cons_append, ofLinks, hrel]
        simp only [hln, hv]
        rw [ofLinks_append_of_find?_eq_none (by simp)
          fun x hx => hvariant x (List.mem_cons_of_mem _ hx)]
        rw [List.map_cons, ih hrest hr' hn', shape, hvn, hvs]
        intro n vs h
        obtain ⟨w, hw, hws⟩ := hg n vs (List.mem_cons_of_mem _ h)
        have hne : n ≠ name := fun e => hm (List.mem_map.2 ⟨_, h, e⟩)
        exact ⟨w, (find?_filter_name_ne hne groups).trans hw, hws⟩

/-- The same with the groups of the edges themselves. -/
theorem map_shape_ofLinks_groupVariants {links : List Link} {ms : List MemberShape}
    (hl : links.map Edge.shape = ms.flatMap MemberShape.edges) (hr : ∀ m ∈ ms, m.IsRelation)
    (hn : (ms.map MemberShape.name).Nodup) :
    (ofLinks (AggregateGraph.groupVariants links) links).map shape = ms := by
  apply map_shape_ofLinks hl hr hn
  intro name variants h
  have hvs : (AggregateGraph.variantsNamed name links).map
      (fun x => (x.1, some x.2.terminal.path)) = variants := by
    rw [AggregateGraph.map_variantsNamed, hl, MemberShape.filterMap_flatMap_edges hn h]
  refine ⟨⟨name, AggregateGraph.variantsNamed name links⟩, ?_, hvs⟩
  rw [AggregateGraph.find?_groupVariants, if_neg]
  intro hnil
  rw [hnil] at hvs
  exact hr _ h hvs.symm

end Member

end AggregateSchema
