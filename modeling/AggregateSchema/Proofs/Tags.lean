import AggregateSchema.Proofs.Columns
import AggregateSchema.Proofs.DeclaredMembers
import AggregateSchema.Proofs.OwnedLinks
import Mathlib.Data.List.Perm.Subperm

/-! The tags by which the variants of one discriminator are told apart. -/
namespace AggregateSchema

/-- Where no item that counts is left out, leaving out repetitions does not change what is found. -/
theorem filterMap_firsts_of_subset {α β κ : Type} [DecidableEq κ] (key : α → κ) {f : α → Option β}
    {xs : List α} (hn : (xs.filter fun x => (f x).isSome).Nodup)
    (h : ∀ x ∈ xs, (f x).isSome = true → x ∈ firsts key xs) :
    (firsts key xs).filterMap f = xs.filterMap f := by
  have hcount : ∀ ys : List α, (ys.filter fun x => (f x).isSome).filterMap f = ys.filterMap f := by
    intro ys
    rw [List.filterMap_filter]
    exact List.filterMap_congr fun x _ => by cases f x <;> rfl
  have hsub : xs.filter (fun x => (f x).isSome) ⊆
      (firsts key xs).filter (fun x => (f x).isSome) := by
    intro x hx
    obtain ⟨hx, hf⟩ := List.mem_filter.1 hx
    exact List.mem_filter.2 ⟨h x hx hf, hf⟩
  have hsame := ((firsts_sublist key xs).filter fun x => (f x).isSome).eq_of_length_le
    (List.subperm_of_subset hn hsub).length_le
  rw [← hcount (firsts key xs), hsame, hcount]

namespace Member

/-- A group that has not been met is met when its first variant is. -/
theorem variation_mem_ofLinks {groups : List VariationGroup} {links : List Link}
    {v : VariationGroup} (hn : (groups.map (·.name)).Nodup) (hv : v ∈ groups)
    (ho : occurs links v = true) : variation v ∈ ofLinks groups links := by
  induction links generalizing groups with
  | nil => cases ho
  | cons l ls ih =>
    by_cases hl : AggregateGraph.isVariant l = true
    · obtain ⟨tag, hr⟩ : ∃ tag, l.relation = .variant tag := by
        cases hr : l.relation with
        | variant tag => exact ⟨tag, rfl⟩
        | _ => simp [AggregateGraph.isVariant, hr] at hl
      simp only [ofLinks, hr]
      by_cases he : v.name = l.name
      · have hfind := (find?_key_eq_some_iff VariationGroup.name hn).2 ⟨hv, he⟩
        simp [hfind]
      · have ho' : occurs ls v = true := by
          rw [occurs_cons_of_variant hl] at ho
          simpa [he] using ho
        split
        · refine List.mem_cons_of_mem _ (ih ?_ (List.mem_filter.2 ⟨hv, by simpa using he⟩) ho')
          exact hn.sublist (List.filter_sublist.map _)
        · exact ih hn hv ho'
    · have hl' : AggregateGraph.isVariant l = false := by simpa using hl
      rw [occurs_cons_of_not_variant hl'] at ho
      rw [ofLinks]
      split
      · exact List.mem_cons_of_mem _ (ih hn hv ho)
      · exact List.mem_cons_of_mem _ (ih hn hv ho)
      · exact List.mem_cons_of_mem _ (ih hn hv ho)
      · rename_i hr
        simp [AggregateGraph.isVariant, hr] at hl

end Member

namespace AggregateGraph
variable {g : AggregateGraph} {a : Aggregate}

theorem variation_mem_members {v : VariationGroup} (hv : v ∈ variationGroups g a) :
    Member.variation v ∈ members g a :=
  List.mem_append_right _ (Member.variation_mem_ofLinks (nodup_names_groupVariants _) hv
    (Member.occurs_of_mem_groupVariants hv))

/-- A group holds every variant of its name. -/
theorem variants_of_mem_variationGroups {v : VariationGroup} (hv : v ∈ variationGroups g a) :
    v.variants = variantsNamed v.name (g.outgoing a) := by
  have hfind := (find?_key_eq_some_iff VariationGroup.name
    (nodup_names_groupVariants (g.outgoing a))).2 ⟨hv, rfl⟩
  rw [find?_groupVariants] at hfind
  split at hfind
  · cases hfind
  · exact (congrArg VariationGroup.variants (Option.some.inj hfind)).symm

end AggregateGraph

/-- The tags of a variation of the given name. -/
def MemberShape.tagsNamed? (name : String) : MemberShape → Option (List Int)
  | .variation n variants => if n = name then some (variants.map (·.1)) else none
  | _ => none

theorem MemberShape.map_filterMap_variantNamed? (name : String) (m : MemberShape) :
    (m.edges.filterMap (EdgeShape.variantNamed? name)).map (·.1) =
      (m.tagsNamed? name).toList.flatten := by
  by_cases hm : m.name = name
  · subst hm
    cases m with
    | variation n variants =>
      simp [name, filterMap_edges_variation, tagsNamed?]
    | _ => simp [edges, EdgeShape.variantNamed?, tagsNamed?]
  · rw [filterMap_edges_of_ne hm]
    cases m with
    | variation n variants => simp [tagsNamed?, show ¬ n = name from hm]
    | _ => rfl

namespace Draft
variable {d : Draft} {base : TypeRegistry} {s : Schema} {a : Aggregate} {v : VariationGroup}

/-- The tags that each declaration gives to the variation of a name at a path. -/
def declaredTags (d : Draft) (path : Path) (name : String) : List (List Int) :=
  (d.declaredRelations path).filterMap (MemberShape.tagsNamed? name)

/-- The edges that leave an aggregate are those declared from it, of those of one identity the
first. -/
theorem map_declared_outgoing (h : d.resolve base = .ok s) (a : Aggregate) :
    (s.graph.outgoing a).map Edge.declared =
      firsts Edge.identity ((d.resolution base).edges.filter (·.initial = a.path)) := by
  have hsame : ∀ e ∈ (d.resolution base).edges, ∀ f ∈ (d.resolution base).edges,
      e.identity = f.identity → decide (e.initial = a.path) = decide (f.initial = a.path) :=
    fun e _ f _ hef => congrArg (fun i => decide (i.1 = a.path)) hef
  have hf := firsts_filter Edge.identity hsame
  rw [hf, ← edges_of_resolve h, List.filter_map]
  rfl

/-- Where some variant has a name, no variant of that name gives way to a reference. -/
theorem mem_firsts_of_variant (h : d.resolve base = .ok s) (hv : s.validate = .ok ())
    (ha : a ∈ s.graph.nodes) (hg : v ∈ s.graph.variationGroups a) {e : Edge Path Relation}
    (he : e ∈ (d.resolution base).edges.filter (·.initial = a.path)) (hn : e.name = v.name)
    (ho : e.relation.isOwnership = true) :
    e ∈ firsts Edge.identity ((d.resolution base).edges.filter (·.initial = a.path)) := by
  obtain ⟨f, hfirst, hid⟩ := exists_mem_firsts Edge.identity he
  by_cases hfo : f.relation.isOwnership = true
  · have hfe := List.mem_filter.1 ((firsts_sublist _ _).subset hfirst)
    have hsame := eq_of_terminal_eq h hfe.1 (List.mem_filter.1 he).1 hfo ho
      (congrArg (·.2.1) hid)
    rwa [hsame] at hfirst
  · -- the reference would be a second member of the name
    rw [← map_declared_outgoing h] at hfirst
    obtain ⟨l, hl, rfl⟩ := List.mem_map.1 hfirst
    have hr : l.relation.isReference = true := by
      simpa [Relation.isReference, Edge.declared] using hfo
    have hname : l.name = v.name := (congrArg (·.2.2) hid).trans hn
    have hsame := List.inj_on_of_nodup_map (nodup_members_of_validate hv ha)
      (AggregateGraph.reference_mem_members.2 (List.mem_filter.2 ⟨hl, hr⟩))
      (AggregateGraph.variation_mem_members hg) hname
    cases hsame

theorem name_and_ownership_of_variantNamed? {name : String} {e : Edge Path Relation}
    (h : ((EdgeShape.ofEdge e).variantNamed? name).isSome = true) :
    e.name = name ∧ e.relation.isOwnership = true := by
  simp only [EdgeShape.ofEdge, EdgeShape.variantNamed?] at h
  cases hr : e.relation with
  | variant tag =>
    by_cases hn : e.name = name
    · exact ⟨hn, rfl⟩
    · simp [hr, hn] at h
  | _ => simp [hr] at h

/-- The variants of a discriminator are all that were declared under its name. -/
theorem map_variants (h : d.resolve base = .ok s) (hv : s.validate = .ok ())
    (ha : a ∈ s.graph.nodes) (hg : v ∈ s.graph.variationGroups a) :
    v.variants.map (fun x => (x.1, some x.2.terminal.path)) =
      (((d.resolution base).edges.filter (·.initial = a.path)).map EdgeShape.ofEdge).filterMap
        (EdgeShape.variantNamed? v.name) := by
  have howned : ((d.resolution base).edges.filter (·.relation.isOwnership)).Nodup :=
    (List.nodup_append.1 (nodup_roots_owned h)).2.1.of_map
  have hnodup : (((d.resolution base).edges.filter (·.initial = a.path)).filter fun e =>
      ((EdgeShape.ofEdge e).variantNamed? v.name).isSome).Nodup := by
    have hsub := List.filter_sublist (l := (d.resolution base).edges) (p := (·.initial = a.path))
    exact howned.sublist ((List.monotone_filter_right _ fun e he =>
      (name_and_ownership_of_variantNamed? he).2).trans (hsub.filter _))
  have hall := filterMap_firsts_of_subset Edge.identity hnodup fun e he ht =>
    have ht := name_and_ownership_of_variantNamed? ht
    mem_firsts_of_variant h hv ha hg he ht.1 ht.2
  rw [AggregateGraph.variants_of_mem_variationGroups hg, AggregateGraph.map_variantsNamed,
    List.filterMap_map, List.filterMap_map]
  refine Eq.trans ?_ hall
  rw [← map_declared_outgoing h, List.filterMap_map]
  rfl

/-- The tags of a discriminator are those of all variations that were declared under its name. -/
theorem tags_eq_flatten (h : d.resolve base = .ok s) (hv : s.validate = .ok ())
    (ha : a ∈ s.graph.nodes) (hg : v ∈ s.graph.variationGroups a) :
    v.variants.map (·.1) = (d.declaredTags a.path v.name).flatten := by
  have hmap : v.variants.map (·.1) =
      (v.variants.map fun x => (x.1, some x.2.terminal.path)).map (·.1) := by
    rw [List.map_map]
    rfl
  rw [hmap, map_variants h hv ha hg, map_ofEdge_filter h, List.filterMap_flatMap, List.map_flatMap,
    declaredTags, List.filterMap_eq_flatMap_toList, ← List.flatMap_id, List.flatMap_assoc]
  refine List.flatMap_congr fun m _ => ?_
  rw [m.map_filterMap_variantNamed? v.name, List.flatMap_id]

/-- Each declaration of a variation uses a tag once. -/
theorem nodup_of_mem_declaredTags (h : d.resolve base = .ok s) {path : Path} {name : String}
    {tags : List Int} (ht : tags ∈ d.declaredTags path name) : tags.Nodup := by
  obtain ⟨m, hm, ht⟩ := List.mem_filterMap.1 ht
  obtain ⟨x, hx, hxm⟩ := List.mem_filterMap.1 hm
  have hp := problems_of_mem_declarations h hx
  cases x with
  | aggregate => cases hxm
  | variation n owner isKey b variants =>
    rw [Declaration.eq_of_ownedBy hxm] at ht
    obtain ⟨o, _, hp⟩ := TypeRegistry.exists_parse_of_withPath hp
    simp only [Resolution.problems_append, List.append_eq_nil_iff, TypeRegistry.variationProblems,
      List.map_eq_nil_iff] at hp
    have htags := (repeats_eq_nil_iff VariantDeclaration.tag variants).1 hp.1.1.2
    rw [MemberShape.tagsNamed?] at ht
    split at ht
    · rw [← Option.some.inj ht, List.map_map]
      exact htags
    · cases ht
  | _ =>
    rw [Declaration.eq_of_ownedBy hxm] at ht
    cases ht

/-- The tags of a discriminator are distinct exactly if no two variations that were declared under
its name share a tag. -/
theorem nodup_tags_iff (h : d.resolve base = .ok s) (hv : s.validate = .ok ())
    (ha : a ∈ s.graph.nodes) (hg : v ∈ s.graph.variationGroups a) :
    (v.variants.map (·.1)).Nodup ↔
      (d.declaredTags a.path v.name).Pairwise fun xs ys => ∀ tag ∈ xs, tag ∉ ys := by
  rw [tags_eq_flatten h hv ha hg, List.nodup_flatten]
  exact and_iff_right fun tags ht => nodup_of_mem_declaredTags h ht

theorem nodup_tags_orders : ∃ s, orders.resolve .standard = .ok s ∧ s.validate = .ok () ∧
    (∃ a ∈ s.graph.nodes, s.graph.variationGroups a ≠ []) ∧
      ∀ a ∈ s.graph.nodes, ∀ v ∈ s.graph.variationGroups a, (v.variants.map (·.1)).Nodup := by
  obtain ⟨s, hs, h⟩ := exists_ok_of_any (orders.resolve .standard)
    (fun s => s.designProblems.isEmpty &&
      (s.graph.nodes.any fun a => !(s.graph.variationGroups a).isEmpty) &&
      s.graph.nodes.all fun a => (s.graph.variationGroups a).all fun v =>
        decide ((orders.declaredTags a.path v.name).Pairwise fun xs ys => ∀ tag ∈ xs, tag ∉ ys))
    (by decide +kernel)
  simp only [Bool.and_eq_true, List.all_eq_true, List.any_eq_true, decide_eq_true_eq] at h
  obtain ⟨⟨hd, a, ha, hne⟩, hall⟩ := h
  have hv : s.validate = .ok () := if_pos hd
  refine ⟨s, hs, hv, ⟨a, ha, by simpa using hne⟩, fun b hb v hg => ?_⟩
  exact (nodup_tags_iff hs hv hb hg).2 (hall b hb v hg)

/-- Two variations of one name and owner make one discriminator, in which a tag may stand twice. -/
theorem not_nodup_tags_of_draft : ∃ s, repeatedVariation.resolve .standard = .ok s ∧
    s.validate = .ok () ∧ ∃ a ∈ s.graph.nodes, ∃ v ∈ s.graph.variationGroups a,
      ¬ (v.variants.map (·.1)).Nodup := by
  obtain ⟨s, hs, h⟩ := exists_ok_of_any (repeatedVariation.resolve .standard)
    (fun s => s.designProblems.isEmpty && s.graph.nodes.any fun a =>
      (s.graph.variationGroups a).any fun v => !decide (v.variants.map Prod.fst).Nodup)
    (by decide +kernel)
  simp only [Bool.and_eq_true, List.any_eq_true, Bool.not_eq_true', decide_eq_false_iff_not] at h
  obtain ⟨hd, a, ha, v, hg, hn⟩ := h
  exact ⟨s, hs, if_pos hd, a, ha, v, hg, hn⟩

end Draft

end AggregateSchema
