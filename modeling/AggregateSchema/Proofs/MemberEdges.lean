import AggregateSchema.Proofs.OwnedLinks

/-! Every edge from an aggregate belongs to one of its members. -/
namespace AggregateSchema

section Fibers
variable {α κ : Type} [DecidableEq κ]

/-- Items sorted by their keys are the same items. -/
theorem flatMap_filter_key_perm (key : α → κ) {keys : List κ} (hn : keys.Nodup) {xs : List α}
    (h : ∀ x ∈ xs, key x ∈ keys) : (keys.flatMap fun k => xs.filter (key · = k)).Perm xs := by
  induction keys generalizing xs with
  | nil =>
    obtain rfl : xs = [] := List.eq_nil_iff_forall_not_mem.2 fun x hx => by simpa using h x hx
    rfl
  | cons k ks ih =>
    obtain ⟨hk, hn⟩ := List.nodup_cons.1 hn
    have hks : ∀ x ∈ xs.filter (fun x => !decide (key x = k)), key x ∈ ks := by
      intro x hx
      obtain ⟨hx, hne⟩ := List.mem_filter.1 hx
      exact (List.mem_cons.1 (h x hx)).resolve_left (by simpa using hne)
    have hrest := ih hn hks
    have hsame : (ks.flatMap fun l => (xs.filter fun x => !decide (key x = k)).filter (key · = l)) =
        ks.flatMap fun l => xs.filter (key · = l) := by
      refine List.flatMap_congr fun l hl => ?_
      rw [List.filter_filter]
      refine List.filter_congr fun x _ => ?_
      have hne : l ≠ k := fun e => hk (e ▸ hl)
      by_cases hx : key x = l <;> simp [hx, hne]
    rw [hsame] at hrest
    exact (hrest.append_left _).trans (List.filter_append_perm _ xs)

/-- The items of each key, where the key comes first, are all items. -/
theorem flatMap_firsts_perm (key : α → κ) (xs : List α) :
    ((firsts key xs).flatMap fun x => xs.filter (key · = key x)).Perm xs := by
  have h := flatMap_filter_key_perm key (nodup_map_firsts key xs) fun x hx => by
    obtain ⟨y, hy, he⟩ := exists_mem_firsts key hx
    exact List.mem_map.2 ⟨y, hy, he⟩
  rwa [List.flatMap_map] at h

theorem firsts_concat (key : α → κ) (xs : List α) (x : α) :
    firsts key (xs ++ [x]) = firsts key xs ++ if key x ∈ xs.map key then [] else [x] := by
  suffices ∀ seen, firstsAfter key seen (xs ++ [x]) =
      firstsAfter key seen xs ++ if key x ∈ seen ++ xs.map key then [] else [x] from this []
  induction xs with
  | nil =>
    intro seen
    by_cases hx : key x ∈ seen <;> simp [firstsAfter, hx]
  | cons y ys ih =>
    intro seen
    rw [List.cons_append, firstsAfter, firstsAfter]
    by_cases hy : key y ∈ seen
    · have hx : key x ∈ seen ++ (y :: ys).map key ↔ key x ∈ seen ++ ys.map key := by
        simp only [List.map_cons, List.mem_append, List.mem_cons]
        exact or_congr_right' fun hx => or_iff_right fun e => hx (e ▸ hy)
      rw [if_pos hy, if_pos hy, ih, if_congr hx rfl rfl]
    · have hx : key x ∈ seen ++ (y :: ys).map key ↔ key x ∈ (key y :: seen) ++ ys.map key := by
        simp only [List.map_cons, List.mem_append, List.mem_cons]
        exact or_left_comm.trans or_assoc.symm
      rw [if_neg hy, if_neg hy, ih, if_congr hx rfl rfl]
      rfl

end Fibers

/-- What tells apart the members that edges belong to: variants of one name belong together. -/
inductive MemberKey where
  | alone (ends : Path × Path × String)
  | variants (name : String)
  deriving DecidableEq

namespace Member
open AggregateGraph (isVariant variantsNamed groupVariants)

def keyOf (l : Link) : MemberKey :=
  if isVariant l then .variants l.name else .alone l.ends

/-- The member that an edge belongs to, among the edges from one aggregate. -/
def ofLink (links : List Link) (l : Link) : Member :=
  match l.relation with
  | .child => .child l
  | .children => .children l
  | .reference _ _ => .reference l
  | .variant _ => .variation ⟨l.name, variantsNamed l.name links⟩

/-- The edges that belong to a member. -/
def edges : Member → List Link
  | scalar _ => []
  | child l | children l | reference l => [l]
  | variation v => v.variants.map (·.2)

def group? : Member → Option VariationGroup
  | variation v => some v
  | _ => none

theorem isVariant_iff {l : Link} : isVariant l = true ↔ ∃ tag, l.relation = .variant tag := by
  cases h : l.relation <;> simp [isVariant, h]

theorem keyOf_of_variant {l : Link} (h : isVariant l = true) : keyOf l = .variants l.name := if_pos h

theorem keyOf_of_not_variant {l : Link} (h : ¬ isVariant l = true) : keyOf l = .alone l.ends :=
  if_neg h

theorem ofLink_of_variant (links : List Link) {l : Link} (h : isVariant l = true) :
    ofLink links l = .variation ⟨l.name, variantsNamed l.name links⟩ := by
  obtain ⟨tag, hr⟩ := isVariant_iff.1 h
  rw [ofLink, hr]

/-- An edge of another kind is a member of its own. -/
theorem ofLinks_cons_of_not_variant (all : List Link) {l : Link} (h : ¬ isVariant l = true)
    (groups : List VariationGroup) (links : List Link) :
    ofLinks groups (l :: links) = ofLink all l :: ofLinks groups links := by
  rw [ofLinks, ofLink]
  cases hr : l.relation with
  | variant tag => exact absurd (isVariant_iff.2 ⟨tag, hr⟩) h
  | _ => rfl

theorem ofLinks_cons_of_variant {l : Link} (h : isVariant l = true) (groups : List VariationGroup)
    (links : List Link) : ofLinks groups (l :: links) =
      match groups.find? (·.name = l.name) with
      | some v => variation v :: ofLinks (groups.filter (·.name ≠ l.name)) links
      | none => ofLinks groups links := by
  obtain ⟨tag, hr⟩ := isVariant_iff.1 h
  cases hv : groups.find? (·.name = l.name) <;> simp only [ofLinks, hr, hv]

/-- A member stands where the first of its edges does. `seen` holds the keys of the edges that were met,
and `groups` the groups that were not. -/
theorem ofLinks_eq {all links : List Link} {groups : List VariationGroup}
    {seen : List MemberKey} (hn : (links.map Edge.ends).Nodup)
    (hfresh : ∀ l ∈ links, .alone l.ends ∉ seen)
    (hg : ∀ l ∈ links, isVariant l = true → groups.find? (·.name = l.name) =
      if keyOf l ∈ seen then none else some ⟨l.name, variantsNamed l.name all⟩) :
    ofLinks groups links = (firstsAfter keyOf seen links).map (ofLink all) := by
  induction links generalizing groups seen with
  | nil => rfl
  | cons l ls ih =>
    obtain ⟨hl, hn⟩ := List.nodup_cons.1 hn
    have hfresh' := fun m hm => hfresh m (List.mem_cons_of_mem l hm)
    have hg' := fun m hm => hg m (List.mem_cons_of_mem l hm)
    rw [firstsAfter]
    by_cases hv : isVariant l = true
    · have hfind := hg l List.mem_cons_self hv
      rw [ofLinks_cons_of_variant hv, hfind]
      by_cases hk : keyOf l ∈ seen
      · rw [if_pos hk, if_pos hk]
        exact ih hn hfresh' hg'
      · rw [if_neg hk, if_neg hk, List.map_cons, ofLink_of_variant all hv]
        refine congrArg _ (ih hn (fun m hm => ?_) fun m hm hmv => ?_)
        · rw [keyOf_of_variant hv]
          simpa using hfresh' m hm
        · rw [keyOf_of_variant hv, keyOf_of_variant hmv]
          by_cases hname : m.name = l.name
          · simp [hname]
          · rw [find?_filter_name_ne hname, hg' m hm hmv, keyOf_of_variant hmv]
            simp [hname]
    · have hk : keyOf l ∉ seen := keyOf_of_not_variant hv ▸ hfresh l List.mem_cons_self
      rw [if_neg hk, List.map_cons, ofLinks_cons_of_not_variant all hv, keyOf_of_not_variant hv]
      refine congrArg _ (ih hn (fun m hm => ?_) fun m hm hmv => ?_)
      · have hne : m.ends ≠ l.ends := fun e => hl (List.mem_map.2 ⟨m, hm, e⟩)
        simpa [hne] using hfresh' m hm
      · rw [hg' m hm hmv, keyOf_of_variant hmv]
        simp

/-- With all groups of the edges, nothing was met. -/
theorem ofLinks_groupVariants_eq {links : List Link} (hn : (links.map Edge.ends).Nodup) :
    ofLinks (groupVariants links) links = (firsts keyOf links).map (ofLink links) := by
  refine ofLinks_eq hn (by simp) fun l hl hv => ?_
  obtain ⟨tag, hr⟩ := isVariant_iff.1 hv
  have hmem : (tag, l) ∈ variantsNamed l.name links :=
    List.mem_filterMap.2 ⟨l, hl, by simp [hr]⟩
  rw [AggregateGraph.find?_groupVariants, if_neg (List.ne_nil_of_mem hmem), if_neg List.not_mem_nil]

/-- The edges of a member are those of one key. -/
theorem edges_ofLink {links : List Link} (hn : (links.map Edge.ends).Nodup) {l : Link}
    (hl : l ∈ links) : (ofLink links l).edges = links.filter (keyOf · = keyOf l) := by
  by_cases hv : isVariant l = true
  · rw [ofLink_of_variant links hv, edges, variantsNamed, List.map_filterMap,
      ← List.filterMap_eq_filter]
    refine List.filterMap_congr fun m _ => ?_
    rw [keyOf_of_variant hv]
    cases hr : m.relation with
    | variant tag =>
      have hm := keyOf_of_variant (isVariant_iff.2 ⟨tag, hr⟩)
      by_cases hname : m.name = l.name <;> simp [hm, hname, Option.guard]
    | _ =>
      have hm : ¬ isVariant m = true := by simp [isVariant, hr]
      simp [keyOf_of_not_variant hm, Option.guard]
  · have hone := filter_key_eq_singleton Edge.ends hn hl
    have hsame : links.filter (keyOf · = keyOf l) = links.filter (Edge.ends · = l.ends) := by
      refine List.filter_congr fun m hm => decide_eq_decide.2 ?_
      rw [keyOf_of_not_variant hv, keyOf]
      split
      · rename_i hmv
        refine iff_of_false (by simp) fun he => hv ?_
        exact (List.inj_on_of_nodup_map hn hm hl he) ▸ hmv
      · exact iff_of_eq (MemberKey.alone.injEq _ _)
    rw [hsame, hone, ofLink]
    cases hr : l.relation with
    | variant tag => exact absurd (isVariant_iff.2 ⟨tag, hr⟩) hv
    | _ => rfl

/-- Edges of one key belong to one member. -/
theorem ofLink_eq_of_keyOf_eq {links : List Link} (hn : (links.map Edge.ends).Nodup) {l m : Link}
    (hl : l ∈ links) (hm : m ∈ links) (h : keyOf l = keyOf m) : ofLink links l = ofLink links m := by
  by_cases hv : isVariant l = true
  · have hmv : isVariant m = true := by
      by_contra hmv
      rw [keyOf_of_variant hv, keyOf_of_not_variant hmv] at h
      cases h
    rw [keyOf_of_variant hv, keyOf_of_variant hmv] at h
    rw [ofLink_of_variant links hv, ofLink_of_variant links hmv, MemberKey.variants.inj h]
  · have hmv : ¬ isVariant m = true := by
      intro hmv
      rw [keyOf_of_not_variant hv, keyOf_of_variant hmv] at h
      cases h
    rw [keyOf_of_not_variant hv, keyOf_of_not_variant hmv] at h
    rw [List.inj_on_of_nodup_map hn hl hm (MemberKey.alone.inj h)]

/-- Groups stand in the order of their first variants. -/
theorem names_groupVariants (links : List Link) : (groupVariants links).map (·.name) =
    ((firsts keyOf links).filter isVariant).map (·.name) := by
  induction links using List.reverseRecOn with
  | nil => rfl
  | append_singleton ls l ih =>
    rw [groupVariants, List.foldl_append, ← groupVariants, List.foldl_cons, List.foldl_nil,
      firsts_concat, List.filter_append, List.map_append, ← ih]
    by_cases hv : isVariant l = true
    · have hmet : l.name ∈ (groupVariants ls).map (·.name) ↔ keyOf l ∈ ls.map keyOf := by
        rw [ih, keyOf_of_variant hv, List.mem_map, List.mem_map]
        constructor
        · rintro ⟨m, hm, hname⟩
          obtain ⟨hm, hmv⟩ := List.mem_filter.1 hm
          exact ⟨m, (firsts_sublist _ _).subset hm, by rw [keyOf_of_variant hmv, hname]⟩
        · rintro ⟨m, hm, hk⟩
          obtain ⟨n, hn, hnm⟩ := exists_mem_firsts keyOf hm
          rw [hk] at hnm
          have hnv : isVariant n = true := by
            by_contra hnv
            rw [keyOf_of_not_variant hnv] at hnm
            cases hnm
          rw [keyOf_of_variant hnv] at hnm
          exact ⟨n, List.mem_filter.2 ⟨hn, hnv⟩, MemberKey.variants.inj hnm⟩
      obtain ⟨tag, hr⟩ := isVariant_iff.1 hv
      rw [hr, AggregateGraph.names_addVariant, if_congr hmet rfl rfl]
      split <;> simp [hv]
    · have hnone : (if keyOf l ∈ ls.map keyOf then [] else [l]).filter isVariant = [] := by
        split <;> simp [hv]
      rw [hnone, List.map_nil, List.append_nil]
      cases hr : l.relation with
      | variant tag => exact absurd (isVariant_iff.2 ⟨tag, hr⟩) hv
      | _ => rfl

theorem eq_of_mem_groupVariants {links : List Link} {v : VariationGroup}
    (hv : v ∈ groupVariants links) : v = ⟨v.name, variantsNamed v.name links⟩ := by
  have hfind := (find?_key_eq_some_iff VariationGroup.name
    (AggregateGraph.nodup_names_groupVariants links)).2 ⟨hv, rfl⟩
  rw [AggregateGraph.find?_groupVariants] at hfind
  split at hfind
  · cases hfind
  · exact (Option.some.inj hfind).symm

/-- The groups are the variations among the members. -/
theorem filterMap_group?_ofLinks {links : List Link} (hn : (links.map Edge.ends).Nodup) :
    (ofLinks (groupVariants links) links).filterMap group? = groupVariants links := by
  have hgroups : groupVariants links = ((groupVariants links).map (·.name)).map
      fun name => ⟨name, variantsNamed name links⟩ := by
    rw [List.map_map]
    exact (List.map_id _).symm.trans (List.map_congr_left fun v hv => eq_of_mem_groupVariants hv)
  rw [ofLinks_groupVariants_eq hn, List.filterMap_map]
  conv_rhs => rw [hgroups, names_groupVariants, List.map_map, ← List.filterMap_eq_map,
    List.filterMap_filter]
  refine List.filterMap_congr fun l _ => ?_
  by_cases hv : isVariant l = true
  · simp [ofLink_of_variant links hv, group?, hv]
  · rw [if_neg hv, Function.comp_apply, ofLink]
    cases hr : l.relation with
    | variant tag => exact absurd (isVariant_iff.2 ⟨tag, hr⟩) hv
    | _ => rfl

end Member

namespace AggregateGraph

/-- The members of an aggregate that are no scalars, and the edges that belong to them. -/
structure IsPartition (g : AggregateGraph) (a : Aggregate) (relations : List Member) : Prop where
  members_eq : members g a = a.scalars.map .scalar ++ relations
  belongs : ∀ l ∈ g.outgoing a, Member.ofLink (g.outgoing a) l ∈ relations ∧
    ∀ m ∈ members g a, l ∈ m.edges ↔ m = Member.ofLink (g.outgoing a) l
  covers : (relations.flatMap Member.edges).Perm (g.outgoing a)
  ordered : ∃ leaders : List Link, leaders.Sublist (g.outgoing a) ∧
    relations = leaders.map (Member.ofLink (g.outgoing a)) ∧
    ∀ l ∈ leaders, (Member.ofLink (g.outgoing a) l).edges.head? = some l
  variations : relations.filterMap Member.group? = variationGroups g a

/-- Scalars come first, and then every edge from the aggregate is in one member, in which the variants of
one name are together. Members stand in the order of their first edges, and edges in a member in the
order of declaration. -/
theorem isPartition_members (g : AggregateGraph) (a : Aggregate) :
    ∃ relations, IsPartition g a relations := by
  have hn : ((g.outgoing a).map Edge.ends).Nodup :=
    g.separate.sublist (List.filter_sublist.map _)
  have hsub : firsts Member.keyOf (g.outgoing a) ⊆ g.outgoing a := (firsts_sublist _ _).subset
  have hrelations := Member.ofLinks_groupVariants_eq hn
  refine ⟨_, rfl, fun l hl => ⟨?_, fun m hm => ⟨fun hlm => ?_, ?_⟩⟩, ?_, ?_,
    Member.filterMap_group?_ofLinks hn⟩
  · obtain ⟨k, hk, hkl⟩ := exists_mem_firsts Member.keyOf hl
    rw [variationGroups, hrelations, ← Member.ofLink_eq_of_keyOf_eq hn (hsub hk) hl hkl]
    exact List.mem_map_of_mem hk
  · rw [members, variationGroups, hrelations] at hm
    rcases List.mem_append.1 hm with hm | hm
    · obtain ⟨s, -, rfl⟩ := List.mem_map.1 hm
      cases hlm
    · obtain ⟨k, hk, rfl⟩ := List.mem_map.1 hm
      rw [Member.edges_ofLink hn (hsub hk)] at hlm
      exact (Member.ofLink_eq_of_keyOf_eq hn hl (hsub hk)
        (of_decide_eq_true (List.mem_filter.1 hlm).2)).symm
  · rintro rfl
    rw [Member.edges_ofLink hn hl]
    exact List.mem_filter.2 ⟨hl, decide_eq_true rfl⟩
  · rw [variationGroups, hrelations, List.flatMap_map,
      List.flatMap_congr fun l hl => Member.edges_ofLink hn (hsub hl)]
    exact flatMap_firsts_perm Member.keyOf (g.outgoing a)
  · refine ⟨_, firsts_sublist _ _, hrelations, fun l hl => ?_⟩
    rw [Member.edges_ofLink hn (hsub hl), List.head?_filter]
    exact mem_firsts_iff.1 hl

end AggregateGraph

end AggregateSchema
