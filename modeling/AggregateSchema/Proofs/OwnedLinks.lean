import AggregateSchema.Proofs.MemberShape
import AggregateSchema.Proofs.Ownership

/-! The members of an aggregate lead to everything that it owns, and to nothing twice. -/
namespace AggregateSchema

namespace AggregateGraph

theorem addVariant_perm (name : String) (tag : Int) (l : Link) (groups : List VariationGroup) :
    ((addVariant name tag l groups).flatMap fun v => v.variants.map (·.2)).Perm
      ((groups.flatMap fun v => v.variants.map (·.2)) ++ [l]) := by
  induction groups with
  | nil => simp [addVariant]
  | cons v vs ih =>
    rw [addVariant]
    by_cases h : v.name = name
    · rw [if_pos h, List.flatMap_cons, List.flatMap_cons, List.map_append, List.append_assoc,
        List.append_assoc]
      exact List.perm_append_comm.append_left _
    · rw [if_neg h, List.flatMap_cons, List.flatMap_cons, List.append_assoc]
      exact ih.append_left _

theorem names_addVariant (name : String) (tag : Int) (l : Link) (groups : List VariationGroup) :
    (addVariant name tag l groups).map (·.name) =
      if name ∈ groups.map (·.name) then groups.map (·.name) else groups.map (·.name) ++ [name] := by
  induction groups with
  | nil => rfl
  | cons v vs ih =>
    rw [addVariant]
    by_cases h : v.name = name
    · simp [h]
    · rw [if_neg h, List.map_cons, ih]
      by_cases hv : name ∈ vs.map (·.name) <;> simp [hv, Ne.symm h]

/-- Groups have distinct names. -/
theorem nodup_names_groupVariants (links : List Link) :
    ((groupVariants links).map (·.name)).Nodup := by
  induction links using List.reverseRecOn with
  | nil => exact List.nodup_nil
  | append_singleton ls l ih =>
    rw [groupVariants, List.foldl_append, ← groupVariants, List.foldl_cons, List.foldl_nil]
    cases l.relation with
    | variant tag =>
      rw [names_addVariant]
      split
      · exact ih
      · rename_i hn
        exact List.nodup_append.2 ⟨ih, List.nodup_singleton _, fun x hx y hy he =>
          hn (List.mem_singleton.1 hy ▸ he ▸ hx)⟩
    | _ => exact ih

def isVariant (l : Link) : Bool :=
  match l.relation with
  | .variant _ => true
  | _ => false

/-- Groups hold every variant once. -/
theorem groupVariants_perm (links : List Link) :
    ((groupVariants links).flatMap fun v => v.variants.map (·.2)).Perm (links.filter isVariant) := by
  induction links using List.reverseRecOn with
  | nil => rfl
  | append_singleton ls l ih =>
    rw [groupVariants, List.foldl_append, ← groupVariants, List.foldl_cons, List.foldl_nil,
      List.filter_append]
    cases hr : l.relation with
    | variant tag =>
      apply (addVariant_perm _ _ _ _).trans
      rw [List.filter_cons_of_pos (by simp [isVariant, hr]), List.filter_nil]
      exact ih.append_right _
    | _ => simpa [isVariant, hr] using ih

end AggregateGraph

namespace Member

/-- The edges to what a member owns. -/
def links : Member → List Link
  | child l | children l => [l]
  | variation v => v.variants.map (·.2)
  | scalar _ | reference _ => []

/-- Whether a variant of some name is among some edges. -/
def occurs (links : List Link) (v : VariationGroup) : Bool :=
  links.any fun l => AggregateGraph.isVariant l && l.name = v.name

theorem occurs_of_mem_groupVariants {ls : List Link} {v : VariationGroup}
    (h : v ∈ AggregateGraph.groupVariants ls) : occurs ls v = true := by
  have hne : AggregateGraph.variantsNamed v.name ls ≠ [] := by
    intro hnil
    have hnone := AggregateGraph.find?_groupVariants ls v.name
    rw [if_pos hnil] at hnone
    simpa using List.find?_eq_none.1 hnone v h
  obtain ⟨x, hx⟩ := List.exists_mem_of_ne_nil _ hne
  obtain ⟨l, hl, hlx⟩ := List.mem_filterMap.1 hx
  refine List.any_eq_true.2 ⟨l, hl, ?_⟩
  cases hr : l.relation with
  | variant tag =>
    by_cases hn : l.name = v.name
    · simp [AggregateGraph.isVariant, hr, hn]
    · simp [hr, hn] at hlx
  | _ => simp [hr] at hlx

def isPlain (l : Link) : Bool := l.relation.isOwnership && !AggregateGraph.isVariant l

theorem occurs_cons_of_not_variant {l : Link} (hl : AggregateGraph.isVariant l = false)
    (ls : List Link) : occurs (l :: ls) = occurs ls := by
  funext v
  rw [occurs, List.any_cons, hl, Bool.false_and, Bool.false_or]
  rfl

theorem occurs_cons_of_variant {l : Link} (hl : AggregateGraph.isVariant l = true) (ls : List Link)
    (v : VariationGroup) : occurs (l :: ls) v = (decide (v.name = l.name) || occurs ls v) := by
  rw [occurs, List.any_cons, hl, Bool.true_and]
  exact congrArg (· || _) (decide_eq_decide.2 eq_comm)

/-- The groups that occur are the one of the first variant, and those that occur without it. -/
theorem filter_occurs_cons_perm {groups : List VariationGroup} (hn : (groups.map (·.name)).Nodup)
    {l : Link} (hl : AggregateGraph.isVariant l = true) (ls : List Link) {v : VariationGroup}
    (hf : groups.find? (·.name = l.name) = some v) :
    (groups.filter (occurs (l :: ls))).Perm
      (v :: (groups.filter (·.name ≠ l.name)).filter (occurs ls)) := by
  have ho := occurs_cons_of_variant hl ls
  have hv := List.mem_of_find?_eq_some hf
  have hvn : v.name = l.name := by simpa using List.find?_some hf
  have hone := filter_key_eq_singleton VariationGroup.name hn hv
  rw [hvn] at hone
  have hfirst : (groups.filter (occurs (l :: ls))).filter (·.name = l.name) = [v] := by
    rw [← hone, List.filter_filter]
    apply List.filter_congr
    intro w _
    by_cases hw : w.name = l.name <;> simp [ho, hw]
  have hothers : (groups.filter (occurs (l :: ls))).filter (fun w => !(w.name = l.name : Bool)) =
      (groups.filter (·.name ≠ l.name)).filter (occurs ls) := by
    rw [List.filter_filter, List.filter_filter]
    apply List.filter_congr
    intro w _
    by_cases hw : w.name = l.name <;> simp [ho, hw]
  have hp := List.filter_append_perm (·.name = l.name) (groups.filter (occurs (l :: ls)))
  rw [hfirst, hothers] at hp
  exact hp.symm

/-- Every group with a variant among the edges is met once. -/
theorem links_ofLinks_perm {groups : List VariationGroup} (hn : (groups.map (·.name)).Nodup)
    (ls : List Link) : ((ofLinks groups ls).flatMap links).Perm
      (ls.filter isPlain ++
        (groups.filter (occurs ls)).flatMap fun v => v.variants.map (·.2)) := by
  induction ls generalizing groups with
  | nil => simp [ofLinks, occurs]
  | cons l ls ih =>
    rw [ofLinks]
    cases hr : l.relation with
    | child =>
      have hv : AggregateGraph.isVariant l = false := by simp [AggregateGraph.isVariant, hr]
      have hp : isPlain l = true := by simp [isPlain, hr, hv, Relation.isOwnership]
      rw [occurs_cons_of_not_variant hv, List.filter_cons_of_pos hp]
      exact (ih hn).cons l
    | children =>
      have hv : AggregateGraph.isVariant l = false := by simp [AggregateGraph.isVariant, hr]
      have hp : isPlain l = true := by simp [isPlain, hr, hv, Relation.isOwnership]
      rw [occurs_cons_of_not_variant hv, List.filter_cons_of_pos hp]
      exact (ih hn).cons l
    | reference isKey isDisplayName =>
      have hv : AggregateGraph.isVariant l = false := by simp [AggregateGraph.isVariant, hr]
      have hp : ¬ isPlain l = true := by simp [isPlain, hr, Relation.isOwnership]
      rw [occurs_cons_of_not_variant hv, List.filter_cons_of_neg hp]
      exact ih hn
    | variant tag =>
      have hv : AggregateGraph.isVariant l = true := by simp [AggregateGraph.isVariant, hr]
      have hp : ¬ isPlain l = true := by simp [isPlain, hv]
      rw [List.filter_cons_of_neg hp]
      cases hf : groups.find? (·.name = l.name) with
      | none =>
        have hne : ∀ v ∈ groups, ¬ v.name = l.name := by simpa using hf
        have hg : groups.filter (occurs (l :: ls)) = groups.filter (occurs ls) :=
          List.filter_congr fun v hmem => by simp [occurs_cons_of_variant hv, hne v hmem]
        rw [hg]
        exact ih hn
      | some v =>
        have hsplit := filter_occurs_cons_perm hn hv ls hf
        have hrest := ih (hn.sublist ((List.filter_sublist (p := (·.name ≠ l.name))).map _))
        refine List.Perm.trans ?_ ((hsplit.flatMap_right _).append_left _).symm
        rw [List.flatMap_cons, List.flatMap_cons]
        apply (hrest.append_left _).trans
        rw [← List.append_assoc, ← List.append_assoc]
        exact List.perm_append_comm.append_right _

end Member

namespace AggregateGraph
variable {g : AggregateGraph}

/-- The members of an aggregate lead to what it owns, each to something else. -/
theorem links_members_perm (a : Aggregate) :
    ((members g a).flatMap Member.links).Perm (ownedLinks g a) := by
  have hscalars : (a.scalars.map Member.scalar).flatMap Member.links = [] := by
    rw [List.flatMap_map]
    exact List.flatMap_eq_nil_iff.2 fun m _ => rfl
  have hall : (groupVariants (g.outgoing a)).filter (Member.occurs (g.outgoing a)) =
      groupVariants (g.outgoing a) :=
    List.filter_eq_self.2 fun v hv => Member.occurs_of_mem_groupVariants hv
  rw [members, List.flatMap_append, hscalars, List.nil_append]
  apply (Member.links_ofLinks_perm (nodup_names_groupVariants _) _).trans
  rw [hall]
  apply ((groupVariants_perm (g.outgoing a)).append_left _).trans
  have hp := List.filter_append_perm isVariant (ownedLinks g a)
  have hv : (ownedLinks g a).filter isVariant = (g.outgoing a).filter isVariant := by
    rw [ownedLinks, List.filter_filter]
    apply List.filter_congr
    intro l _
    cases hr : l.relation <;> simp [isVariant, hr, Relation.isOwnership]
  have hplain : (ownedLinks g a).filter (fun l => !isVariant l) =
      (g.outgoing a).filter Member.isPlain := by
    rw [ownedLinks, List.filter_filter]
    exact List.filter_congr fun l _ => Bool.and_comm _ _
  rw [hv, hplain] at hp
  exact List.perm_append_comm.trans hp

theorem mem_ownedLinks_of_mem_links {a : Aggregate} {m : Member} (hm : m ∈ members g a) {l : Link}
    (hl : l ∈ m.links) : l ∈ ownedLinks g a :=
  (links_members_perm a).mem_iff.1 (List.mem_flatMap.2 ⟨m, hm, hl⟩)

theorem terminal_mem_of_mem_links {a : Aggregate} {m : Member} (hm : m ∈ members g a) {l : Link}
    (hl : l ∈ m.links) : l.terminal ∈ g.nodes :=
  (g.closed l (mem_ownedLinks.1 (mem_ownedLinks_of_mem_links hm hl)).1).2

theorem IsForest.owner?_of_mem_links (hg : g.IsForest) {a : Aggregate} (ha : a ∈ g.nodes)
    {m : Member} (hm : m ∈ members g a) {l : Link} (hl : l ∈ m.links) :
    owner? g l.terminal = some a :=
  hg.owner?_terminal ha (mem_ownedLinks_of_mem_links hm hl)

theorem IsForest.parent?_of_mem_links (hg : g.IsForest) {a : Aggregate} (ha : a ∈ g.nodes)
    {m : Member} (hm : m ∈ members g a) {l : Link} (hl : l ∈ m.links) :
    l.terminal.path.parent? = some a.path :=
  hg.parent?_of_owner? (hg.owner?_of_mem_links ha hm hl)

/-- What the members of an aggregate own are different aggregates. -/
theorem IsForest.nodup_terminals (hg : g.IsForest) (a : Aggregate) :
    ((members g a).flatMap fun m => m.links.map (·.terminal.path)).Nodup := by
  rw [← List.map_flatMap, ((links_members_perm a).map _).nodup_iff]
  have hn : g.edges.Nodup := g.separate.of_map
  refine List.Nodup.map_on (fun l hl k hk he => ?_)
    (hn.sublist (List.filter_sublist.trans List.filter_sublist))
  obtain ⟨hle, -, hlo⟩ := mem_ownedLinks.1 hl
  obtain ⟨hke, -, hko⟩ := mem_ownedLinks.1 hk
  exact hg.single l hle k hke hlo hko he

end AggregateGraph

end AggregateSchema
