import AggregateSchema.Proofs.Declared

/-! The hierarchy of ownership, and when it is the hierarchy of paths. -/
namespace AggregateSchema

namespace AggregateGraph

/-- Ownership goes one name down, and nothing has two owners. -/
structure IsForest (g : AggregateGraph) : Prop where
  parent : ∀ l ∈ g.edges, l.relation.isOwnership = true →
    l.terminal.path.parent? = some l.initial.path
  single : ∀ l ∈ g.edges, ∀ m ∈ g.edges, l.relation.isOwnership = true →
    m.relation.isOwnership = true → l.terminal.path = m.terminal.path → l = m

variable {g : AggregateGraph}

theorem ownerLink?_spec {a : Aggregate} {l : Link} (h : g.ownerLink? a = some l) :
    l ∈ g.edges ∧ l.relation.isOwnership = true ∧ l.terminal.path = a.path := by
  have hm := Graph.mem_incoming g |>.1 (List.mem_of_find?_eq_some h)
  exact ⟨hm.1, by simpa using List.find?_some h, hm.2⟩

theorem ownerLink?_eq_none_iff {a : Aggregate} :
    g.ownerLink? a = none ↔
      ∀ l ∈ g.edges, l.relation.isOwnership = true → l.terminal.path ≠ a.path := by
  simp only [ownerLink?, List.find?_eq_none, Graph.mem_incoming, and_imp]
  exact ⟨fun h l hl ho ht => h l hl ht ho, fun h l hl ht ho => h l hl ho ht⟩

theorem isRoot_iff {a : Aggregate} : isRoot g a = true ↔ owner? g a = none := by
  simp [isRoot, owner?]

theorem mem_nodes_of_owner? {a o : Aggregate} (h : owner? g a = some o) : o ∈ g.nodes := by
  obtain ⟨l, hl, rfl⟩ := Option.map_eq_some_iff.1 h
  exact (g.closed l (ownerLink?_spec hl).1).1

theorem mem_ownedLinks {a : Aggregate} {l : Link} :
    l ∈ ownedLinks g a ↔
      l ∈ g.edges ∧ l.initial.path = a.path ∧ l.relation.isOwnership = true := by
  rw [ownedLinks, List.mem_filter, Graph.mem_outgoing, and_assoc]
  rfl

namespace IsForest

theorem ownerLink?_eq_some (hg : g.IsForest) {l : Link} (hl : l ∈ g.edges)
    (ho : l.relation.isOwnership = true) : g.ownerLink? l.terminal = some l := by
  cases h : g.ownerLink? l.terminal with
  | none => exact absurd rfl (ownerLink?_eq_none_iff.1 h l hl ho)
  | some m =>
    obtain ⟨hm, hmo, ht⟩ := ownerLink?_spec h
    rw [hg.single m hm l hl hmo ho ht]

theorem owner?_terminal (hg : g.IsForest) {a : Aggregate} (ha : a ∈ g.nodes) {l : Link}
    (hl : l ∈ ownedLinks g a) : owner? g l.terminal = some a := by
  obtain ⟨he, hi, ho⟩ := mem_ownedLinks.1 hl
  rw [owner?, hg.ownerLink?_eq_some he ho, Option.map_some]
  exact congrArg some (g.eq_of_id_eq (g.closed l he).1 ha hi)

theorem parent?_of_owner? (hg : g.IsForest) {a o : Aggregate} (h : owner? g a = some o) :
    a.path.parent? = some o.path := by
  obtain ⟨l, hl, rfl⟩ := Option.map_eq_some_iff.1 h
  obtain ⟨he, ho, ht⟩ := ownerLink?_spec hl
  rw [← ht]
  exact hg.parent l he ho

/-- What holds of roots, and of an aggregate once it holds of its owner, holds of all. -/
theorem induction (hg : g.IsForest) {P : (a : Aggregate) → a ∈ g.nodes → Prop}
    (root : ∀ a ha, owner? g a = none → P a ha)
    (owned : ∀ a ha o ho, owner? g a = some o → P o ho → P a ha)
    {a : Aggregate} (ha : a ∈ g.nodes) : P a ha := by
  generalize hd : a.path.depth = depth
  induction depth generalizing a with
  | zero =>
    apply root a ha
    cases h : owner? g a with
    | none => rfl
    | some o =>
      have := Path.depth_of_parent? (hg.parent?_of_owner? h)
      omega
  | succ depth ih =>
    cases h : owner? g a with
    | none => exact root a ha h
    | some o =>
      have := Path.depth_of_parent? (hg.parent?_of_owner? h)
      have ho := mem_nodes_of_owner? h
      exact owned a ha o ho h (ih ho (by omega))

end IsForest

theorem ancestors_of_root {a : Aggregate} (h : owner? g a = none) : ancestors g a = [] := by
  unfold ancestors
  cases a.path.depth with
  | zero => rfl
  | succ n => simp [ownersWithin, h]

theorem IsForest.ancestors_of_owner? (hg : g.IsForest) {a o : Aggregate}
    (h : owner? g a = some o) : ancestors g a = ancestors g o ++ [o] := by
  simp [ancestors, Path.depth_of_parent? (hg.parent?_of_owner? h), ownersWithin, h]

theorem IsForest.mem_nodes_of_mem_ancestors (hg : g.IsForest) {a b : Aggregate} (hb : b ∈ g.nodes)
    (h : a ∈ ancestors g b) : a ∈ g.nodes := by
  induction hb using hg.induction with
  | root b hb hr => simp [ancestors_of_root hr] at h
  | owned b hb o ho hbo ih =>
    rw [hg.ancestors_of_owner? hbo] at h
    rcases List.mem_append.1 h with h | h
    · exact ih h
    · exact List.mem_singleton.1 h ▸ ho

/-- The two notions of being inside an aggregate, by names and by ownership, are one. -/
structure FollowsPaths (g : AggregateGraph) : Prop where
  below : ∀ a ∈ g.nodes, ∀ b ∈ g.nodes, b.path.isBelow a.path = true ↔ a ∈ ancestors g b
  root : ∀ a ∈ g.nodes, isRoot g a = true ↔ a.path.isRoot = true
  owner : ∀ a ∈ g.nodes, (owner? g a).map (·.path) = a.path.parent?

/-- It is enough that an aggregate without owner has a path of one name. -/
theorem IsForest.followsPaths (hg : g.IsForest)
    (h : ∀ a ∈ g.nodes, owner? g a = none → a.path.isRoot = true) : g.FollowsPaths where
  below a ha b hb := by
    induction hb using hg.induction with
    | root b hb hr =>
      have hp := Path.parent?_eq_none_iff.2 (h b hb hr)
      simp [ancestors_of_root hr, Path.not_isBelow_of_parent?_eq_none hp]
    | owned b hb o ho hbo ih =>
      rw [Path.isBelow_iff_of_parent? (hg.parent?_of_owner? hbo), hg.ancestors_of_owner? hbo,
        List.mem_append, List.mem_singleton, ih, or_comm]
      exact or_congr_right ⟨fun e => g.eq_of_id_eq ha ho e.symm, fun e => e ▸ rfl⟩
  root a ha := by
    rw [isRoot_iff]
    refine ⟨h a ha, fun hr => ?_⟩
    cases ho : owner? g a with
    | none => rfl
    | some o =>
      have := hg.parent?_of_owner? ho
      rw [Path.parent?_eq_none_iff.2 hr] at this
      cases this
  owner a ha := by
    cases ho : owner? g a with
    | none => exact (Path.parent?_eq_none_iff.2 (h a ha ho)).symm
    | some o => exact (hg.parent?_of_owner? ho).symm

end AggregateGraph

namespace Draft
variable {d : Draft} {base : TypeRegistry} {s : Schema}

theorem mem_ownedPaths {p : Path} :
    p ∈ Resolution.ownedPaths (d.resolution base).edges ↔
      ∃ e ∈ (d.resolution base).edges, e.relation.isOwnership = true ∧ e.terminal = p := by
  simp [Resolution.ownedPaths, and_assoc]

/-- No two declared edges of ownership lead to one aggregate. -/
theorem eq_of_terminal_eq (h : d.resolve base = .ok s) {e f : Edge Path Relation}
    (he : e ∈ (d.resolution base).edges) (hf : f ∈ (d.resolution base).edges)
    (heo : e.relation.isOwnership = true) (hfo : f.relation.isOwnership = true)
    (ht : e.terminal = f.terminal) : e = f :=
  List.inj_on_of_nodup_map (List.nodup_append.1 (nodup_roots_owned h)).2.1
    (List.mem_filter.2 ⟨he, heo⟩) (List.mem_filter.2 ⟨hf, hfo⟩) ht

/-- Ownership in a resolved draft is a forest. -/
theorem isForest (h : d.resolve base = .ok s) : s.graph.IsForest where
  parent l hl ho := parent?_of_declared_edge (declared_mem_of_resolve h hl) ho
  single l hl m hm hlo hmo ht := by
    have he : l.declared = m.declared := eq_of_terminal_eq h (declared_mem_of_resolve h hl)
      (declared_mem_of_resolve h hm) hlo hmo ht
    exact s.graph.eq_of_ends_eq hl hm (congrArg Edge.identity he)

/-- Every root is declared at a path of one name. -/
def RootsAtTop (d : Draft) : Prop := ∀ p ∈ d.rootPaths, p.isRoot = true

instance (d : Draft) : Decidable d.RootsAtTop :=
  inferInstanceAs (Decidable (∀ p ∈ d.rootPaths, p.isRoot = true))

/-- Between the same aggregates and by the same name, no reference is declared before an
ownership. -/
def OwnershipFirst (d : Draft) (base : TypeRegistry) : Prop :=
  (d.resolution base).edges.Pairwise fun e f =>
    e.identity = f.identity → f.relation.isOwnership = true → e.relation.isOwnership = true

instance (d : Draft) (base : TypeRegistry) : Decidable (d.OwnershipFirst base) :=
  inferInstanceAs (Decidable (List.Pairwise _ _))

/-- What a search finds first stands before every other item that it could have found. -/
theorem find?_eq_or_rel {α : Type} {R : α → α → Prop} {p : α → Bool} {xs : List α} {x y : α}
    (h : xs.Pairwise R) (hy : xs.find? p = some y) (hx : x ∈ xs) (hp : p x = true) :
    y = x ∨ R y x := by
  obtain ⟨_, before, after, rfl, hb⟩ := List.find?_eq_some_iff_append.1 hy
  rcases List.mem_append.1 hx with hx | hx
  · exact absurd hp (by simpa using hb x hx)
  · rcases List.mem_cons.1 hx with rfl | hx
    · exact Or.inl rfl
    · exact Or.inr (List.rel_of_pairwise_cons (List.pairwise_append.1 h).2.1 hx)

/-- An edge of ownership is in the graph exactly if it is the first of its identity. -/
theorem exists_link_iff (h : d.resolve base = .ok s) {f : Edge Path Relation}
    (hf : f ∈ (d.resolution base).edges) (ho : f.relation.isOwnership = true) :
    (∃ l ∈ s.graph.edges, l.relation.isOwnership = true ∧ l.terminal.path = f.terminal) ↔
      (d.resolution base).edges.find? (·.identity = f.identity) = some f := by
  rw [← mem_firsts_iff, ← edges_of_resolve h]
  constructor
  · rintro ⟨l, hl, hlo, ht⟩
    have he : l.declared = f := eq_of_terminal_eq h (declared_mem_of_resolve h hl) hf hlo ho ht
    exact he ▸ List.mem_map_of_mem hl
  · intro hm
    obtain ⟨l, hl, rfl⟩ := List.mem_map.1 hm
    exact ⟨l, hl, ho, rfl⟩

theorem exists_node_of_mem_rootPaths (h : d.resolve base = .ok s) {p : Path}
    (hp : p ∈ d.rootPaths ++ Resolution.ownedPaths (d.resolution base).edges) :
    ∃ a ∈ s.graph.nodes, a.path = p := by
  rw [nodes_of_resolve h]
  exact List.mem_map.1 ((paths_perm d base).mem_iff.2 hp)

/-- Without a reference before it, every declared ownership is in the graph. -/
theorem isRoot_of_owner?_eq_none (h : d.resolve base = .ok s) (ht : d.RootsAtTop)
    (hf : d.OwnershipFirst base) {a : Aggregate} (ha : a ∈ s.graph.nodes)
    (hr : s.graph.owner? a = none) : a.path.isRoot = true := by
  have hm : a.path ∈ (d.resolution base).aggregates.map Aggregate.path :=
    List.mem_map_of_mem (nodes_of_resolve h ▸ ha)
  rcases List.mem_append.1 ((paths_perm d base).mem_iff.1 hm) with hp | hp
  · exact ht _ hp
  · obtain ⟨f, hfe, hfo, hft⟩ := mem_ownedPaths.1 hp
    obtain ⟨e, he⟩ := Option.isSome_iff_exists.1 (List.find?_isSome.2 ⟨f, hfe, by simp⟩ :
      ((d.resolution base).edges.find? (·.identity = f.identity)).isSome = true)
    have hid : e.identity = f.identity := by simpa using List.find?_some he
    have heo : e.relation.isOwnership = true := by
      rcases find?_eq_or_rel hf he hfe (by simp) with rfl | hR
      · exact hfo
      · exact hR hid hfo
    have hee := List.mem_of_find?_eq_some he
    have hef : e = f := eq_of_terminal_eq h hee hfe heo hfo (congrArg (·.2.1) hid)
    obtain ⟨l, hl, hlo, hlt⟩ := (exists_link_iff h hfe hfo).2 (hef ▸ he)
    have hn := AggregateGraph.ownerLink?_eq_none_iff.1 (Option.map_eq_none_iff.1 hr) l hl hlo
    exact absurd (hlt.trans hft) hn

theorem rootsAtTop_of_followsPaths (h : d.resolve base = .ok s) (hs : s.graph.FollowsPaths) :
    d.RootsAtTop := by
  intro p hp
  obtain ⟨a, ha, rfl⟩ := exists_node_of_mem_rootPaths h (List.mem_append_left _ hp)
  refine (hs.root a ha).1 (AggregateGraph.isRoot_iff.2 ?_)
  cases ho : s.graph.ownerLink? a with
  | none => simp [AggregateGraph.owner?, ho]
  | some l =>
    obtain ⟨hl, hlo, ht⟩ := AggregateGraph.ownerLink?_spec ho
    have hm : a.path ∈ Resolution.ownedPaths (d.resolution base).edges :=
      mem_ownedPaths.2 ⟨l.declared, declared_mem_of_resolve h hl, hlo, ht⟩
    exact absurd rfl ((List.nodup_append.1 (nodup_roots_owned h)).2.2 _ hp _ hm)

theorem ownershipFirst_of_followsPaths (h : d.resolve base = .ok s) (hs : s.graph.FollowsPaths) :
    d.OwnershipFirst base := by
  refine List.pairwise_iff_forall_sublist.2 fun {e f} hef hid hfo => ?_
  have hfe : f ∈ (d.resolution base).edges := hef.subset (by simp)
  obtain ⟨a, ha, hat⟩ := exists_node_of_mem_rootPaths h
    (List.mem_append_right _ (mem_ownedPaths.2 ⟨f, hfe, hfo, rfl⟩))
  have hroot : ¬ a.path.isRoot = true := by
    rw [hat, ← Path.parent?_eq_none_iff, parent?_of_declared_edge hfe hfo]
    simp
  obtain ⟨l, hl⟩ : ∃ l, s.graph.ownerLink? a = some l := by
    refine Option.ne_none_iff_exists'.1 fun hn => hroot ((hs.root a ha).1 ?_)
    simp [AggregateGraph.isRoot, hn]
  obtain ⟨hle, hlo, hlt⟩ := AggregateGraph.ownerLink?_spec hl
  have hfirst := (exists_link_iff h hfe hfo).1 ⟨l, hle, hlo, hlt.trans hat⟩
  obtain ⟨_, before, after, hsplit, hb⟩ := List.find?_eq_some_iff_append.1 hfirst
  have hnodup : (before ++ f :: after).filter (·.relation.isOwnership) |>.Nodup := by
    rw [← hsplit]
    exact ((List.nodup_append.1 (nodup_roots_owned h)).2.1).of_map
  have hfa : f ∉ after := by
    rw [List.filter_append, List.filter_cons_of_pos (by exact hfo)] at hnodup
    have hcons := List.nodup_cons.1 (List.nodup_append.1 hnodup).2.1
    exact fun hm => hcons.1 (List.mem_filter.2 ⟨hm, hfo⟩)
  rw [hsplit] at hef
  obtain ⟨us, vs, huv, hu, hv⟩ := List.sublist_append_iff.1 hef
  cases us with
  | cons u us =>
    obtain ⟨rfl, -⟩ := List.cons.inj huv
    have := hb e (hu.subset List.mem_cons_self)
    simp [hid] at this
  | nil =>
    obtain rfl : [e, f] = vs := huv
    rcases List.sublist_cons_iff.1 hv with hv | ⟨r, hr, hv⟩
    · exact absurd (hv.subset (by simp)) hfa
    · obtain ⟨rfl, -⟩ := List.cons.inj hr
      exact hfo

/-- Names and ownership make one hierarchy exactly if roots are declared at the top and no reference
takes the place of an ownership. -/
theorem followsPaths_iff (h : d.resolve base = .ok s) :
    s.graph.FollowsPaths ↔ d.RootsAtTop ∧ d.OwnershipFirst base := by
  constructor
  · exact fun hs => ⟨rootsAtTop_of_followsPaths h hs, ownershipFirst_of_followsPaths h hs⟩
  · rintro ⟨ht, hf⟩
    exact (isForest h).followsPaths fun a ha hr => isRoot_of_owner?_eq_none h ht hf ha hr

theorem followsPaths_orders :
    ∃ s, orders.resolve .standard = .ok s ∧ s.graph.FollowsPaths := by
  obtain ⟨s, hs, -⟩ := exists_ok_of_any (orders.resolve .standard)
    (fun _ => true) (by decide +kernel)
  exact ⟨s, hs, (followsPaths_iff hs).2 ⟨by decide +kernel, by decide +kernel⟩⟩

/-- A reference that is declared before the children of its name takes their place. -/
def hiddenChildren : Draft where
  declarations := [
    .aggregate "/Order" none [⟨"number", "integer", true, true, false⟩],
    .reference "Line" "/Order" "/Order/Line" false false,
    .children "Line" "/Order" none [⟨"position", "integer", true, true, false⟩]]
  enumerations := []

/-- A root that is declared below another one is not owned by it. -/
def nestedRoot : Draft where
  declarations := [
    .aggregate "/Order" none [⟨"number", "integer", true, true, false⟩],
    .aggregate "/Order/Line" none [⟨"position", "integer", true, true, false⟩]]
  enumerations := []

/-- A path of two names whose aggregate has no owner. -/
theorem not_followsPaths_of_draft :
    (∃ s, hiddenChildren.resolve .standard = .ok s ∧ ¬ s.graph.FollowsPaths) ∧
      ∃ s, nestedRoot.resolve .standard = .ok s ∧ ¬ s.graph.FollowsPaths := by
  have hroot : ∀ s : Schema,
      (s.graph.nodes.any fun a => s.graph.isRoot a && !a.path.isRoot) = true →
        ¬ s.graph.FollowsPaths := by
    intro s hs hf
    obtain ⟨a, ha, h⟩ := List.any_eq_true.1 hs
    simp only [Bool.and_eq_true, Bool.not_eq_true'] at h
    exact absurd ((hf.root a ha).1 h.1) (by simp [h.2])
  constructor
  · obtain ⟨s, hs, h⟩ := exists_ok_of_any (hiddenChildren.resolve .standard)
      (fun s => s.graph.nodes.any fun a => s.graph.isRoot a && !a.path.isRoot)
      (by decide +kernel)
    exact ⟨s, hs, hroot s h⟩
  · obtain ⟨s, hs, h⟩ := exists_ok_of_any (nestedRoot.resolve .standard)
      (fun s => s.graph.nodes.any fun a => s.graph.isRoot a && !a.path.isRoot)
      (by decide +kernel)
    exact ⟨s, hs, hroot s h⟩

end Draft

end AggregateSchema
