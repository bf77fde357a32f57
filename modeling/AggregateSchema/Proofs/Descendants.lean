import AggregateSchema.Proofs.KeyCycles

/-! What an aggregate owns, level by level: each aggregate is listed once, right before everything that
it owns itself, and with the edges that lead to it. -/
namespace AggregateSchema

/-- A sublist that holds all of some distinct items is the whole list. -/
theorem eq_of_sublist_of_subset {α : Type} {xs ys : List α} (h : xs.Sublist ys) (hn : ys.Nodup)
    (hs : ys ⊆ xs) : xs = ys :=
  h.eq_of_length_le (List.subperm_of_subset hn hs).length_le

namespace AggregateGraph

/-- Whether one aggregate owns another one through some edges, each from where the one before leads. -/
def OwnsThrough (g : AggregateGraph) : Aggregate → List Link → Aggregate → Prop
  | a, [], b => a = b
  | a, l :: ls, b => l ∈ ownedLinks g a ∧ OwnsThrough g l.terminal ls b

variable {g : AggregateGraph} {a b o : Aggregate} {v w : Visit Aggregate Relation}

theorem ownsThrough_append {ls ks : List Link} :
    g.OwnsThrough a (ls ++ ks) b ↔ ∃ c, g.OwnsThrough a ls c ∧ g.OwnsThrough c ks b := by
  induction ls generalizing a with
  | nil => simp [OwnsThrough]
  | cons l ls ih => simp [OwnsThrough, ih, and_assoc]

theorem OwnsThrough.mem_nodes {ls : List Link} (ha : a ∈ g.nodes) (h : g.OwnsThrough a ls b) :
    b ∈ g.nodes := by
  induction ls generalizing a with
  | nil => exact h ▸ ha
  | cons l ls ih => exact ih (g.closed l (mem_ownedLinks.1 h.1).1).2 h.2

theorem terminal_mem_of_mem_ownedLinks {l : Link} (hl : l ∈ ownedLinks g a) : l.terminal ∈ g.nodes :=
  (g.closed l (mem_ownedLinks.1 hl).1).2

namespace IsForest

theorem owner?_eq_some_iff (hg : g.IsForest) (hb : b ∈ g.nodes) (ho : o ∈ g.nodes) :
    owner? g b = some o ↔ ∃ l ∈ ownedLinks g o, l.terminal = b := by
  constructor
  · intro h
    obtain ⟨l, hl, ht⟩ := mem_ownedLinks_of_owner? h
    exact ⟨l, hl, g.eq_of_id_eq (terminal_mem_of_mem_ownedLinks hl) hb ht⟩
  · rintro ⟨l, hl, rfl⟩
    exact hg.owner?_terminal ho hl

theorem height_lt_of_mem_ownedLinks (hg : g.IsForest) {l : Link} (hl : l ∈ ownedLinks g a) :
    height g l.terminal < height g a := by
  obtain ⟨he, hi, ho⟩ := mem_ownedLinks.1 hl
  exact height_lt_of_parent? (terminal_mem_of_mem_ownedLinks hl) (hi ▸ hg.parent l he ho)

/-- Ways up end. -/
theorem wellFounded_owner? (hg : g.IsForest) : WellFounded fun o a => g.owner? a = some o :=
  Subrelation.wf (fun h => by
    have := Path.depth_of_parent? (hg.parent?_of_owner? h)
    exact Nat.lt_of_lt_of_eq (Nat.lt_succ_self _) this.symm) (measure fun a => a.path.depth).wf

/-- Ways down end. -/
theorem wellFounded_ownedLinks (hg : g.IsForest) :
    WellFounded fun b a => ∃ l ∈ ownedLinks g a, l.terminal = b :=
  Subrelation.wf (fun ⟨_, hl, ht⟩ => ht ▸ hg.height_lt_of_mem_ownedLinks hl) (measure (height g)).wf

theorem ancestors_eq (hg : g.IsForest) (a : Aggregate) :
    g.ancestors a = match g.owner? a with
      | some o => g.ancestors o ++ [o]
      | none => [] := by
  cases h : g.owner? a with
  | none => exact ancestors_of_root h
  | some o => exact hg.ancestors_of_owner? h

/-- An edge of ownership is a step of a walk. -/
theorem toTerminal_eq (hg : g.IsForest) {l : Link} (hl : l ∈ ownedLinks g v.node) :
    v.toTerminal l = ⟨l.terminal, v.trail ++ [l]⟩ := by
  obtain ⟨he, hi, ho⟩ := mem_ownedLinks.1 hl
  have hd := Path.depth_of_parent? (hg.parent l he ho)
  have hne : ¬ l.terminal.path = v.node.path := fun h => by
    rw [h, ← hi] at hd
    omega
  exact if_neg hne

/-- The levels counted are always enough. -/
theorem descendants_eq (hg : g.IsForest) (hv : v.node ∈ g.nodes) :
    g.descendants v = (ownedLinks g v.node).flatMap fun l =>
      v.toTerminal l :: g.descendants (v.toTerminal l) := by
  rw [descendants, ← ownedWithin_succ hg.parent (Nat.le_of_lt (height_lt_length hv)), ownedWithin]
  rfl

/-- A walk from an aggregate down comes along the edges through which it owns where the walk ends. -/
theorem mem_descendants_iff (hg : g.IsForest) (hv : v.node ∈ g.nodes) :
    w ∈ g.descendants v ↔ ∃ l ls, g.OwnsThrough v.node (l :: ls) w.node ∧
      w.trail = v.trail ++ l :: ls := by
  obtain ⟨a, trail⟩ := v
  obtain ⟨b, trail'⟩ := w
  induction a using hg.wellFounded_ownedLinks.induction generalizing trail with
  | _ a ih =>
    rw [hg.descendants_eq hv, List.mem_flatMap]
    dsimp only at hv ⊢
    refine exists_congr fun l => ?_
    simp only [OwnsThrough, and_assoc, exists_and_left]
    refine and_congr_right fun hl => ?_
    rw [hg.toTerminal_eq hl, List.mem_cons,
      ih l.terminal ⟨l, hl, rfl⟩ (trail ++ [l]) (terminal_mem_of_mem_ownedLinks hl)]
    dsimp only
    constructor
    · rintro (h | ⟨k, ks, hk, rfl⟩)
      · cases h
        exact ⟨[], rfl, rfl⟩
      · exact ⟨k :: ks, hk, List.append_assoc ..⟩
    · rintro ⟨_ | ⟨k, ks⟩, hk, rfl⟩
      · cases hk
        exact Or.inl rfl
      · exact Or.inr ⟨k, ks, hk, (List.append_assoc trail [l] (k :: ks)).symm⟩

/-- The last edge on the way to an aggregate is that from its owner. -/
theorem ownsThrough_concat_iff (hg : g.IsForest) (ha : a ∈ g.nodes) {ls : List Link} {l : Link} :
    g.OwnsThrough a (ls ++ [l]) b ↔
      ∃ o, owner? g b = some o ∧ g.OwnsThrough a ls o ∧ l ∈ ownedLinks g o ∧ l.terminal = b := by
  rw [ownsThrough_append]
  refine exists_congr fun o => ⟨fun ⟨ho, hl, ht⟩ => ⟨?_, ho, hl, ht⟩, And.right⟩
  exact ht ▸ hg.owner?_terminal (ho.mem_nodes ha) hl

/-- What an aggregate owns at whatever level has it among its ancestors. -/
theorem mem_ancestors_iff (hg : g.IsForest) (ha : a ∈ g.nodes) (hb : b ∈ g.nodes) :
    a ∈ g.ancestors b ↔ ∃ ls l, g.OwnsThrough a (ls ++ [l]) b := by
  simp only [hg.ownsThrough_concat_iff ha]
  induction hb using hg.induction with
  | root b hb hr => simp [ancestors_of_root hr, hr]
  | owned b hb o ho hbo ih =>
    obtain ⟨k, hk, ht⟩ := (hg.owner?_eq_some_iff hb ho).1 hbo
    have hway : (∃ ls l c, owner? g b = some c ∧ g.OwnsThrough a ls c ∧ l ∈ ownedLinks g c ∧
        l.terminal = b) ↔ ∃ ls, g.OwnsThrough a ls o := by
      constructor
      · rintro ⟨ls, l, c, hc, hls, -⟩
        exact ⟨ls, Option.some.inj (hc.symm.trans hbo) ▸ hls⟩
      · exact fun ⟨ls, hls⟩ => ⟨ls, k, o, hbo, hls, hk, ht⟩
    rw [hg.ancestors_of_owner? hbo, List.mem_append, List.mem_singleton, ih, hway]
    constructor
    · rintro (⟨ls, l, h⟩ | rfl)
      · exact ⟨ls ++ [l], (hg.ownsThrough_concat_iff ha).2 h⟩
      · exact ⟨[], rfl⟩
    · rintro ⟨ls, h⟩
      induction ls using List.reverseRecOn with
      | nil => exact Or.inr h
      | append_singleton ls l _ => exact Or.inl ⟨ls, l, (hg.ownsThrough_concat_iff ha).1 h⟩

/-- There is one way from an aggregate to what it owns. -/
theorem eq_of_ownsThrough (hg : g.IsForest) (ha : a ∈ g.nodes) {ls ks : List Link}
    (hl : g.OwnsThrough a ls b) (hk : g.OwnsThrough a ks b) : ls = ks := by
  -- an aggregate does not own itself
  have hself : ∀ (ls : List Link) (l : Link), ¬ g.OwnsThrough a (ls ++ [l]) a := fun ls l h =>
    absurd (hg.depth_lt_of_mem_ancestors ha ((hg.mem_ancestors_iff ha ha).2 ⟨ls, l, h⟩))
      (Nat.lt_irrefl _)
  induction ls using List.reverseRecOn generalizing ks b with
  | nil =>
    obtain rfl : a = b := hl
    rcases List.eq_nil_or_concat' ks with rfl | ⟨ks, k, rfl⟩
    · rfl
    · exact absurd hk (hself ks k)
  | append_singleton ls l ih =>
    rcases List.eq_nil_or_concat' ks with rfl | ⟨ks, k, rfl⟩
    · obtain rfl : a = b := hk
      exact absurd hl (hself ls l)
    · obtain ⟨o, ho, hlo, hlm, hlt⟩ := (hg.ownsThrough_concat_iff ha).1 hl
      obtain ⟨p, hp, hkp, hkm, hkt⟩ := (hg.ownsThrough_concat_iff ha).1 hk
      obtain rfl : o = p := Option.some.inj (ho.symm.trans hp)
      obtain ⟨hle, -, hlown⟩ := mem_ownedLinks.1 hlm
      obtain ⟨hke, -, hkown⟩ := mem_ownedLinks.1 hkm
      rw [ih hlo hkp, hg.single l hle k hke hlown hkown (by rw [hlt, hkt])]

theorem mem_nodes_of_mem_descendants (hg : g.IsForest) (hv : v.node ∈ g.nodes)
    (hw : w ∈ g.descendants v) : w.node ∈ g.nodes := by
  obtain ⟨l, ls, h, -⟩ := (hg.mem_descendants_iff hv).1 hw
  exact h.mem_nodes hv

/-- What is listed is what has the aggregate among its ancestors. -/
theorem mem_map_descendants_iff (hg : g.IsForest) (hv : v.node ∈ g.nodes) (hb : b ∈ g.nodes) :
    b ∈ (g.descendants v).map (·.node) ↔ v.node ∈ g.ancestors b := by
  rw [hg.mem_ancestors_iff hv hb, List.mem_map]
  constructor
  · rintro ⟨w, hw, rfl⟩
    obtain ⟨l, ls, h, -⟩ := (hg.mem_descendants_iff hv).1 hw
    refine ⟨(l :: ls).dropLast, (l :: ls).getLast (List.cons_ne_nil l ls), ?_⟩
    rwa [List.dropLast_concat_getLast]
  · rintro ⟨ls, l, h⟩
    obtain ⟨k, ks, hks⟩ := List.exists_cons_of_ne_nil (List.append_ne_nil_of_right_ne_nil ls
      (List.cons_ne_nil l []))
    exact ⟨⟨b, v.trail ++ k :: ks⟩, (hg.mem_descendants_iff hv).2 ⟨k, ks, hks ▸ h, rfl⟩, rfl⟩

/-- What is listed for an edge is reached by a way that starts with it. -/
theorem exists_ownsThrough_of_mem (hg : g.IsForest) {l : Link} (hl : l ∈ ownedLinks g v.node)
    (hb : b ∈ (v.toTerminal l :: g.descendants (v.toTerminal l)).map (·.node)) :
    ∃ ls, g.OwnsThrough v.node (l :: ls) b := by
  rw [hg.toTerminal_eq hl] at hb
  rcases List.mem_cons.1 hb with rfl | hb
  · exact ⟨[], hl, rfl⟩
  · obtain ⟨w, hw, rfl⟩ := List.mem_map.1 hb
    obtain ⟨k, ks, h, -⟩ := (hg.mem_descendants_iff (terminal_mem_of_mem_ownedLinks hl)).1 hw
    exact ⟨k :: ks, hl, h⟩

/-- Nothing is listed twice. -/
theorem nodup_descendants (hg : g.IsForest) (hv : v.node ∈ g.nodes) :
    ((g.descendants v).map (·.node)).Nodup := by
  obtain ⟨a, trail⟩ := v
  induction a using hg.wellFounded_ownedLinks.induction generalizing trail with
  | _ a ih =>
    rw [hg.descendants_eq hv, List.map_flatMap, List.nodup_flatMap]
    constructor
    · intro l hl
      have ht := terminal_mem_of_mem_ownedLinks hl
      rw [hg.toTerminal_eq hl, List.map_cons]
      refine List.nodup_cons.2 ⟨fun hm => ?_, ih l.terminal ⟨l, hl, rfl⟩ _ ht⟩
      exact absurd (hg.depth_lt_of_mem_ancestors ht ((hg.mem_map_descendants_iff ht ht).1 hm))
        (Nat.lt_irrefl _)
    · have hn : (ownedLinks g a).Nodup :=
        g.separate.of_map.sublist (List.filter_sublist.trans List.filter_sublist)
      refine hn.imp_of_mem fun {l k} hl hk hne b hbl hbk => hne ?_
      obtain ⟨ls, hls⟩ := hg.exists_ownsThrough_of_mem hl hbl
      obtain ⟨ks, hks⟩ := hg.exists_ownsThrough_of_mem hk hbk
      exact (List.cons.inj (hg.eq_of_ownsThrough hv hls hks)).1

/-- What an aggregate owns is listed right behind it. -/
theorem cons_descendants_infix (hg : g.IsForest) (hv : v.node ∈ g.nodes)
    (hw : w ∈ g.descendants v) : w :: g.descendants w <:+: g.descendants v := by
  obtain ⟨a, trail⟩ := v
  induction a using hg.wellFounded_ownedLinks.induction generalizing trail with
  | _ a ih =>
    rw [hg.descendants_eq hv] at hw ⊢
    obtain ⟨l, hl, hw⟩ := List.mem_flatMap.1 hw
    have hblock := List.infix_of_mem_flatten (List.mem_map_of_mem hl
      (f := fun l => (Visit.mk a trail).toTerminal l :: g.descendants ((Visit.mk a trail).toTerminal l)))
    refine List.IsInfix.trans ?_ hblock
    rcases List.mem_cons.1 hw with rfl | hw
    · exact List.infix_rfl
    · rw [hg.toTerminal_eq hl] at hw ⊢
      exact (ih l.terminal ⟨l, hl, rfl⟩ _ (terminal_mem_of_mem_ownedLinks hl) hw).trans
        (List.suffix_cons _ _).isInfix

/-- The owner of what is listed is listed before it, unless it is where the list starts. -/
theorem pair_sublist_descendants (hg : g.IsForest) (hv : v.node ∈ g.nodes)
    (hb : b ∈ (g.descendants v).map (·.node)) (ho : owner? g b = some o) :
    o = v.node ∨ [o, b].Sublist ((g.descendants v).map (·.node)) := by
  obtain ⟨w, hw, rfl⟩ := List.mem_map.1 hb
  have hwn := hg.mem_nodes_of_mem_descendants hv hw
  have hon := mem_nodes_of_owner? ho
  have hanc := (hg.mem_map_descendants_iff hv hwn).1 hb
  rw [hg.ancestors_of_owner? ho, List.mem_append, List.mem_singleton] at hanc
  refine hanc.symm.imp Eq.symm fun hanc => ?_
  obtain ⟨u, hu, rfl⟩ := List.mem_map.1 ((hg.mem_map_descendants_iff hv hon).2 hanc)
  have hwu : w.node ∈ (g.descendants u).map (·.node) := by
    rw [hg.mem_map_descendants_iff hon hwn, hg.ancestors_of_owner? ho]
    exact List.mem_append_right _ (List.mem_singleton_self _)
  have hblock := (hg.cons_descendants_infix hv hu).sublist.map (·.node)
  exact ((List.singleton_sublist.2 hwu).cons_cons u.node).trans hblock

/-- Among all that an aggregate owns, what it owns directly stands in the order of its edges. -/
theorem filter_descendants_self (hg : g.IsForest) (hv : v.node ∈ g.nodes) :
    ((g.descendants v).map (·.node)).filter (owner? g · = some v.node) =
      (ownedLinks g v.node).map (·.terminal) := by
  have hblock : ∀ l ∈ ownedLinks g v.node,
      ((v.toTerminal l :: g.descendants (v.toTerminal l)).map (·.node)).filter
        (owner? g · = some v.node) = [l.terminal] := by
    intro l hl
    have ht := terminal_mem_of_mem_ownedLinks hl
    have hlv := hg.owner?_terminal hv hl
    rw [hg.toTerminal_eq hl, List.map_cons]
    have hkept : decide (owner? g l.terminal = some v.node) = true := decide_eq_true hlv
    refine (List.filter_cons_of_pos (a := l.terminal) hkept).trans
      (congrArg (l.terminal :: ·) (List.filter_eq_nil_iff.2 fun b hb hbv => ?_))
    -- what lies deeper is owned by something deeper
    obtain ⟨w, hw, rfl⟩ := List.mem_map.1 hb
    have hwn := hg.mem_nodes_of_mem_descendants ht hw
    have hdeeper := hg.depth_lt_of_mem_ancestors hwn ((hg.mem_map_descendants_iff ht hwn).1 hb)
    have hld := Path.depth_of_parent? (hg.parent?_of_owner? hlv)
    have hwd := Path.depth_of_parent? (hg.parent?_of_owner? (of_decide_eq_true hbv))
    dsimp only at hdeeper
    omega
  rw [hg.descendants_eq hv, List.map_flatMap, List.filter_flatMap, List.flatMap_congr hblock,
    List.map_eq_flatMap]

/-- What is owned by something listed stands in the order of the edges from its owner. -/
theorem filter_descendants (hg : g.IsForest) (hv : v.node ∈ g.nodes) (ho : o ∈ g.nodes)
    (h : o = v.node ∨ v.node ∈ g.ancestors o) :
    ((g.descendants v).map (·.node)).filter (owner? g · = some o) =
      (ownedLinks g o).map (·.terminal) := by
  rcases h with rfl | h
  · exact hg.filter_descendants_self hv
  · obtain ⟨u, hu, rfl⟩ := List.mem_map.1 ((hg.mem_map_descendants_iff hv ho).2 h)
    have hsub := ((List.sublist_cons_self u _).trans (hg.cons_descendants_infix hv hu).sublist).map
      (·.node)
    rw [← hg.filter_descendants_self ho]
    refine (eq_of_sublist_of_subset (hsub.filter _) ((hg.nodup_descendants hv).filter _) ?_).symm
    intro b hb
    obtain ⟨hbv, hbo⟩ := List.mem_filter.1 hb
    refine List.mem_filter.2 ⟨?_, hbo⟩
    obtain ⟨w, hw, rfl⟩ := List.mem_map.1 hbv
    rw [hg.mem_map_descendants_iff ho (hg.mem_nodes_of_mem_descendants hv hw),
      hg.ancestors_of_owner? (of_decide_eq_true hbo)]
    exact List.mem_append_right _ (List.mem_singleton_self _)

/-- If edges of ownership are declared in the order of the aggregates that they lead to, so is what an
aggregate owns. -/
theorem map_terminal_ownedLinks (hg : g.IsForest) (ho : o ∈ g.nodes)
    (hn : ((g.edges.filter (·.relation.isOwnership)).map (·.terminal)).Sublist g.nodes) :
    (ownedLinks g o).map (·.terminal) = g.nodes.filter (owner? g · = some o) := by
  have hedges : (ownedLinks g o).Sublist (g.edges.filter (·.relation.isOwnership)) :=
    List.filter_sublist.filter _
  have hself : ((ownedLinks g o).map (·.terminal)).filter (owner? g · = some o) =
      (ownedLinks g o).map (·.terminal) := by
    refine List.filter_eq_self.2 fun b hb => ?_
    obtain ⟨l, hl, rfl⟩ := List.mem_map.1 hb
    exact decide_eq_true (hg.owner?_terminal ho hl)
  have hsub := ((hedges.map (·.terminal)).trans hn).filter (owner? g · = some o)
  rw [hself] at hsub
  refine eq_of_sublist_of_subset hsub (g.distinct.of_map.filter _) fun b hb => ?_
  obtain ⟨hb, hbo⟩ := List.mem_filter.1 hb
  exact List.mem_map.2 ((hg.owner?_eq_some_iff hb ho).1 (of_decide_eq_true hbo))

/-- What an aggregate owns has the same root. -/
theorem root_eq_of_mem_ancestors (hg : g.IsForest) (hb : b ∈ g.nodes) (h : a ∈ g.ancestors b) :
    g.root b = g.root a := by
  induction hb using hg.induction with
  | root b hb hr => simp [ancestors_of_root hr] at h
  | owned b hb o ho hbo ih =>
    rw [hg.ancestors_of_owner? hbo, List.mem_append, List.mem_singleton] at h
    rw [hg.root_of_owner? hbo]
    rcases h with h | rfl
    · exact ih h
    · rfl

theorem length_incoming_le (hg : g.IsForest) (a : Aggregate) :
    ((g.incoming a).filter (·.relation.isOwnership)).length ≤ 1 := by
  have hn : ((g.incoming a).filter (·.relation.isOwnership)).Nodup :=
    g.separate.of_map.sublist (List.filter_sublist.trans List.filter_sublist)
  have hmem : ∀ l ∈ (g.incoming a).filter (·.relation.isOwnership),
      l ∈ g.edges ∧ l.terminal.path = a.path ∧ l.relation.isOwnership = true := fun l hl => by
    obtain ⟨hl, ho⟩ := List.mem_filter.1 hl
    obtain ⟨he, ht⟩ := (Graph.mem_incoming g).1 hl
    exact ⟨he, ht, ho⟩
  cases h : (g.incoming a).filter (·.relation.isOwnership) with
  | nil => exact Nat.zero_le 1
  | cons l ls =>
    cases ls with
    | nil => exact Nat.le_refl 1
    | cons k ks =>
      rw [h] at hn hmem
      obtain ⟨hle, hlt, hlo⟩ := hmem l List.mem_cons_self
      obtain ⟨hke, hkt, hko⟩ := hmem k (List.mem_cons_of_mem l List.mem_cons_self)
      have hlk := hg.single l hle k hke hlo hko (hlt.trans hkt.symm)
      exact absurd (hlk ▸ List.mem_cons_self) (List.nodup_cons.1 hn).1

/-- The edges in full of the way to what is listed, of which there is no other. -/
theorem exists_way (hg : g.IsForest) (hv : v.node ∈ g.nodes) (hw : w ∈ g.descendants v) :
    ∃ ls, g.OwnsThrough v.node ls w.node ∧ w.trail = v.trail ++ ls ∧
      ∀ ks, g.OwnsThrough v.node ks w.node → ks = ls := by
  obtain ⟨l, ls, h, ht⟩ := (hg.mem_descendants_iff hv).1 hw
  exact ⟨l :: ls, h, ht, fun ks hk => hg.eq_of_ownsThrough hv hk h⟩

end IsForest

/-- Ownership is a forest, and what an aggregate owns is listed as the forest has it. Nodes are in order
of declaration. -/
structure ListsForest (g : AggregateGraph) : Prop where
  /-- Nothing has two owners. -/
  single : ∀ a ∈ g.nodes, ((g.incoming a).filter (·.relation.isOwnership)).length ≤ 1
  /-- Ways up and down end, and no limit on how far they are followed is felt. -/
  upward : WellFounded fun o a => g.owner? a = some o
  downward : WellFounded fun b a => ∃ l ∈ ownedLinks g a, l.terminal = b
  ancestors : ∀ a ∈ g.nodes, g.ancestors a = match g.owner? a with
    | some o => g.ancestors o ++ [o]
    | none => []
  descendants : ∀ v, v.node ∈ g.nodes → g.descendants v = (ownedLinks g v.node).flatMap fun l =>
    v.toTerminal l :: g.descendants (v.toTerminal l)
  inverse : ∀ v, v.node ∈ g.nodes → ∀ b ∈ g.nodes,
    b ∈ (g.descendants v).map (·.node) ↔ v.node ∈ g.ancestors b
  once : ∀ v, v.node ∈ g.nodes → ((g.descendants v).map (·.node)).Nodup
  ownerFirst : ∀ v, v.node ∈ g.nodes → ∀ b ∈ (g.descendants v).map (·.node), ∀ o,
    g.owner? b = some o → o = v.node ∨ [o, b].Sublist ((g.descendants v).map (·.node))
  contiguous : ∀ v, v.node ∈ g.nodes → ∀ w ∈ g.descendants v,
    w :: g.descendants w <:+: g.descendants v
  /-- What is owned by one aggregate is listed in order of declaration. -/
  siblings : ∀ v, v.node ∈ g.nodes → ∀ o ∈ g.nodes, o = v.node ∨ v.node ∈ g.ancestors o →
    ((g.descendants v).map (·.node)).filter (g.owner? · = some o) =
      g.nodes.filter (g.owner? · = some o)
  root : ∀ v, v.node ∈ g.nodes → ∀ w ∈ g.descendants v, g.root w.node = g.root v.node
  /-- A walk that starts at an aggregate has the names on the only way down. -/
  names : ∀ a ∈ g.nodes, ∀ w ∈ g.descendants (.start a), ∃ ls, g.OwnsThrough a ls w.node ∧
    (∀ ks, g.OwnsThrough a ks w.node → ks = ls) ∧ w.names = ls.map (·.name)

theorem IsForest.listsForest_of_sublist (hg : g.IsForest)
    (hn : ((g.edges.filter (·.relation.isOwnership)).map (·.terminal)).Sublist g.nodes) :
    g.ListsForest where
  single a _ := hg.length_incoming_le a
  upward := hg.wellFounded_owner?
  downward := hg.wellFounded_ownedLinks
  ancestors a _ := hg.ancestors_eq a
  descendants _ hv := hg.descendants_eq hv
  inverse _ hv _ hb := hg.mem_map_descendants_iff hv hb
  once _ hv := hg.nodup_descendants hv
  ownerFirst _ hv _ hb _ ho := hg.pair_sublist_descendants hv hb ho
  contiguous _ hv _ hw := hg.cons_descendants_infix hv hw
  siblings v hv o ho h := by
    rw [hg.filter_descendants hv ho h, hg.map_terminal_ownedLinks ho hn]
  root v hv w hw := hg.root_eq_of_mem_ancestors (hg.mem_nodes_of_mem_descendants hv hw)
    ((hg.mem_map_descendants_iff hv (hg.mem_nodes_of_mem_descendants hv hw)).1
      (List.mem_map_of_mem hw))
  names a ha w hw := by
    obtain ⟨ls, h, ht, hunique⟩ := hg.exists_way (v := .start a) ha hw
    exact ⟨ls, h, hunique, by rw [Visit.names, ht]; rfl⟩

end AggregateGraph

namespace Resolution

theorem ownedPaths_sublist {es fs : List (Edge Path Relation)} (h : es.Sublist fs) :
    (ownedPaths es).Sublist (ownedPaths fs) := (h.filter _).map _

end Resolution

namespace Draft
variable {d : Draft} {base : TypeRegistry} {s : Schema}

/-- An edge of ownership is declared with the aggregate that it leads to. -/
theorem ownedPaths_sublist_paths (d : Draft) (base : TypeRegistry) :
    (Resolution.ownedPaths (d.resolution base).edges).Sublist
      ((d.resolution base).aggregates.map Aggregate.path) := by
  simp only [resolution, Resolution.aggregates_concat, Resolution.edges_concat, List.flatMap_map]
  induction d.declarations with
  | nil => exact List.nil_sublist _
  | cons x xs ih =>
    simp only [List.flatMap_cons, List.map_append, TypeRegistry.paths_resolution,
      Resolution.ownedPaths_append]
    exact (List.sublist_append_right _ _).append ih

theorem terminals_sublist_nodes (h : d.resolve base = .ok s) :
    ((s.graph.edges.filter (·.relation.isOwnership)).map (·.terminal)).Sublist s.graph.nodes := by
  have hpaths : ((s.graph.edges.filter (·.relation.isOwnership)).map (·.terminal)).map (·.path) =
      Resolution.ownedPaths (s.graph.edges.map Edge.declared) := by
    rw [Resolution.ownedPaths, List.filter_map, List.map_map, List.map_map]
    rfl
  have hsub : (Resolution.ownedPaths (s.graph.edges.map Edge.declared)).Sublist
      (s.graph.nodes.map (·.path)) := by
    rw [edges_of_resolve h, nodes_of_resolve h]
    exact (Resolution.ownedPaths_sublist (firsts_sublist _ _)).trans (ownedPaths_sublist_paths d base)
  rw [← hpaths] at hsub
  have hnodes := hsub.filterMap s.graph.node?
  rwa [AggregateGraph.filterMap_node? fun b hb => ?_, AggregateGraph.filterMap_node? fun b hb => hb]
    at hnodes
  obtain ⟨l, hl, rfl⟩ := List.mem_map.1 hb
  exact (s.graph.closed l (List.mem_of_mem_filter hl)).2

/-- In a resolved draft ownership is a forest, and it is listed from every aggregate as the forest has
it, in the order in which the aggregates are declared. -/
theorem listsForest (h : d.resolve base = .ok s) :
    s.graph.nodes = (d.resolution base).aggregates ∧ s.graph.ListsForest :=
  ⟨nodes_of_resolve h, (isForest h).listsForest_of_sublist (terminals_sublist_nodes h)⟩

/-- Lines of orders have notes, and refer to an order again. The address is declared between the lines
and the notes on them. -/
def notedLines : Draft where
  declarations := [
    .aggregate "/Order" none [⟨"number", "integer", true, true, false⟩],
    .children "Line" "/Order" none [],
    .reference "previous" "/Order/Line" "/Order" false false,
    .child "Address" "/Order" false none [⟨"street", "word", false, false, false⟩],
    .child "Note" "/Order/Line" false none [⟨"text", "sentence", false, false, false⟩]]
  enumerations := []

theorem listsForest_notedLines : ∃ s a, notedLines.resolve .standard = .ok s ∧
    a ∈ s.graph.nodes ∧ (s.graph.descendants (.start a)).map (·.names) =
      [["Line"], ["Line", "Note"], ["Address"]] ∧
    s.graph.nodes = (notedLines.resolution .standard).aggregates ∧ s.graph.ListsForest := by
  obtain ⟨s, hs, h⟩ := exists_ok_of_any (notedLines.resolve .standard)
    (fun s => s.graph.nodes.any fun a => (s.graph.descendants (.start a)).map (·.names) =
      [["Line"], ["Line", "Note"], ["Address"]]) (by decide +kernel)
  obtain ⟨a, ha, hnames⟩ := List.any_eq_true.1 h
  exact ⟨s, a, hs, ha, of_decide_eq_true hnames, listsForest hs⟩

end Draft

end AggregateSchema
