import AggregateSchema.Proofs.Stored

/-! Nesting is less deep than there are aggregates, so that the levels counted are always enough. -/
namespace AggregateSchema

namespace AggregateGraph
variable {g : AggregateGraph}

/-- How many aggregates lie below one. -/
def height (g : AggregateGraph) (a : Aggregate) : Nat :=
  (g.nodes.filter (·.path.isBelow a.path)).length

theorem height_lt_length {a : Aggregate} (ha : a ∈ g.nodes) : height g a < g.nodes.length := by
  refine List.length_filter_lt_length_iff_exists.2 ⟨a, ha, fun h => ?_⟩
  exact Path.not_isBelow_self _ h

/-- An aggregate has fewer aggregates below it than one whose path is a name shorter. -/
theorem height_lt_of_parent? {a o : Aggregate} (ha : a ∈ g.nodes)
    (ho : a.path.parent? = some o.path) : height g a < height g o := by
  have hbelow := Path.isBelow_of_parent? ho
  have hsub : g.nodes.filter (·.path.isBelow a.path) =
      (g.nodes.filter (·.path.isBelow o.path)).filter (·.path.isBelow a.path) := by
    rw [List.filter_filter]
    apply List.filter_congr
    intro b _
    cases h : b.path.isBelow a.path with
    | false => rfl
    | true => rw [Path.isBelow_trans h hbelow, Bool.and_self]
  rw [height, height, hsub]
  refine List.length_filter_lt_length_iff_exists.2 ⟨a, List.mem_filter.2 ⟨ha, hbelow⟩, fun h => ?_⟩
  exact Path.not_isBelow_self _ h

/-- An owned aggregate has fewer aggregates below it than its owner. -/
theorem IsForest.height_lt_of_owner? (hg : g.IsForest) {a o : Aggregate} (ha : a ∈ g.nodes)
    (ho : g.owner? a = some o) : height g a < height g o :=
  height_lt_of_parent? ha (hg.parent?_of_owner? ho)

end AggregateGraph

namespace Schema
variable {s : Schema} {a : Aggregate}

theorem height_lt_of_mem_links (hg : s.graph.IsForest) (ha : a ∈ s.graph.nodes) {m : Member}
    (hm : m ∈ s.graph.members a) {l : Link} (hl : l ∈ m.links) :
    l.terminal ∈ s.graph.nodes ∧ s.graph.height l.terminal < s.graph.height a := by
  have hb := AggregateGraph.terminal_mem_of_mem_links hm hl
  exact ⟨hb, hg.height_lt_of_owner? hb (hg.owner?_of_mem_links ha hm hl)⟩

/-- A function of an aggregate that counts levels down, and is worked out at each level from what the
members of the aggregate lead to. -/
def CountsLevels (s : Schema) {γ : Type} (F : Nat → Aggregate → γ) : Prop :=
  ∀ (n n' : Nat) (a : Aggregate), a ∈ s.graph.nodes →
    (∀ m ∈ s.graph.members a, ∀ l ∈ m.links, F n l.terminal = F n' l.terminal) →
      F (n + 1) a = F (n' + 1) a

namespace CountsLevels
variable {γ : Type} {F : Nat → Aggregate → γ}

/-- Levels that no nesting reaches make no difference. -/
theorem eq_of_height_lt (hF : s.CountsLevels F) (hg : s.graph.IsForest) (ha : a ∈ s.graph.nodes)
    {levels levels' : Nat} (h : s.graph.height a < levels) (h' : s.graph.height a < levels') :
    F levels a = F levels' a := by
  induction levels generalizing a levels' with
  | zero => cases h
  | succ n ih =>
    obtain ⟨n', rfl⟩ := Nat.exists_eq_succ_of_ne_zero (Nat.ne_zero_of_lt h')
    refine hF n n' a ha fun m hm l hl => ?_
    obtain ⟨hb, hlt⟩ := height_lt_of_mem_links hg ha hm hl
    exact ih hb (by omega) (by omega)

/-- As many levels as there are aggregates are enough at the next level too. -/
theorem eq_succ (hF : s.CountsLevels F) (hg : s.graph.IsForest) (ha : a ∈ s.graph.nodes) :
    F s.graph.nodes.length a = F (s.graph.nodes.length + 1) a := by
  have hheight := AggregateGraph.height_lt_length ha
  exact hF.eq_of_height_lt hg ha hheight (Nat.lt_succ_of_lt hheight)

end CountsLevels

theorem countsLevels_everywhere (P : Aggregate → Json → Prop) : s.CountsLevels (s.Everywhere P) := by
  intro n n' a ha h
  funext given
  refine propext (and_congr_right fun _ => forall₂_congr fun p hp => ?_)
  obtain ⟨m, hm, hp⟩ := List.mem_flatMap.1 hp
  obtain ⟨l, hl, he⟩ := exists_link_of_mem_parts hp
  rw [he, h m hm l hl]

/-- The items of all lists differ if those of the lists of an instance do, and those of all lists in
what is nested in it. -/
theorem distinctItems_iff (hg : s.graph.IsForest) (ha : a ∈ s.graph.nodes) (given : Json) :
    s.DistinctItems a given ↔ (∀ m ∈ s.graph.members a, m.ItemsDiffer s given) ∧
      ∀ p ∈ (s.graph.members a).flatMap (Member.parts given),
        s.DistinctItems p.aggregate p.given :=
  iff_of_eq (congrFun ((countsLevels_everywhere _).eq_succ hg ha) given)

/-- What a field has in full depends on what is nested in it. -/
theorem canonicalField_congr {within within' : Aggregate → Json → Json} {m : Member}
    (hm : m ∈ s.graph.members a) (h : ∀ l ∈ m.links, within l.terminal = within' l.terminal)
    {given : Json} {f : ViewField} (hf : f ∈ AggregateGraph.memberDetailFields m) :
    s.canonicalField within given f = s.canonicalField within' given f := by
  cases m with
  | scalar m =>
    obtain rfl := List.mem_singleton.1 hf
    rfl
  | reference l =>
    obtain rfl := List.mem_singleton.1 hf
    rfl
  | child l =>
    obtain rfl := List.mem_singleton.1 hf
    have hl : l ∈ (Member.child l).links := List.mem_singleton_self l
    rw [canonicalField_nested (node?_terminal hm hl), canonicalField_nested (node?_terminal hm hl),
      h l hl]
  | children l =>
    obtain rfl := List.mem_singleton.1 hf
    have hl : l ∈ (Member.children l).links := List.mem_singleton_self l
    rw [canonicalField_nestedList (node?_terminal hm hl),
      canonicalField_nestedList (node?_terminal hm hl), h l hl]
  | variation v =>
    rcases List.mem_cons.1 hf with rfl | hf
    · rfl
    · obtain ⟨x, hx, rfl⟩ := List.mem_map.1 hf
      have hl : x.2 ∈ (Member.variation v).links := List.mem_map_of_mem hx
      rw [canonicalField_nested (node?_terminal hm hl),
        canonicalField_nested (node?_terminal hm hl), h x.2 hl]

theorem countsLevels_canonicalWithin : s.CountsLevels s.canonicalWithin := by
  intro n n' a ha h
  funext given
  rw [canonicalWithin, canonicalWithin]
  refine congrArg Json.ofFields (List.map_congr_left fun f hf => ?_)
  obtain ⟨m, hm, hf⟩ := List.mem_flatMap.1 hf
  exact congrArg (f.name, ·) (canonicalField_congr hm (h m hm) hf)

/-- An instance in full, by the fields of its detail. -/
theorem canonical_eq (hg : s.graph.IsForest) (ha : a ∈ s.graph.nodes) (given : Json) :
    s.canonical a given = .ofFields ((s.graph.detailFields a).map fun f =>
      (f.name, s.canonicalField s.canonical given f)) :=
  congrFun (countsLevels_canonicalWithin.eq_succ hg ha) given

/-- The rows of a member depend on those of what is nested in it. -/
theorem storeMember_congr
    {store store' : Aggregate → Json → Option Nat → String → Except Failure (List Row)} {m : Member}
    (h : ∀ l ∈ m.links, store l.terminal = store' l.terminal) (given : Json) (field : String) :
    storeMember store given field m = storeMember store' given field m := by
  cases m with
  | child l =>
    rw [storeMember, storeMember, h l (List.mem_singleton_self l)]
  | children l =>
    rw [storeMember, storeMember, h l (List.mem_singleton_self l)]
  | variation v =>
    rw [storeMember, storeMember]
    refine congrArg (· >>= _) (mapM_congr fun x hx => ?_)
    obtain ⟨tag, l⟩ := x
    have hl : l ∈ (Member.variation v).links := List.mem_map_of_mem hx
    simp only [h l hl]
  | _ => rfl

theorem countsLevels_rowsOf : s.CountsLevels s.rowsOf := by
  intro n n' a ha h
  funext given p field
  rw [rowsOf, rowsOf]
  refine bind_congr fun e => bind_congr fun values => congrArg (· >>= _) (mapM_congr fun m hm => ?_)
  exact storeMember_congr (fun l hl => by rw [h m hm l hl]) given field

/-- The rows of an instance are the same for all levels that no nesting reaches. -/
theorem rowsOf_eq (hg : s.graph.IsForest) (ha : a ∈ s.graph.nodes) {levels levels' : Nat}
    (h : s.graph.height a < levels) (h' : s.graph.height a < levels') (given : Json)
    (p : Placement) (field : String) :
    s.rowsOf levels a given p field = s.rowsOf levels' a given p field := by
  rw [countsLevels_rowsOf.eq_of_height_lt hg ha h h']

end Schema

end AggregateSchema
