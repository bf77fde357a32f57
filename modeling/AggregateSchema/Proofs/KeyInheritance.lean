import AggregateSchema.Proofs.Entities

/-! The key of an aggregate starts with the keys of everything that it is nested in. -/
namespace AggregateSchema

namespace AggregateGraph
variable {g : AggregateGraph}

theorem root_of_owner?_eq_none {a : Aggregate} (h : owner? g a = none) : root g a = a := by
  rw [root, ancestors_of_root h]
  rfl

theorem IsForest.root_of_owner? (hg : g.IsForest) {a o : Aggregate} (h : owner? g a = some o) :
    root g a = root g o := by
  rw [root, root, hg.ancestors_of_owner? h]
  cases ancestors g o <;> rfl

theorem mem_ownedLinks_of_owner? {a o : Aggregate} (h : owner? g a = some o) :
    ∃ l ∈ ownedLinks g o, l.terminal.path = a.path := by
  obtain ⟨l, hl, rfl⟩ := Option.map_eq_some_iff.1 h
  obtain ⟨he, ho, ht⟩ := ownerLink?_spec hl
  exact ⟨l, mem_ownedLinks.2 ⟨he, rfl, ho⟩, ht⟩

theorem descendants_ne_nil {a o : Aggregate} (h : owner? g a = some o) :
    descendants g (.start o) ≠ [] := by
  obtain ⟨l, hl, -⟩ := mem_ownedLinks_of_owner? h
  obtain ⟨n, hn⟩ := Nat.exists_eq_add_one.2 (List.length_pos_of_mem (mem_nodes_of_owner? h))
  rw [descendants, hn, ownedWithin]
  intro hnil
  have := List.flatMap_eq_nil_iff.1 hnil l hl
  cases this

/-- A root that owns something has a key. -/
theorem keys_ne_nil_of_keyed {a o : Aggregate} {keys : List Column} (h : owner? g a = some o)
    (hr : isRoot g o = true) (hk : keylessRootProblems g o keys = []) : keys ≠ [] := by
  rintro rfl
  have hd : (descendants g (.start o)).isEmpty = false := by
    simpa using descendants_ne_nil h
  rw [keylessRootProblems, hr, hd] at hk
  cases hk

end AggregateGraph

/-- How a key column of an owner is found again in what it owns. -/
structure Column.IsInheritedFrom (c k : Column) : Prop where
  origin : c.origin = k.origin
  type : c.type = k.type
  role : c.role = k.role
  inherited : c.inherited = true
  nullable : c.nullable = false

theorem Column.isInheritedFrom_inherit (table : String) (k : Column) :
    (k.inherit table).IsInheritedFrom k :=
  ⟨rfl, rfl, rfl, rfl, rfl⟩

namespace Schema

/-- Keys follow ownership. -/
structure InheritsKeys (s : Schema) : Prop where
  /-- The key of an aggregate is the key of its owner followed by its own. -/
  owned : ∀ a ∈ s.graph.nodes, ∀ o, s.graph.owner? a = some o →
    ∃ inherited, (s.entity? a.path).map (·.keys) = some (inherited ++ s.ownKeys a) ∧
      List.Forall₂ Column.IsInheritedFrom inherited (s.keysOf o)
  /-- Whatever an aggregate is nested in, its key starts with the key of that. -/
  ancestors : ∀ a ∈ s.graph.nodes, ∀ b ∈ s.graph.ancestors a,
    (s.keysOf b).map (·.origin) <+: (s.keysOf a).map (·.origin)
  nullable : ∀ a ∈ s.graph.nodes, ∀ c ∈ s.keysOf a, c.nullable = false
  /-- Nothing is nested in a root without a key. -/
  nested : ∀ a ∈ s.graph.nodes, s.graph.isRoot a = false → s.keysOf (s.graph.root a) ≠ [] ∧
    (s.keysOf (s.graph.root a)).map (·.origin) <+: (s.keysOf a).map (·.origin)

variable {s : Schema} {a : Aggregate}

theorem forall₂_inherit (table : String) (keys : List Column) :
    List.Forall₂ Column.IsInheritedFrom (keys.map (Column.inherit table)) keys := by
  rw [List.forall₂_map_left_iff, List.forall₂_same]
  exact fun k _ => k.isInheritedFrom_inherit table

theorem origins_of_owner? (ha : a ∈ s.graph.nodes) {o : Aggregate}
    (h : s.graph.owner? a = some o) :
    (s.keysOf a).map (·.origin) = (s.keysOf o).map (·.origin) ++ (s.ownKeys a).map (·.origin) := by
  rw [keysOf_eq ha, inheritedKeys_of_owner? h, List.map_append, List.map_map]
  rfl

/-- A key column is declared non-null, or holds a position or a key column of another aggregate. -/
theorem nullable_of_mem_ownKeys (hs : ∀ m ∈ a.scalars, m.isKey = true → m.nullable = false)
    {c : Column} (hc : c ∈ s.ownKeys a) : c.nullable = false := by
  rcases ownKeys_cases s a with h | ⟨-, -, h⟩
  · rcases mem_declaredKeys.1 (h ▸ hc) with ⟨m, hm, hk, rfl⟩ | ⟨l, -, -, k, -, rfl⟩
    · exact hs m hm hk
    · rfl
  · obtain rfl := List.mem_singleton.1 (h ▸ hc)
    rfl

theorem nullable_of_mem_keysOf (ha : a ∈ s.graph.nodes)
    (hs : ∀ m ∈ a.scalars, m.isKey = true → m.nullable = false) {c : Column}
    (hc : c ∈ s.keysOf a) : c.nullable = false := by
  rw [keysOf_eq ha] at hc
  rcases List.mem_append.1 hc with hc | hc
  · cases h : s.graph.owner? a with
    | none => simp [inheritedKeys_of_root h] at hc
    | some o =>
      rw [inheritedKeys_of_owner? h] at hc
      obtain ⟨k, _, rfl⟩ := List.mem_map.1 hc
      rfl
  · exact nullable_of_mem_ownKeys hs hc

/-- The key of an aggregate starts with the columns that it inherits from any aggregate above. -/
theorem exists_inherited_of_mem_ancestors (hg : s.graph.IsForest) (ha : a ∈ s.graph.nodes)
    {b : Aggregate} (hb : b ∈ s.graph.ancestors a) : ∃ inherited own,
      s.keysOf a = inherited ++ own ∧
        List.Forall₂ Column.IsInheritedFrom inherited (s.keysOf b) := by
  induction ha using hg.induction with
  | root a ha hr => simp [AggregateGraph.ancestors_of_root hr] at hb
  | owned a ha o ho hao ih =>
    rw [hg.ancestors_of_owner? hao, List.mem_append, List.mem_singleton] at hb
    rw [keysOf_eq ha, inheritedKeys_of_owner? hao]
    rcases hb with hb | rfl
    · obtain ⟨inherited, own, hkeys, hi⟩ := ih hb
      refine ⟨inherited.map (Column.inherit o.typeName),
        own.map (Column.inherit o.typeName) ++ s.ownKeys a, ?_, ?_⟩
      · rw [hkeys, List.map_append, List.append_assoc]
      · rw [List.forall₂_map_left_iff]
        exact hi.imp fun c k hc => ⟨hc.origin, hc.type, hc.role, rfl, rfl⟩
    · exact ⟨_, _, rfl, forall₂_inherit _ _⟩

theorem origins_prefix_of_mem_ancestors (hg : s.graph.IsForest) (ha : a ∈ s.graph.nodes)
    {b : Aggregate} (hb : b ∈ s.graph.ancestors a) :
    (s.keysOf b).map (·.origin) <+: (s.keysOf a).map (·.origin) := by
  obtain ⟨inherited, own, hkeys, hi⟩ := exists_inherited_of_mem_ancestors hg ha hb
  have horigins : inherited.map (·.origin) = (s.keysOf b).map (·.origin) :=
    map_eq_map_of_forall₂ hi fun c k hc => hc.origin
  rw [hkeys, List.map_append, horigins]
  exact List.prefix_append _ _

/-- The key of what an aggregate owns has a column of every origin in the key of the aggregate. -/
theorem exists_mem_keysOf_of_origin (hg : s.graph.IsForest) {b : Aggregate}
    (hb : b ∈ s.graph.nodes) (hab : b = a ∨ a ∈ s.graph.ancestors b) {k : Column}
    (hk : k ∈ s.keysOf a) : ∃ c ∈ s.keysOf b, c.origin = k.origin := by
  rcases hab with rfl | hab
  · exact ⟨k, hk, rfl⟩
  · have horigins := origins_prefix_of_mem_ancestors hg hb hab
    exact List.mem_map.1 (horigins.subset (List.mem_map_of_mem hk))

/-- An aggregate that owns another one has a key. -/
theorem keysOf_ne_nil_of_owner? (hg : s.graph.IsForest) {o : Aggregate} (ho : o ∈ s.graph.nodes)
    (hao : s.graph.owner? a = some o) : s.keysOf o ≠ [] := by
  induction ho using hg.induction generalizing a with
  | root o ho hr =>
    obtain ⟨e, he, hs⟩ := exists_entity ho
    rw [← keys_of_entity? he]
    exact AggregateGraph.keys_ne_nil_of_keyed hao (AggregateGraph.isRoot_iff.2 hr) hs.keyed
  | owned o ho p hp hop ih =>
    rw [keysOf_eq ho, inheritedKeys_of_owner? hop]
    intro hnil
    exact ih hop (List.map_eq_nil_iff.1 (List.append_eq_nil_iff.1 hnil).1)

theorem keysOf_root (hg : s.graph.IsForest) (ha : a ∈ s.graph.nodes)
    (hr : s.graph.isRoot a = false) : s.keysOf (s.graph.root a) ≠ [] ∧
      (s.keysOf (s.graph.root a)).map (·.origin) <+: (s.keysOf a).map (·.origin) := by
  induction ha using hg.induction with
  | root a ha hown => simp [AggregateGraph.isRoot_iff.2 hown] at hr
  | owned a ha o ho hao ih =>
    rw [hg.root_of_owner? hao, origins_of_owner? ha hao]
    cases hor : s.graph.isRoot o with
    | false =>
      obtain ⟨hne, hp⟩ := ih hor
      exact ⟨hne, hp.trans (List.prefix_append _ _)⟩
    | true =>
      rw [AggregateGraph.root_of_owner?_eq_none (AggregateGraph.isRoot_iff.1 hor)]
      exact ⟨keysOf_ne_nil_of_owner? hg ho hao, List.prefix_append _ _⟩

end Schema

/-- In a resolved draft keys follow ownership. -/
theorem Draft.inheritsKeys {d : Draft} {base : TypeRegistry} {s : Schema}
    (h : d.resolve base = .ok s) : s.InheritsKeys where
  owned a ha o hao := by
    refine ⟨s.inheritedKeys a, ?_, ?_⟩
    · obtain ⟨e, he, hs⟩ := Schema.exists_entity ha
      rw [he, Option.map_some, hs.keys]
    · rw [Schema.inheritedKeys_of_owner? hao]
      exact Schema.forall₂_inherit _ _
  ancestors _ ha _ hb := Schema.origins_prefix_of_mem_ancestors (isForest h) ha hb
  nullable _ ha _ hc := Schema.nullable_of_mem_keysOf ha (nullable_of_resolve h ha) hc
  nested _ ha hr := Schema.keysOf_root (isForest h) ha hr

theorem Draft.inheritsKeys_orders :
    ∃ s, orders.resolve .standard = .ok s ∧ s.InheritsKeys := by
  obtain ⟨s, hs, -⟩ := exists_ok_of_any (orders.resolve .standard)
    (fun _ => true) (by decide +kernel)
  exact ⟨s, hs, inheritsKeys hs⟩

end AggregateSchema
