import AggregateSchema.Proofs.Columns

/-! Where a column is found: by its name within an entity, and by its origin. -/
namespace AggregateSchema

namespace Schema
variable {s : Schema} {a : Aggregate} {e : Entity}

/-- The tables are named after the aggregates, level by level. -/
theorem map_table_entities (s : Schema) :
    s.entities.map Entity.table = s.graph.byDepth.map Aggregate.typeName :=
  map_eq_map_of_forall₂ (forall₂_entities _) fun _ _ h => (AggregateGraph.header_of_entity h.2).2.1

theorem nodup_tables (s : Schema) : (s.entities.map Entity.table).Nodup := by
  rw [map_table_entities]
  exact (AggregateGraph.sharedTables_eq_nil_iff.1 (problems_eq_nil s).1).2

/-- An inherited key column is an own one of an aggregate further up. -/
theorem exists_ownKey_of_mem_inheritedKeys (hg : s.graph.IsForest) (ha : a ∈ s.graph.nodes)
    {c : Column} (hc : c ∈ s.inheritedKeys a) :
    ∃ b ∈ s.graph.ancestors a, ∃ k ∈ s.ownKeys b, k.origin = c.origin := by
  induction ha using hg.induction generalizing c with
  | root a ha hr => simp [inheritedKeys_of_root hr] at hc
  | owned a ha o ho hao ih =>
    rw [inheritedKeys_of_owner? hao] at hc
    obtain ⟨k, hk, rfl⟩ := List.mem_map.1 hc
    rw [hg.ancestors_of_owner? hao]
    rw [keysOf_eq ho, List.mem_append] at hk
    rcases hk with hk | hk
    · obtain ⟨b, hb, own, hown, horigin⟩ := ih hk
      exact ⟨b, List.mem_append_left _ hb, own, hown, horigin⟩
    · exact ⟨o, List.mem_append_right _ (List.mem_singleton_self o), k, hk, rfl⟩

/-- No two columns of an entity were introduced at one place. -/
theorem IsEntityOf.eq_of_origin_eq (hg : s.graph.IsForest) (ha : a ∈ s.graph.nodes)
    (hs : s.IsEntityOf e a) {c k : Column} (hc : c ∈ e.allColumns) (hk : k ∈ e.allColumns)
    (h : c.origin = k.origin) : c = k := by
  rcases hs.origin_table hg ha hc with hco | ⟨hci, hct⟩ <;>
    rcases hs.origin_table hg ha hk with hko | ⟨hki, hkt⟩
  · rw [hco.origin, hko.origin] at h
    exact List.inj_on_of_nodup_map hs.distinct hc hk (congrArg Origin.column h)
  · exact absurd (congrArg Origin.table (h.symm.trans hco.origin)) hkt
  · exact absurd (congrArg Origin.table (h.trans hko.origin)) hct
  · have hkeys : ∀ x ∈ s.inheritedKeys a, x ∈ s.keysOf a := by
      intro x hx
      rw [keysOf_eq ha]
      exact List.mem_append_left _ hx
    exact List.inj_on_of_nodup_map (nodup_origins_keysOf hg ha) (hkeys c hci) (hkeys k hki) h

theorem IsEntityOf.nodup_origins (hg : s.graph.IsForest) (ha : a ∈ s.graph.nodes)
    (hs : s.IsEntityOf e a) : (e.allColumns.map Column.origin).Nodup :=
  hs.distinct.of_map.map_on fun _ hc _ hk h => hs.eq_of_origin_eq hg ha hc hk h

/-- A scalar has a column, among the keys or outside them. -/
theorem IsEntityOf.ofScalar_mem (hs : s.IsEntityOf e a) {m : Scalar} (hm : m ∈ a.scalars) :
    Column.ofScalar a.typeName m ∈ e.allColumns := by
  have hmember : Member.scalar m ∈ s.graph.members a := AggregateGraph.scalar_mem_members hm
  rw [Entity.allColumns, hs.keys, hs.columns, List.mem_append, List.mem_append]
  cases hkey : m.isKey with
  | true =>
    refine Or.inl (Or.inr (memberKeys_subset_ownKeys hmember ?_))
    rw [memberKeys, if_pos hkey]
    exact List.mem_singleton_self _
  | false =>
    refine Or.inr (List.mem_flatMap.2 ⟨_, hmember, ?_⟩)
    rw [memberColumns, if_neg (by simp [hkey])]
    exact List.mem_singleton_self _

/-- A column of an entity is told by its name, and by the table and name under which it was
introduced: in the entity itself, or in that of an aggregate further up. -/
structure AddressesColumns (s : Schema) (e : Entity) (a : Aggregate) : Prop where
  names : (e.allColumns.map Column.name).Nodup
  origins : (e.allColumns.map Column.origin).Nodup
  own : ∀ c ∈ e.allColumns, c.inherited = false → c.origin = ⟨e.table, c.name⟩
  inherited : ∀ c ∈ e.allColumns, c.inherited = true →
    ∃ b ∈ s.graph.ancestors a, ∃ f, s.entity? b.path = some f ∧ c.origin.table = f.table ∧
      ∃ k ∈ f.keys, k.inherited = false ∧ k.origin = c.origin
  byName : ∀ name c, e.column? name = some c ↔ c ∈ e.allColumns ∧ c.name = name
  byOrigin : ∀ origin c, e.columnByOrigin? origin = some c ↔ c ∈ e.allColumns ∧ c.origin = origin
  scalars : ∀ m ∈ a.scalars,
    e.columnByOrigin? ⟨e.table, m.name⟩ = some (Column.ofScalar e.table m)

theorem IsEntityOf.addressesColumns (hg : s.graph.IsForest) (ha : a ∈ s.graph.nodes)
    (hs : s.IsEntityOf e a) : s.AddressesColumns e a where
  names := hs.distinct
  origins := hs.nodup_origins hg ha
  own c hc hi := by
    rcases hs.origin_table hg ha hc with ho | ⟨hk, -⟩
    · rw [hs.table, ho.origin]
    · simp [inherited_of_mem_inheritedKeys hk] at hi
  inherited c hc hi := by
    rcases hs.origin_table hg ha hc with ho | ⟨hk, -⟩
    · simp [ho.inherited] at hi
    · obtain ⟨b, hb, k, hkb, hko⟩ := exists_ownKey_of_mem_inheritedKeys hg ha hk
      obtain ⟨f, hf, hfb⟩ := exists_entity (hg.mem_nodes_of_mem_ancestors ha hb)
      have hown := isOwnColumn_of_mem_ownKeys hkb
      refine ⟨b, hb, f, hf, ?_, k, ?_, hown.inherited, hko⟩
      · rw [← hko, hown.origin, hfb.table]
      · rw [hfb.keys]
        exact List.mem_append_right _ hkb
  byName _ _ := find?_key_eq_some_iff Column.name hs.distinct
  byOrigin _ _ := find?_key_eq_some_iff Column.origin (hs.nodup_origins hg ha)
  scalars m hm := by
    rw [hs.table]
    exact (find?_key_eq_some_iff Column.origin (hs.nodup_origins hg ha)).2 ⟨hs.ofScalar_mem hm, rfl⟩

/-- Every entity is that of the aggregate at its path. -/
theorem exists_isEntityOf_of_mem (he : e ∈ s.entities) :
    ∃ a ∈ s.graph.nodes, s.node? e.path = some a ∧ s.IsEntityOf e a := by
  obtain ⟨a, ha, hea, -⟩ := exists_derived_of_mem_entities he
  obtain ⟨f, hf, hs⟩ := exists_entity ha
  obtain rfl := eq_of_path_eq he (List.mem_of_find?_eq_some hf) (hea.trans hs.path.symm)
  exact ⟨a, ha, hea ▸ s.graph.node?_id ha, hs⟩

end Schema

namespace Draft
variable {d : Draft} {base : TypeRegistry} {s : Schema}

/-- In a resolved schema tables have distinct names, every aggregate has one, and its columns are told
apart by name and by origin. -/
theorem columns_told_apart (h : d.resolve base = .ok s) :
    (s.entities.map Entity.table).Nodup ∧
      (∀ a ∈ s.graph.nodes, ∃ e, s.entity? a.path = some e ∧ s.AddressesColumns e a) ∧
        ∀ e ∈ s.entities, ∃ a, s.node? e.path = some a ∧ s.AddressesColumns e a := by
  refine ⟨s.nodup_tables, fun a ha => ?_, fun e he => ?_⟩
  · obtain ⟨e, he, hs⟩ := Schema.exists_entity ha
    exact ⟨e, he, hs.addressesColumns (isForest h) ha⟩
  · obtain ⟨a, ha, hpath, hs⟩ := Schema.exists_isEntityOf_of_mem he
    exact ⟨a, hpath, hs.addressesColumns (isForest h) ha⟩

theorem columns_told_apart_orders :
    ∃ s, orders.resolve .standard = .ok s ∧ (s.entities.map Entity.table).Nodup ∧
      (∀ a ∈ s.graph.nodes, ∃ e, s.entity? a.path = some e ∧ s.AddressesColumns e a) ∧
        ∀ e ∈ s.entities, ∃ a, s.node? e.path = some a ∧ s.AddressesColumns e a := by
  obtain ⟨s, hs, -⟩ := exists_ok_of_any (orders.resolve .standard)
    (fun _ => true) (by decide +kernel)
  exact ⟨s, hs, columns_told_apart hs⟩

end Draft

end AggregateSchema
