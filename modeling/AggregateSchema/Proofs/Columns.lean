import AggregateSchema.Proofs.KeyInheritance
import AggregateSchema.Row

/-! The columns of an entity, told apart by name and by origin. -/
namespace AggregateSchema

namespace AggregateGraph
variable {g : AggregateGraph}

theorem IsForest.depth_lt_of_mem_ancestors (hg : g.IsForest) {a b : Aggregate} (ha : a ∈ g.nodes)
    (hb : b ∈ ancestors g a) : b.path.depth < a.path.depth := by
  induction ha using hg.induction with
  | root a ha hr => simp [ancestors_of_root hr] at hb
  | owned a ha o ho hao ih =>
    have hd := Path.depth_of_parent? (hg.parent?_of_owner? hao)
    rw [hg.ancestors_of_owner? hao, List.mem_append, List.mem_singleton] at hb
    rcases hb with hb | rfl
    · have := ih hb
      omega
    · omega

end AggregateGraph

namespace Schema
variable {s : Schema} {a : Aggregate} {e : Entity}

theorem IsEntityOf.keys_eq (hs : s.IsEntityOf e a) (ha : a ∈ s.graph.nodes) :
    e.keys = s.keysOf a := hs.keys.trans (keysOf_eq ha).symm

theorem mem_keysOf_of_mem_ownKeys (ha : a ∈ s.graph.nodes) {c : Column} (hc : c ∈ s.ownKeys a) :
    c ∈ s.keysOf a := by
  rw [keysOf_eq ha]
  exact List.mem_append_right _ hc

theorem inherited_of_mem_inheritedKeys {c : Column} (hc : c ∈ s.inheritedKeys a) :
    c.inherited = true := by
  cases h : s.graph.owner? a with
  | none => simp [inheritedKeys_of_root h] at hc
  | some o =>
    rw [inheritedKeys_of_owner? h] at hc
    obtain ⟨k, _, rfl⟩ := List.mem_map.1 hc
    rfl

/-- A column that an aggregate introduces itself. -/
structure IsOwnColumn (table : String) (c : Column) : Prop where
  origin : c.origin = ⟨table, c.name⟩
  inherited : c.inherited = false

/-- The columns that members take. -/
inductive IsMemberColumn (table : String) : Member → Column → Prop
  | scalar (m : Scalar) : IsMemberColumn table (.scalar m) (.ofScalar table m)
  | variation (v : VariationGroup) : IsMemberColumn table (.variation v) (.discriminator table v)
  | reference (l : Link) (nullable : Bool) (k : Column) :
    IsMemberColumn table (.reference l) (.foreignKey table l nullable k)

theorem isMemberColumn_of_mem_memberKeys {table : String} {m : Member} {c : Column}
    (hc : c ∈ s.memberKeys table m) : IsMemberColumn table m c := by
  cases m with
  | scalar m =>
    rw [memberKeys] at hc
    split at hc
    · exact List.mem_singleton.1 hc ▸ .scalar m
    · cases hc
  | reference l =>
    rw [memberKeys] at hc
    split at hc
    · obtain ⟨k, _, rfl⟩ := List.mem_map.1 hc
      exact .reference l false k
    · cases hc
  | _ => cases hc

theorem isMemberColumn_of_mem_memberColumns {table : String} {m : Member} {c : Column}
    (hc : c ∈ s.memberColumns table m) : IsMemberColumn table m c := by
  cases m with
  | scalar m =>
    rw [memberColumns] at hc
    split at hc
    · cases hc
    · exact List.mem_singleton.1 hc ▸ .scalar m
  | variation v => exact List.mem_singleton.1 hc ▸ .variation v
  | reference l =>
    rw [memberColumns] at hc
    split at hc
    · cases hc
    · obtain ⟨k, _, rfl⟩ := List.mem_map.1 hc
      exact .reference l true k
  | _ => cases hc

theorem IsMemberColumn.isOwnColumn {table : String} {m : Member} {c : Column}
    (h : IsMemberColumn table m c) : IsOwnColumn table c := by
  cases h <;> exact ⟨rfl, rfl⟩

theorem IsMemberColumn.role_ne_sequence {table : String} {m : Member} {c : Column}
    (h : IsMemberColumn table m c) : c.role ≠ .sequence := by
  cases h <;> nofun

/-- An own key column is the position, or that of a member. -/
theorem mem_ownKeys {c : Column} (hc : c ∈ s.ownKeys a) :
    c = Column.sequence a.typeName ∧ s.ownKeys a = [c] ∨
      ∃ m ∈ s.graph.members a, c ∈ s.memberKeys a.typeName m := by
  rcases ownKeys_cases s a with h | ⟨-, -, h⟩
  · rw [h, declaredKeys_eq_flatMap] at hc
    exact Or.inr (List.mem_flatMap.1 hc)
  · rw [h] at hc ⊢
    obtain rfl := List.mem_singleton.1 hc
    exact Or.inl ⟨rfl, rfl⟩

theorem memberKeys_subset_ownKeys {m : Member} (hm : m ∈ s.graph.members a) {c : Column}
    (hc : c ∈ s.memberKeys a.typeName m) : c ∈ s.ownKeys a := by
  have hd : c ∈ s.declaredKeys a := by
    rw [declaredKeys_eq_flatMap]
    exact List.mem_flatMap.2 ⟨m, hm, hc⟩
  rcases ownKeys_cases s a with h | ⟨-, h, -⟩
  · rwa [h]
  · rw [h] at hd
    cases hd

theorem isOwnColumn_of_mem_ownKeys {c : Column} (hc : c ∈ s.ownKeys a) :
    IsOwnColumn a.typeName c := by
  rcases mem_ownKeys hc with ⟨rfl, -⟩ | ⟨m, _, hc⟩
  · exact ⟨rfl, rfl⟩
  · exact (isMemberColumn_of_mem_memberKeys hc).isOwnColumn

/-- A key column was introduced by the aggregate, or by one that it is nested in. -/
theorem exists_table_of_mem_keysOf (hg : s.graph.IsForest) (ha : a ∈ s.graph.nodes) {c : Column}
    (hc : c ∈ s.keysOf a) : ∃ b ∈ s.graph.nodes, (b = a ∨ b ∈ s.graph.ancestors a) ∧
      c.origin.table = b.typeName := by
  induction ha using hg.induction generalizing c with
  | root a ha hr =>
    rw [keysOf_eq ha, inheritedKeys_of_root hr, List.nil_append] at hc
    exact ⟨a, ha, Or.inl rfl, by rw [(isOwnColumn_of_mem_ownKeys hc).origin]⟩
  | owned a ha o ho hao ih =>
    rw [keysOf_eq ha, inheritedKeys_of_owner? hao, List.mem_append, List.mem_map] at hc
    rw [hg.ancestors_of_owner? hao]
    rcases hc with ⟨k, hk, rfl⟩ | hc
    · obtain ⟨b, hb, hbo, ht⟩ := ih hk
      refine ⟨b, hb, Or.inr ?_, ht⟩
      rcases hbo with rfl | hbo
      · exact List.mem_append_right _ (List.mem_singleton_self _)
      · exact List.mem_append_left _ hbo
    · exact ⟨a, ha, Or.inl rfl, by rw [(isOwnColumn_of_mem_ownKeys hc).origin]⟩

/-- No key column of its owner was introduced by an aggregate. -/
theorem table_ne_of_owner? (hg : s.graph.IsForest) (ha : a ∈ s.graph.nodes) {o : Aggregate}
    (ho : s.graph.owner? a = some o) {k : Column} (hk : k ∈ s.keysOf o) :
    k.origin.table ≠ a.typeName := by
  intro htable
  have hon := AggregateGraph.mem_nodes_of_owner? ho
  obtain ⟨b, hb, hbo, ht⟩ := exists_table_of_mem_keysOf hg hon hk
  obtain rfl : b = a := eq_of_typeName_eq hb ha (ht.symm.trans htable)
  have hmem : b ∈ s.graph.ancestors b := by
    rw [hg.ancestors_of_owner? ho]
    rcases hbo with rfl | hbo
    · exact List.mem_append_right _ (List.mem_singleton_self _)
    · exact List.mem_append_left _ hbo
  exact absurd (hg.depth_lt_of_mem_ancestors ha hmem) (Nat.lt_irrefl _)

theorem IsEntityOf.nodup_ownKeys (hs : s.IsEntityOf e a) :
    ((s.ownKeys a).map (·.origin)).Nodup := by
  have hn : ((s.ownKeys a).map Column.name).Nodup := by
    have hd := hs.distinct
    rw [Entity.allColumns, hs.keys, List.map_append, List.map_append] at hd
    exact (List.nodup_append.1 (List.nodup_append.1 hd).1).2.1
  apply List.Nodup.of_map Origin.column
  rw [List.map_map]
  convert hn using 1
  exact List.map_congr_left fun c hc => by
    rw [Function.comp_apply, (isOwnColumn_of_mem_ownKeys hc).origin]

/-- No two key columns have one origin. -/
theorem nodup_origins_keysOf (hg : s.graph.IsForest) (ha : a ∈ s.graph.nodes) :
    ((s.keysOf a).map (·.origin)).Nodup := by
  induction ha using hg.induction with
  | root a ha hr =>
    obtain ⟨e, _, hs⟩ := exists_entity ha
    rw [keysOf_eq ha, inheritedKeys_of_root hr, List.nil_append]
    exact hs.nodup_ownKeys
  | owned a ha o ho hao ih =>
    obtain ⟨e, _, hs⟩ := exists_entity ha
    rw [origins_of_owner? ha hao]
    refine List.nodup_append.2 ⟨ih, hs.nodup_ownKeys, ?_⟩
    intro x hx y hy he
    obtain ⟨k, hk, rfl⟩ := List.mem_map.1 hx
    obtain ⟨c, hc, rfl⟩ := List.mem_map.1 hy
    refine absurd ?_ (table_ne_of_owner? hg ha hao hk)
    rw [he, (isOwnColumn_of_mem_ownKeys hc).origin]

/-- A key column is found by its origin. -/
theorem IsEntityOf.columnByOrigin? (hg : s.graph.IsForest) (ha : a ∈ s.graph.nodes)
    (hs : s.IsEntityOf e a) {k : Column} (hk : k ∈ s.keysOf a) :
    e.columnByOrigin? k.origin = some k := by
  have hfind := (find?_key_eq_some_iff Column.origin (nodup_origins_keysOf hg ha)).2 ⟨hk, rfl⟩
  rw [Entity.columnByOrigin?, Entity.allColumns, List.find?_append, hs.keys_eq ha, hfind]
  rfl

/-- A column that an entity does not inherit was introduced by its aggregate, and one that it inherits
by another one. -/
theorem IsEntityOf.origin_table (hg : s.graph.IsForest) (ha : a ∈ s.graph.nodes)
    (hs : s.IsEntityOf e a) {c : Column} (hc : c ∈ e.allColumns) :
    IsOwnColumn a.typeName c ∨ c ∈ s.inheritedKeys a ∧ c.origin.table ≠ a.typeName := by
  rw [Entity.allColumns, hs.keys, hs.columns, List.mem_append, List.mem_append] at hc
  rcases hc with (hc | hc) | hc
  · refine Or.inr ⟨hc, ?_⟩
    cases ho : s.graph.owner? a with
    | none => simp [inheritedKeys_of_root ho] at hc
    | some o =>
      rw [inheritedKeys_of_owner? ho] at hc
      obtain ⟨k, hk, rfl⟩ := List.mem_map.1 hc
      rw [Column.origin_inherit]
      exact table_ne_of_owner? hg ha ho hk
  · exact Or.inl (isOwnColumn_of_mem_ownKeys hc)
  · obtain ⟨m, _, hc⟩ := List.mem_flatMap.1 hc
    exact Or.inl (isMemberColumn_of_mem_memberColumns hc).isOwnColumn

/-- An own column is found by its origin, of which there is no other. -/
theorem IsEntityOf.columnByOrigin?_of_own (hg : s.graph.IsForest) (ha : a ∈ s.graph.nodes)
    (hs : s.IsEntityOf e a) {c : Column} (hc : c ∈ e.allColumns) (ho : IsOwnColumn a.typeName c) :
    e.columnByOrigin? c.origin = some c := by
  obtain ⟨d, hdm, hdo, hd⟩ := exists_find?_key Column.origin hc
  rw [ho.origin] at hdo
  rcases hs.origin_table hg ha hdm with hown | ⟨-, hne⟩
  · rw [hown.origin] at hdo
    rw [Entity.columnByOrigin?, hd,
      List.inj_on_of_nodup_map hs.distinct hdm hc (congrArg Origin.column hdo)]
  · exact absurd (congrArg Origin.table hdo) hne

theorem IsEntityOf.inheritedKeys_eq (hs : s.IsEntityOf e a) :
    e.inheritedKeys = s.inheritedKeys a := by
  rw [Entity.inheritedKeys, hs.keys, List.filter_append,
    List.filter_eq_self.2 fun c hc => inherited_of_mem_inheritedKeys hc,
    List.filter_eq_nil_iff.2 fun c hc => by simp [(isOwnColumn_of_mem_ownKeys hc).inherited],
    List.append_nil]

/-- Only the position of an item is a position column. -/
theorem IsEntityOf.eq_sequence (hs : s.IsEntityOf e a) {c : Column}
    (hc : e.sequenceColumn? = some c) :
    s.graph.isRepeated a = true ∧ s.ownKeys a = [Column.sequence a.typeName] ∧
      c = Column.sequence a.typeName := by
  have hp := List.find?_some hc
  simp only [Bool.and_eq_true, Bool.not_eq_true', decide_eq_true_eq] at hp
  have hm := List.mem_of_find?_eq_some hc
  rw [hs.keys, List.mem_append] at hm
  rcases hm with hm | hm
  · rw [inherited_of_mem_inheritedKeys hm] at hp
    cases hp.1
  · rcases ownKeys_cases s a with h | ⟨hr, -, h⟩
    · rw [h, declaredKeys_eq_flatMap] at hm
      obtain ⟨m, _, hm⟩ := List.mem_flatMap.1 hm
      exact absurd hp.2 (isMemberColumn_of_mem_memberKeys hm).role_ne_sequence
    · exact ⟨hr, h, List.mem_singleton.1 (h ▸ hm)⟩

theorem IsEntityOf.sequenceColumn?_eq (hs : s.IsEntityOf e a)
    (ho : Column.sequence a.typeName ∈ s.ownKeys a) :
    e.sequenceColumn? = some (Column.sequence a.typeName) := by
  cases h : e.sequenceColumn? with
  | some c => rw [(hs.eq_sequence h).2.2]
  | none =>
    have hm : Column.sequence a.typeName ∈ e.keys := by
      rw [hs.keys]
      exact List.mem_append_right _ ho
    simpa [Column.sequence] using List.find?_eq_none.1 h _ hm

/-- A column that holds a key part for a reference of the given name, with that part. -/
def partOf? (name : String) (c : Column) : Option (Column × String) :=
  match c.role with
  | .foreignKey reference _ target =>
    if !c.inherited && reference = name then some (c, target) else none
  | _ => none

theorem referenceColumns_eq_filterMap (e : Entity) (name : String) :
    e.referenceColumns name = e.allColumns.filterMap (partOf? name) := rfl

section Picked
variable {β κ : Type} {key : Link → κ} {l : Link} {pick : Column → Option β}

/-- Whether a selection of columns passes over all but those that hold the key parts of one reference,
which is told apart from the other references by a key. -/
structure PicksReference (key : Link → κ) (l : Link) (pick : Column → Option β) : Prop where
  inherited : ∀ c, c.inherited = true → pick c = none
  role : ∀ c, (∀ name path part, c.role ≠ .foreignKey name path part) → pick c = none
  other : ∀ k, key k ≠ key l → ∀ table nullable c,
    pick (Column.foreignKey table k nullable c) = none

variable [DecidableEq κ]

/-- Of the columns that the members take, those of one reference are picked. -/
theorem PicksReference.filterMap_members (h : PicksReference key l pick) {f : Member → List Column}
    (hf : ∀ m, ∀ c ∈ f m, IsMemberColumn a.typeName m c)
    (hn : ((s.graph.referenceLinks a).map key).Nodup) (hl : l ∈ s.graph.referenceLinks a) :
    ((s.graph.members a).flatMap f).filterMap pick = (f (.reference l)).filterMap pick := by
  have hnone : ∀ m : Member, (∀ k ∈ m.references, key k ≠ key l) → (f m).filterMap pick = [] := by
    refine fun m hm => List.filterMap_eq_nil_iff.2 fun c hc => ?_
    cases hf m c hc with
    | reference k nullable part => exact h.other k (hm k (List.mem_singleton_self k)) ..
    | _ => exact h.role _ nofun
  have hempty : ∀ m : Member, m.references = [] → (f m).filterMap pick = [] :=
    fun m hm => hnone m fun k hk => absurd (hm ▸ hk) List.not_mem_nil
  have hparts : ∀ k : Link, (f (.reference k)).filterMap pick =
      if decide (key k = key l) then (f (.reference k)).filterMap pick else [] := by
    intro k
    by_cases hk : key k = key l
    · rw [decide_eq_true hk, if_pos rfl]
    · rw [decide_eq_false hk, if_neg Bool.false_ne_true]
      exact hnone _ fun m hm => List.mem_singleton.1 hm ▸ hk
  rw [List.filterMap_flatMap, AggregateGraph.flatMap_members_of_reference
    (fun _ => hempty _ rfl) (fun _ => hempty _ rfl) (fun _ => hempty _ rfl)
    (fun _ => hempty _ rfl), List.flatMap_congr fun k _ => hparts k, flatMap_ite_nil,
    filter_key_eq_singleton key hn hl, List.flatMap_singleton]

theorem IsEntityOf.filterMap_keys (hs : s.IsEntityOf e a) (h : PicksReference key l pick)
    (hn : ((s.graph.referenceLinks a).map key).Nodup) (hl : l ∈ s.graph.referenceLinks a) :
    e.keys.filterMap pick = (s.memberKeys a.typeName (.reference l)).filterMap pick := by
  have hinherited : (s.inheritedKeys a).filterMap pick = [] :=
    List.filterMap_eq_nil_iff.2 fun c hc => h.inherited c (inherited_of_mem_inheritedKeys hc)
  have hown : (s.ownKeys a).filterMap pick = (s.declaredKeys a).filterMap pick := by
    rcases ownKeys_cases s a with hd | ⟨-, hd, hseq⟩
    · rw [hd]
    · rw [hseq, hd, List.filterMap_cons_none (h.role (Column.sequence a.typeName) nofun)]
  rw [hs.keys, List.filterMap_append, hinherited, List.nil_append, hown, declaredKeys_eq_flatMap]
  exact h.filterMap_members (fun m c => isMemberColumn_of_mem_memberKeys) hn hl

theorem IsEntityOf.filterMap_columns (hs : s.IsEntityOf e a) (h : PicksReference key l pick)
    (hn : ((s.graph.referenceLinks a).map key).Nodup) (hl : l ∈ s.graph.referenceLinks a) :
    e.columns.filterMap pick = (s.memberColumns a.typeName (.reference l)).filterMap pick := by
  rw [hs.columns]
  exact h.filterMap_members (fun m c => isMemberColumn_of_mem_memberColumns) hn hl

/-- Among all columns those are picked that hold the key of the target. -/
theorem IsEntityOf.filterMap_allColumns (hs : s.IsEntityOf e a) (h : PicksReference key l pick)
    (hn : ((s.graph.referenceLinks a).map key).Nodup) (hl : l ∈ s.graph.referenceLinks a) :
    e.allColumns.filterMap pick = (s.keysOf l.terminal).filterMap fun k =>
      pick (Column.foreignKey a.typeName l (!l.relation.isKeyReference) k) := by
  rw [Entity.allColumns, List.filterMap_append, hs.filterMap_keys h hn hl,
    hs.filterMap_columns h hn hl, memberKeys, memberColumns]
  cases l.relation.isKeyReference
  · rw [if_neg Bool.false_ne_true, if_neg Bool.false_ne_true, List.filterMap_map]
    rfl
  · rw [if_pos rfl, if_pos rfl, List.filterMap_map, List.filterMap_nil, List.append_nil]
    rfl

end Picked

theorem picksReference_partOf? (l : Link) : PicksReference Edge.name l (partOf? l.name) where
  inherited c hc := by
    unfold partOf?
    split
    · simp [hc]
    · rfl
  role c hc := by
    unfold partOf?
    split
    · rename_i hr
      exact absurd hr (hc _ _ _)
    · rfl
  other k hk table nullable c := by simp [partOf?, Column.foreignKey, hk]

/-- Where references have distinct names, the columns of a reference hold the key of its target. -/
theorem IsEntityOf.referenceColumns_eq (hs : s.IsEntityOf e a)
    (hn : ((s.graph.referenceLinks a).map (·.name)).Nodup) {l : Link}
    (hl : l ∈ s.graph.referenceLinks a) :
    e.referenceColumns l.name = (s.keysOf l.terminal).map fun k =>
      (Column.foreignKey a.typeName l (!l.relation.isKeyReference) k, k.name) := by
  rw [referenceColumns_eq_filterMap, hs.filterMap_allColumns (picksReference_partOf? l) hn hl,
    ← List.filterMap_eq_map]
  exact List.filterMap_congr fun k _ => by simp [partOf?, Column.foreignKey]

end Schema

end AggregateSchema
