import AggregateSchema.Proofs.KeySearch

/-! What the entity of an aggregate consists of. -/
namespace AggregateSchema

namespace AggregateGraph
variable {g : AggregateGraph}

theorem sharedTables_eq_nil_iff {seen : List (String × Path)} {as : List Aggregate} :
    sharedTables seen as = [] ↔
      (∀ a ∈ as, seen.lookup a.typeName = none) ∧ (as.map Aggregate.typeName).Nodup := by
  induction as generalizing seen with
  | nil => simp [sharedTables]
  | cons a as ih =>
    rw [sharedTables, List.append_eq_nil_iff, ih]
    simp only [List.mem_cons, forall_eq_or_imp, List.map_cons, List.nodup_cons, List.mem_map,
      not_exists, not_and]
    constructor
    · rintro ⟨ha, h, hn⟩
      have hne : ∀ b ∈ as, b.typeName ≠ a.typeName := fun b hb he => by simpa [he] using h b hb
      refine ⟨⟨?_, fun b hb => ?_⟩, hne, hn⟩
      · cases hl : seen.lookup a.typeName with
        | none => rfl
        | some p => simp [hl] at ha
      · simpa [List.lookup_cons, beq_eq_false_iff_ne.2 (hne b hb)] using h b hb
    · rintro ⟨⟨ha, h⟩, hne, hn⟩
      refine ⟨by simp [ha], fun b hb => ?_, hn⟩
      simpa [List.lookup_cons, beq_eq_false_iff_ne.2 (hne b hb)] using h b hb

theorem key_eq_ok_iff {t : KeyTable} {a : Aggregate} {keys : List Column} :
    key g t a = .ok keys ↔ t.get? a.path = some keys := by
  unfold key
  cases t.get? a.path <;> simp

/-- The nodes of some paths are what the paths are of. -/
theorem filterMap_node? {nodes : List Aggregate} (h : nodes ⊆ g.nodes) :
    (nodes.map (·.path)).filterMap g.node? = nodes := by
  rw [List.filterMap_map]
  refine (List.filterMap_congr fun a ha => ?_).trans List.filterMap_some
  exact g.node?_id (h ha)

/-- What the entity of an aggregate is called, and by whom it is owned. -/
theorem header_of_entity {t : KeyTable} {a : Aggregate} {e : Entity}
    (h : (entity g t a).2 = some e) : e.path = a.path ∧ e.table = a.typeName ∧
      e.owner? = (owner? g a).map (·.path) := by
  unfold entity at h
  split at h
  · cases h
  · unfold entityWithKey at h
    split at h
    · cases h
    · cases h
      exact ⟨rfl, rfl, rfl⟩

/-- An aggregate without a problem has an entity. -/
theorem exists_entity_of_problems_eq_nil {t : KeyTable} {a : Aggregate}
    (h : (entity g t a).1 = []) : ∃ keys columns, t.get? a.path = some keys ∧
      (members g a).mapM (memberColumns (key g t) a.typeName) = .ok columns ∧
        keylessRootProblems g a keys = [] ∧
          let e : Entity := ⟨a.path, a.typeName, (owner? g a).map (·.path), keys,
            columns.flatten, navigations g a⟩
          repeatedColumnProblems e = [] ∧ (entity g t a).2 = some e := by
  unfold entity entityWithKey at h ⊢
  cases hk : key g t a with
  | error p => simp [hk] at h
  | ok keys =>
    cases hc : (members g a).mapM (memberColumns (key g t) a.typeName) with
    | error p => simp [hk, hc] at h
    | ok columns =>
      simp only [hk, hc, List.append_eq_nil_iff] at h
      exact ⟨keys, columns, key_eq_ok_iff.1 hk, rfl, h.1, h.2, rfl⟩

end AggregateGraph

namespace Schema

/-- The key columns of an aggregate. -/
def keysOf (s : Schema) (a : Aggregate) : List Column := ((s.entity? a.path).map (·.keys)).getD []

/-- The key columns that one member takes. -/
def memberKeys (s : Schema) (table : String) : Member → List Column
  | .scalar m => if m.isKey then [Column.ofScalar table m] else []
  | .reference l =>
    if l.relation.isKeyReference then (s.keysOf l.terminal).map (Column.foreignKey table l false)
    else []
  | _ => []

/-- The columns outside the key that one member takes. -/
def memberColumns (s : Schema) (table : String) : Member → List Column
  | .scalar m => if m.isKey then [] else [Column.ofScalar table m]
  | .variation v => [Column.discriminator table v]
  | .reference l =>
    if l.relation.isKeyReference then []
    else (s.keysOf l.terminal).map (Column.foreignKey table l true)
  | _ => []

/-- The key columns that an aggregate declares: those of its key scalars, and then those of its key
references. -/
def declaredKeys (s : Schema) (a : Aggregate) : List Column :=
  (a.scalars.filter (·.isKey)).map (Column.ofScalar a.typeName) ++
    ((s.graph.referenceLinks a).filter (·.relation.isKeyReference)).flatMap fun l =>
      (s.keysOf l.terminal).map (Column.foreignKey a.typeName l false)

/-- The key columns that are an aggregate's own: the declared ones, or the position of an item of a
list that declares none. -/
def ownKeys (s : Schema) (a : Aggregate) : List Column :=
  if s.graph.isRepeated a && (s.declaredKeys a).isEmpty then [Column.sequence a.typeName]
  else s.declaredKeys a

/-- The key columns that an aggregate has from its owner. -/
def inheritedKeys (s : Schema) (a : Aggregate) : List Column :=
  match s.graph.owner? a with
  | none => []
  | some o => (s.keysOf o).map (Column.inherit o.typeName)

/-- The stored form of an aggregate, in terms of its members and its owner. -/
structure IsEntityOf (s : Schema) (e : Entity) (a : Aggregate) : Prop where
  path : e.path = a.path
  table : e.table = a.typeName
  keys : e.keys = s.inheritedKeys a ++ s.ownKeys a
  columns : e.columns = (s.graph.members a).flatMap (s.memberColumns a.typeName)
  distinct : (e.allColumns.map Column.name).Nodup
  keyed : s.graph.keylessRootProblems a e.keys = []

variable {s : Schema} {a : Aggregate}

theorem inheritedKeys_of_root (h : s.graph.owner? a = none) : s.inheritedKeys a = [] := by
  rw [inheritedKeys, h]

theorem inheritedKeys_of_owner? {o : Aggregate} (h : s.graph.owner? a = some o) :
    s.inheritedKeys a = (s.keysOf o).map (Column.inherit o.typeName) := by
  rw [inheritedKeys, h]

theorem mem_declaredKeys {c : Column} : c ∈ s.declaredKeys a ↔
    (∃ m ∈ a.scalars, m.isKey = true ∧ Column.ofScalar a.typeName m = c) ∨
      ∃ l ∈ s.graph.referenceLinks a, l.relation.isKeyReference = true ∧
        ∃ k ∈ s.keysOf l.terminal, Column.foreignKey a.typeName l false k = c := by
  simp only [declaredKeys, List.mem_append, List.mem_map, List.mem_flatMap, List.mem_filter,
    and_assoc]

/-- The own key columns are the declared ones, or there is just the position. -/
theorem ownKeys_cases (s : Schema) (a : Aggregate) : s.ownKeys a = s.declaredKeys a ∨
    s.graph.isRepeated a = true ∧ s.declaredKeys a = [] ∧
      s.ownKeys a = [Column.sequence a.typeName] := by
  unfold ownKeys
  split
  · rename_i h
    rw [Bool.and_eq_true, List.isEmpty_iff] at h
    exact Or.inr ⟨h.1, h.2, rfl⟩
  · exact Or.inl rfl

theorem declaredKeys_eq_flatMap :
    s.declaredKeys a = (s.graph.members a).flatMap (s.memberKeys a.typeName) := by
  rw [AggregateGraph.members, List.flatMap_append, List.flatMap_map, declaredKeys]
  rw [Member.flatMap_ofLinks (fun _ => rfl) (fun _ => rfl) (fun _ => rfl)]
  congr 1
  · rw [List.map_eq_flatMap]
    exact (flatMap_ite_nil _ _ _).symm
  · exact (flatMap_ite_nil _ _ _).symm

theorem problems_eq_nil (s : Schema) :
    AggregateGraph.sharedTables [] s.graph.byDepth = [] ∧
      (∀ a ∈ s.graph.nodes, (s.graph.entity s.graph.keyTable a).1 = []) ∧
        s.entities = s.graph.derivations.filterMap (·.2) := by
  have h := s.derived
  rw [AggregateGraph.entities_eq] at h
  by_cases hp : (AggregateGraph.sharedTables [] s.graph.byDepth ++
      s.graph.derivations.flatMap (·.1)).isEmpty
  · rw [if_pos hp, Except.ok.injEq] at h
    rw [List.isEmpty_iff, List.append_eq_nil_iff, List.flatMap_eq_nil_iff] at hp
    refine ⟨hp.1, fun a ha => hp.2 _ ?_, h.symm⟩
    exact List.mem_map_of_mem (AggregateGraph.mem_byDepth.2 ha)
  · rw [if_neg hp] at h
    cases h

/-- Aggregates of one table are one aggregate. -/
theorem eq_of_typeName_eq {b : Aggregate} (ha : a ∈ s.graph.nodes) (hb : b ∈ s.graph.nodes)
    (h : a.typeName = b.typeName) : a = b :=
  List.inj_on_of_nodup_map (AggregateGraph.sharedTables_eq_nil_iff.1 (problems_eq_nil s).1).2
    (AggregateGraph.mem_byDepth.2 ha) (AggregateGraph.mem_byDepth.2 hb) h

/-- The entities are those of the aggregates, level by level. -/
theorem forall₂_entities (s : Schema) : List.Forall₂
    (fun e a => a ∈ s.graph.nodes ∧ (s.graph.entity s.graph.keyTable a).2 = some e)
      s.entities s.graph.byDepth := by
  obtain ⟨-, hproblems, hentities⟩ := problems_eq_nil s
  rw [hentities, AggregateGraph.derivations, List.filterMap_map]
  have hnodes : List.Forall₂ (fun a b => a = b ∧ a ∈ s.graph.nodes) s.graph.byDepth
      s.graph.byDepth := List.forall₂_same.2 fun a ha => ⟨rfl, AggregateGraph.mem_byDepth.1 ha⟩
  refine (forall₂_filterMap hnodes ?_).flip
  rintro a _ ⟨rfl, ha⟩
  obtain ⟨_, _, _, _, _, _, hae⟩ :=
    AggregateGraph.exists_entity_of_problems_eq_nil (hproblems a ha)
  exact ⟨_, hae, ha, hae⟩

/-- Every entity is derived from the aggregate at its path. -/
theorem exists_derived_of_mem_entities {e : Entity} (he : e ∈ s.entities) :
    ∃ a ∈ s.graph.nodes, e.path = a.path ∧ (s.graph.entity s.graph.keyTable a).2 = some e := by
  obtain ⟨a, -, ha, hae⟩ := exists_of_mem_left (forall₂_entities s) he
  exact ⟨a, ha, (AggregateGraph.header_of_entity hae).1, hae⟩

theorem node?_of_derived (ha : a ∈ s.graph.nodes) {e : Entity}
    (he : (s.graph.entity s.graph.keyTable a).2 = some e) : s.node? e.path = some a := by
  rw [(AggregateGraph.header_of_entity he).1]
  exact s.graph.node?_id ha

theorem map_path_entities (s : Schema) :
    s.entities.map Entity.path = s.graph.byDepth.map Aggregate.path :=
  map_eq_map_of_forall₂ (forall₂_entities s) fun _ _ h => (AggregateGraph.header_of_entity h.2).1

/-- The aggregates of a schema are those of its graph, level by level. -/
theorem aggregates_eq (s : Schema) : s.aggregates = s.graph.byDepth := by
  have hall : s.graph.byDepth ⊆ s.graph.nodes := fun _ => AggregateGraph.mem_byDepth.1
  rw [← AggregateGraph.filterMap_node? hall, ← map_path_entities, List.filterMap_map]
  rfl

theorem nodup_paths (s : Schema) : (s.entities.map Entity.path).Nodup := by
  rw [map_path_entities]
  exact (s.graph.byDepth_perm_nodes.map Aggregate.path).nodup_iff.2 s.graph.distinct

theorem entity?_eq_some_iff {p : Path} {e : Entity} :
    s.entity? p = some e ↔ e ∈ s.entities ∧ e.path = p :=
  find?_key_eq_some_iff Entity.path (nodup_paths s)

/-- The entity found at the path of an aggregate is the one derived from it. -/
theorem entity?_eq_some (ha : a ∈ s.graph.nodes) {e : Entity}
    (he : (s.graph.entity s.graph.keyTable a).2 = some e) (hp : e.path = a.path) :
    s.entity? a.path = some e := by
  obtain ⟨f, hf, -, haf⟩ :=
    exists_of_mem_right (forall₂_entities s) (AggregateGraph.mem_byDepth.2 ha)
  obtain rfl : f = e := Option.some.inj (haf.symm.trans he)
  exact entity?_eq_some_iff.2 ⟨hf, hp⟩

/-- Entities of one path are one entity. -/
theorem eq_of_path_eq {e f : Entity} (he : e ∈ s.entities) (hf : f ∈ s.entities)
    (h : e.path = f.path) : e = f :=
  List.inj_on_of_nodup_map (nodup_paths s) he hf h

/-- The key of an aggregate is the one in the table of keys. -/
theorem get?_keyTable (ha : a ∈ s.graph.nodes) :
    s.graph.keyTable.get? a.path = some (s.keysOf a) := by
  obtain ⟨keys, columns, hk, _, _, _, he⟩ :=
    AggregateGraph.exists_entity_of_problems_eq_nil ((problems_eq_nil s).2.1 a ha)
  rw [hk, keysOf, entity?_eq_some ha he rfl]
  rfl

theorem terminal_mem_of_reference_mem {l : Link} (h : Member.reference l ∈ s.graph.members a) :
    l.terminal ∈ s.graph.nodes :=
  (s.graph.closed l ((Graph.mem_outgoing _).1 (AggregateGraph.mem_outgoing_of_reference_mem h)).1).2

/-- What a member adds to the key by the table of keys. -/
theorem eq_memberKeys {m : Member} (hm : m ∈ s.graph.members a) {cs : List Column}
    (h : KeyRule.memberKeys (fun b => s.graph.keyTable.get? b.path) a.typeName m = some cs) :
    cs = s.memberKeys a.typeName m := by
  cases m with
  | reference l =>
    rw [KeyRule.memberKeys, get?_keyTable (terminal_mem_of_reference_mem hm)] at h
    rw [memberKeys]
    by_cases hl : l.relation.isKeyReference
    · rw [if_pos hl] at h ⊢
      exact (Option.some.inj h).symm
    · rw [if_neg hl] at h ⊢
      exact (Option.some.inj h).symm
  | _ => exact (Option.some.inj h).symm

theorem eq_memberColumns {m : Member} (hm : m ∈ s.graph.members a) {cs : List Column}
    (h : AggregateGraph.memberColumns (s.graph.key s.graph.keyTable) a.typeName m = .ok cs) :
    cs = s.memberColumns a.typeName m := by
  cases m with
  | reference l =>
    rw [AggregateGraph.memberColumns] at h
    rw [memberColumns]
    by_cases hl : l.relation.isKeyReference
    · rw [if_pos hl] at h ⊢
      exact (Except.ok.inj h).symm
    · rw [if_neg hl] at h ⊢
      obtain ⟨keys, hk, rfl⟩ := map_eq_ok_iff.1 h
      rw [AggregateGraph.key_eq_ok_iff, get?_keyTable (terminal_mem_of_reference_mem hm)] at hk
      rw [Option.some.inj hk]
  | _ => exact (Except.ok.inj h).symm

/-- The key of an aggregate is the key of its owner, and then its own. -/
theorem keysOf_eq (ha : a ∈ s.graph.nodes) : s.keysOf a = s.inheritedKeys a ++ s.ownKeys a := by
  obtain ⟨own, ho, hk⟩ := KeyRule.key?_eq_some_iff.1
    (AggregateGraph.key?_of_get?_keyTable ha (get?_keyTable ha))
  obtain ⟨parts, hp, rfl⟩ := KeyRule.own?_eq_some_iff.1 ho
  have hparts := eq_map_of_forall₂ (mapM_eq_some_iff.1 hp) fun m hm cs h => eq_memberKeys hm h
  have hflat : parts.flatten = s.declaredKeys a := by
    rw [hparts, ← List.flatMap_def, declaredKeys_eq_flatMap]
    rfl
  rw [hflat] at hk
  cases hown : s.graph.owner? a with
  | none =>
    rw [inheritedKeys_of_root hown, List.nil_append]
    simp only [AggregateGraph.keyRule, hown] at hk
    exact hk
  | some o =>
    simp only [AggregateGraph.keyRule, hown] at hk
    obtain ⟨cs, hcs, hk⟩ := hk
    rw [get?_keyTable (AggregateGraph.mem_nodes_of_owner? hown), Option.some.injEq] at hcs
    rw [inheritedKeys_of_owner? hown, hcs]
    exact hk

/-- Every aggregate has an entity. -/
theorem exists_entity (ha : a ∈ s.graph.nodes) :
    ∃ e, s.entity? a.path = some e ∧ s.IsEntityOf e a := by
  obtain ⟨keys, columns, hk, hc, hkeyed, hrep, he⟩ :=
    AggregateGraph.exists_entity_of_problems_eq_nil ((problems_eq_nil s).2.1 a ha)
  obtain rfl : s.keysOf a = keys := Option.some.inj ((get?_keyTable ha).symm.trans hk)
  have hcolumns := eq_map_of_forall₂ (mapM_eq_ok_iff.1 hc) fun m hm cs h => eq_memberColumns hm h
  refine ⟨_, entity?_eq_some ha he rfl, rfl, rfl, keysOf_eq ha, ?_, ?_, hkeyed⟩
  · rw [hcolumns, ← List.flatMap_def]
  · exact (repeats_eq_nil_iff _ _).1 (List.map_eq_nil_iff.1 hrep)

theorem isEntityOf_of_entity? (ha : a ∈ s.graph.nodes) {e : Entity}
    (he : s.entity? a.path = some e) : s.IsEntityOf e a := by
  obtain ⟨f, hf, hs⟩ := exists_entity ha
  exact Option.some.inj (hf.symm.trans he) ▸ hs

theorem mem_aggregates (ha : a ∈ s.graph.nodes) : a ∈ s.aggregates :=
  aggregates_eq s ▸ AggregateGraph.mem_byDepth.2 ha

theorem keys_of_entity? {e : Entity} (he : s.entity? a.path = some e) : e.keys = s.keysOf a := by
  rw [keysOf, he]
  rfl

end Schema

end AggregateSchema
