import AggregateSchema.Proofs.DeclaredMembers
import AggregateSchema.Proofs.KeyCycles
import AggregateSchema.Proofs.Nested

/-! What the value of a key column is in the end: a scalar, or a position in a list. -/
namespace AggregateSchema

/-- What a key column holds, however many owners and references pass it on. -/
inductive KeySource where
  | scalar (kind : ScalarKind)
  | position
  deriving DecidableEq

/-- Whether a value other than null is one of a source. -/
def KeySource.admits : KeySource → Json → Bool
  | scalar kind, v => kind.admits v
  | position, .integer n => 0 ≤ n
  | position, _ => false

theorem ScalarKind.isNull_of_admits {kind : ScalarKind} {v : Json} (h : kind.admits v = true) :
    v.isNull = false := by
  cases v with
  | null => cases kind <;> simp [admits, Json.int64?] at h
  | _ => rfl

theorem KeySource.isNull_of_admits {source : KeySource} {v : Json} (h : source.admits v = true) :
    v.isNull = false := by
  cases source with
  | scalar kind => exact ScalarKind.isNull_of_admits h
  | position =>
    cases v with
    | null => cases h
    | _ => rfl

namespace Schema

/-- The source of a key column of an aggregate: a key scalar or the position, where the aggregate
introduces the column itself, and else that of the column of the owner, or of the target of a key
reference, from which it is copied. -/
inductive HasSource (s : Schema) : Aggregate → Column → KeySource → Prop
  | scalar {a : Aggregate} {m : Scalar} (hm : m ∈ a.scalars) (hk : m.isKey = true) :
      HasSource s a (Column.ofScalar a.typeName m) (.scalar m.kind)
  | position {a : Aggregate} (ho : Column.sequence a.typeName ∈ s.ownKeys a) :
      HasSource s a (Column.sequence a.typeName) .position
  | reference {a : Aggregate} {l : Link} {k : Column} {source : KeySource}
      (hl : l ∈ s.graph.referenceLinks a) (hr : l.relation.isKeyReference = true)
      (hk : k ∈ s.keysOf l.terminal) (h : HasSource s l.terminal k source) :
      HasSource s a (Column.foreignKey a.typeName l false k) source
  | owner {a o : Aggregate} {k : Column} {source : KeySource} (ho : s.graph.owner? a = some o)
      (hk : k ∈ s.keysOf o) (h : HasSource s o k source) :
      HasSource s a (Column.inherit o.typeName k) source

/-- A value that a key column of an aggregate could hold. -/
def CouldHold (s : Schema) (a : Aggregate) (k : Column) (v : Json) : Prop :=
  ∃ source, s.HasSource a k source ∧ source.admits v = true

variable {s : Schema} {a : Aggregate}

theorem CouldHold.isNull {k : Column} {v : Json} (h : s.CouldHold a k v) : v.isNull = false := by
  obtain ⟨source, -, hv⟩ := h
  exact KeySource.isNull_of_admits hv

/-- What holds of an aggregate whenever it holds of all whose keys it needs holds of all. -/
theorem key_induction {P : (a : Aggregate) → a ∈ s.graph.nodes → Prop}
    (step : ∀ a ha, (∀ b (h : s.graph.KeyDependsOn a b), P b h.mem_nodes) → P a ha)
    {a : Aggregate} (ha : a ∈ s.graph.nodes) : P a ha :=
  AggregateGraph.induction_of_derivable (P := fun a => ∀ ha, P a ha)
    (fun a ha ih _ => step a ha fun b h => ih b h _)
    (AggregateGraph.get?_keyTable_iff.1 (get?_keyTable ha)) ha rfl ha

/-- Every key column has a source. -/
theorem exists_source (ha : a ∈ s.graph.nodes) :
    ∀ k ∈ s.keysOf a, ∃ source, s.HasSource a k source := by
  induction ha using key_induction with
  | step a ha ih =>
    intro k hk
    rw [keysOf_eq ha, List.mem_append] at hk
    rcases hk with hk | hk
    · cases ho : s.graph.owner? a with
      | none => simp [inheritedKeys_of_root ho] at hk
      | some o =>
        rw [inheritedKeys_of_owner? ho] at hk
        obtain ⟨c, hc, rfl⟩ := List.mem_map.1 hk
        obtain ⟨source, hs⟩ := ih o (Or.inl ho) c hc
        exact ⟨source, .owner ho hc hs⟩
    · rcases ownKeys_cases s a with h | ⟨-, -, h⟩
      · rcases mem_declaredKeys.1 (h ▸ hk) with ⟨m, hm, hkey, rfl⟩ | ⟨l, hl, hr, c, hc, rfl⟩
        · exact ⟨_, .scalar hm hkey⟩
        · obtain ⟨source, hs⟩ := ih l.terminal (Or.inr ⟨l, hl, hr, rfl⟩) c hc
          exact ⟨source, .reference hl hr hc hs⟩
      · obtain rfl := List.mem_singleton.1 (h ▸ hk)
        exact ⟨_, .position hk⟩

theorem eq_of_name_eq_of_mem_keysOf (ha : a ∈ s.graph.nodes) {k c : Column} (hk : k ∈ s.keysOf a)
    (hc : c ∈ s.keysOf a) (h : k.name = c.name) : k = c := by
  obtain ⟨e, -, hs⟩ := exists_entity ha
  exact List.inj_on_of_nodup_map hs.distinct (hs.mem_allColumns ha hk) (hs.mem_allColumns ha hc) h

/-- No key column has two sources, if no two members of one aggregate have one name. -/
theorem HasSource.unique (hg : s.graph.IsForest)
    (hn : ∀ b ∈ s.graph.nodes, ((s.graph.members b).map Member.name).Nodup)
    (ha : a ∈ s.graph.nodes) {k : Column} {x y : KeySource} (hx : s.HasSource a k x)
    (hy : s.HasSource a k y) : x = y := by
  -- How a column came about shows in whether it is inherited, and then in its role.
  induction hx generalizing y with
  | @scalar a m hm _ =>
    generalize hc : Column.ofScalar a.typeName m = c at hy
    cases hy with
    | @scalar _ m' hm' _ =>
      have he := List.inj_on_of_nodup_map (hn a ha) (AggregateGraph.scalar_mem_members hm)
        (AggregateGraph.scalar_mem_members hm') (congrArg Column.name hc)
      rw [Member.scalar.inj he]
    | owner => cases congrArg Column.inherited hc
    | _ => cases congrArg Column.role hc
  | @position a _ =>
    generalize hc : Column.sequence a.typeName = c at hy
    cases hy with
    | position => rfl
    | owner => cases congrArg Column.inherited hc
    | _ => cases congrArg Column.role hc
  | @reference a l k source hl _ hk _ ih =>
    generalize hc : Column.foreignKey a.typeName l false k = c at hy
    cases hy with
    | @reference _ l' k' _ hl' _ hk' h' =>
      obtain ⟨hname, -, hkey⟩ := ColumnRole.foreignKey.inj (congrArg Column.role hc)
      have he := List.inj_on_of_nodup_map (hn a ha) (AggregateGraph.reference_mem_members.2 hl)
        (AggregateGraph.reference_mem_members.2 hl') hname
      obtain rfl := Member.reference.inj he
      have ht := terminal_mem_of_reference_mem (AggregateGraph.reference_mem_members.2 hl)
      obtain rfl := eq_of_name_eq_of_mem_keysOf ht hk hk' hkey
      exact ih ht h'
    | owner => cases congrArg Column.inherited hc
    | _ => cases congrArg Column.role hc
  | @owner a o k source ho hk _ ih =>
    generalize hc : Column.inherit o.typeName k = c at hy
    cases hy with
    | @owner _ o' k' _ ho' hk' h' =>
      obtain rfl : o = o' := Option.some.inj (ho.symm.trans ho')
      have hon := AggregateGraph.mem_nodes_of_owner? ho
      have horigin : k.origin = k'.origin := by
        rw [← Column.origin_inherit o.typeName k, hc, Column.origin_inherit]
      obtain rfl := List.inj_on_of_nodup_map (nodup_origins_keysOf hg hon) hk hk' horigin
      exact ih hon h'
    | _ => cases congrArg Column.inherited hc

theorem existsUnique_source (hg : s.graph.IsForest)
    (hn : ∀ b ∈ s.graph.nodes, ((s.graph.members b).map Member.name).Nodup)
    (ha : a ∈ s.graph.nodes) {k : Column} (hk : k ∈ s.keysOf a) :
    ∃! source, s.HasSource a k source := by
  obtain ⟨source, hs⟩ := exists_source ha k hk
  exact ⟨source, hs, fun other ho => ho.unique hg hn ha hs⟩

/-- A key column could hold just what its source admits. -/
theorem HasSource.couldHold_iff (hg : s.graph.IsForest)
    (hn : ∀ b ∈ s.graph.nodes, ((s.graph.members b).map Member.name).Nodup)
    (ha : a ∈ s.graph.nodes) {k : Column} {source : KeySource} (h : s.HasSource a k source)
    {v : Json} : s.CouldHold a k v ↔ source.admits v = true := by
  constructor
  · rintro ⟨x, hx, hv⟩
    rwa [← hx.unique hg hn ha h]
  · exact fun hv => ⟨source, h, hv⟩

end Schema

end AggregateSchema
