import AggregateSchema.Proofs.Columns

/-! The columns in which an aggregate holds a reference: one for each key column of the target. -/
namespace AggregateSchema

namespace Column

/-- Whether a column, not an inherited one, holds a part of the key that a reference refers to. -/
def isPartFor (l : Link) (c : Column) : Bool :=
  match c.role with
  | .foreignKey name target _ => !c.inherited && name = l.name && target = l.terminal.path
  | _ => false

/-- How a column of a reference stands for a key column of the target. -/
structure StandsFor (l : Link) (c k : Column) : Prop where
  name : c.name = l.name ++ "_" ++ k.name
  role : c.role = .foreignKey l.name l.terminal.path k.name
  type : c.type = k.type
  nullable : c.nullable = !l.relation.isKeyReference

theorem isPartFor_iff {l : Link} {c : Column} : c.isPartFor l = true ↔
    c.inherited = false ∧ ∃ part, c.role = .foreignKey l.name l.terminal.path part := by
  unfold isPartFor
  split
  · rename_i hr
    simp [hr, and_assoc]
  · rename_i hr
    exact iff_of_false Bool.false_ne_true fun ⟨_, part, hp⟩ => hr _ _ _ hp

theorem isPartFor_foreignKey (table : String) (l : Link) (nullable : Bool) (k : Column) :
    (foreignKey table l nullable k).isPartFor l = true :=
  isPartFor_iff.2 ⟨rfl, k.name, rfl⟩

theorem foreignKey_standsFor (table : String) (l : Link) (k : Column) :
    (foreignKey table l (!l.relation.isKeyReference) k).StandsFor l k :=
  ⟨rfl, rfl, rfl, rfl⟩

end Column

/-- The columns of a reference from one table to another stand for the whole key of the other, column
by column and in order, and are key columns themselves exactly if the reference is part of the key. -/
structure Entity.MirrorsKey (e f : Entity) (l : Link) : Prop where
  parts : List.Forall₂ (Column.StandsFor l) (e.allColumns.filter (Column.isPartFor l)) f.keys
  keys : ∀ c ∈ e.allColumns, c.isPartFor l = true →
    (c ∈ e.keys ↔ l.relation.isKeyReference = true)
  columns : ∀ c ∈ e.allColumns, c.isPartFor l = true →
    (c ∈ e.columns ↔ l.relation.isKeyReference = false)
  separate : (e.allColumns.map Column.name).Nodup
  distinct : (f.keys.map Column.name).Nodup

namespace Schema
variable {s : Schema} {a : Aggregate} {e : Entity} {l : Link}

theorem picksReference_isPartFor (l : Link) :
    PicksReference (fun k : Link => (k.name, k.terminal.path)) l
      (Option.guard (Column.isPartFor l)) where
  inherited c hc := by
    rw [Option.guard_eq_none_iff, ← Bool.not_eq_true, Column.isPartFor_iff, hc]
    exact fun h => nomatch h.1
  role c hc := by
    rw [Option.guard_eq_none_iff, ← Bool.not_eq_true, Column.isPartFor_iff]
    exact fun ⟨_, part, hr⟩ => hc _ _ _ hr
  other k hk table nullable c := by
    rw [Option.guard_eq_none_iff, ← Bool.not_eq_true, Column.isPartFor_iff]
    rintro ⟨-, part, hr⟩
    obtain ⟨hname, htarget, -⟩ := ColumnRole.foreignKey.inj hr
    exact hk (Prod.ext hname htarget)

/-- References of an aggregate are told apart by their names together with their targets. -/
theorem nodup_referenceLinks (s : Schema) (a : Aggregate) :
    ((s.graph.referenceLinks a).map fun k => (k.name, k.terminal.path)).Nodup := by
  have hsub : (s.graph.referenceLinks a).Sublist s.graph.edges :=
    List.filter_sublist.trans List.filter_sublist
  apply List.Nodup.of_map fun x : String × Path => (a.path, x.2, x.1)
  rw [List.map_map]
  convert s.graph.separate.sublist (hsub.map _) using 1
  refine List.map_congr_left fun k hk => ?_
  have hi := ((Graph.mem_outgoing _).1 (List.mem_filter.1 hk).1).2
  exact Prod.ext hi.symm rfl

/-- The columns of a reference are made from the key of its target. -/
theorem IsEntityOf.filter_isPartFor (hs : s.IsEntityOf e a) (hl : l ∈ s.graph.referenceLinks a) :
    e.allColumns.filter (Column.isPartFor l) = (s.keysOf l.terminal).map
      (Column.foreignKey a.typeName l (!l.relation.isKeyReference)) := by
  rw [← List.filterMap_eq_filter,
    hs.filterMap_allColumns (picksReference_isPartFor l) (nodup_referenceLinks s a) hl,
    ← List.filterMap_eq_map]
  exact List.filterMap_congr fun k _ => by simp [Option.guard, Column.isPartFor_foreignKey]

/-- Only a reference that is part of the key has key columns. -/
theorem IsEntityOf.isKeyReference_of_mem_keys (hs : s.IsEntityOf e a)
    (hl : l ∈ s.graph.referenceLinks a) {c : Column} (hc : c ∈ e.keys)
    (hp : c.isPartFor l = true) : l.relation.isKeyReference = true := by
  by_contra hk
  have hnone : e.keys.filter (Column.isPartFor l) = [] := by
    rw [← List.filterMap_eq_filter,
      hs.filterMap_keys (picksReference_isPartFor l) (nodup_referenceLinks s a) hl, memberKeys,
      if_neg hk]
    rfl
  exact List.not_mem_nil (hnone ▸ List.mem_filter.2 ⟨hc, hp⟩)

/-- A reference that is part of the key has no other columns. -/
theorem IsEntityOf.isKeyReference_of_mem_columns (hs : s.IsEntityOf e a)
    (hl : l ∈ s.graph.referenceLinks a) {c : Column} (hc : c ∈ e.columns)
    (hp : c.isPartFor l = true) : l.relation.isKeyReference = false := by
  by_contra hk
  have hnone : e.columns.filter (Column.isPartFor l) = [] := by
    rw [← List.filterMap_eq_filter,
      hs.filterMap_columns (picksReference_isPartFor l) (nodup_referenceLinks s a) hl,
      memberColumns, if_pos (eq_true_of_ne_false hk)]
    rfl
  exact List.not_mem_nil (hnone ▸ List.mem_filter.2 ⟨hc, hp⟩)

theorem IsEntityOf.mirrorsKey {f : Entity} (hs : s.IsEntityOf e a)
    (hf : s.entity? l.terminal.path = some f) (hfs : s.IsEntityOf f l.terminal)
    (hl : l ∈ s.graph.referenceLinks a) : e.MirrorsKey f l where
  parts := by
    rw [hs.filter_isPartFor hl, keys_of_entity? hf, List.forall₂_map_left_iff, List.forall₂_same]
    exact fun k _ => k.foreignKey_standsFor a.typeName l
  keys c hc hp := by
    refine ⟨fun hck => hs.isKeyReference_of_mem_keys hl hck hp, fun hk => ?_⟩
    refine (List.mem_append.1 hc).resolve_right fun hcc => ?_
    simp [hs.isKeyReference_of_mem_columns hl hcc hp] at hk
  columns c hc hp := by
    refine ⟨fun hcc => hs.isKeyReference_of_mem_columns hl hcc hp, fun hk => ?_⟩
    refine (List.mem_append.1 hc).resolve_left fun hck => ?_
    simp [hs.isKeyReference_of_mem_keys hl hck hp] at hk
  separate := hs.distinct
  distinct := hfs.distinct.sublist ((List.sublist_append_left _ _).map _)

/-- In every schema the columns of a reference mirror the key of its target, also where that key is
inherited or made of references itself. -/
theorem foreign_keys_mirror (s : Schema) {l : Link} (hl : l ∈ s.graph.edges)
    (hr : l.relation.isReference = true) :
    ∃ e f, s.entity? l.initial.path = some e ∧ s.entity? l.terminal.path = some f ∧
      e.MirrorsKey f l := by
  obtain ⟨hi, ht⟩ := s.graph.closed l hl
  obtain ⟨e, he, hs⟩ := exists_entity hi
  obtain ⟨f, hf, hfs⟩ := exists_entity ht
  have hlinks : l ∈ s.graph.referenceLinks l.initial :=
    List.mem_filter.2 ⟨(Graph.mem_outgoing _).2 ⟨hl, rfl⟩, hr⟩
  exact ⟨e, f, he, hf, hs.mirrorsKey hf hfs hlinks⟩

end Schema

namespace Draft

/-- Shipments of lines of orders, told apart by the line, and notices of shipments. -/
def shipments : Draft where
  declarations := [
    .aggregate "/Order" none [⟨"number", "integer", true, true, false⟩],
    .children "Line" "/Order" none [⟨"text", "sentence", false, false, false⟩],
    .aggregate "/Shipment" none [],
    .reference "line" "/Shipment" "/Order/Line" true false,
    .aggregate "/Notice" none [⟨"id", "word", true, true, false⟩],
    .reference "shipment" "/Notice" "/Shipment" false false]
  enumerations := []

/-- A notice holds the key of its shipment, which holds the key of a line, which is that of the order
and a position. -/
theorem foreign_keys_mirror_shipments : ∃ s, shipments.resolve .standard = .ok s ∧
    ∃ l ∈ s.graph.edges, l.relation.isReference = true ∧ ∃ e f,
      s.entity? l.initial.path = some e ∧ s.entity? l.terminal.path = some f ∧ e.MirrorsKey f l ∧
        f.keys.map Column.name = ["line_order_number", "line_seq"] := by
  obtain ⟨s, hs, h⟩ := exists_ok_of_any (shipments.resolve .standard) (fun s => s.graph.edges.any
    fun l => l.relation.isReference = true ∧ (s.entity? l.terminal.path).map
      (fun f => f.keys.map Column.name) = some ["line_order_number", "line_seq"]) (by decide +kernel)
  obtain ⟨l, hl, h⟩ := List.any_eq_true.1 h
  obtain ⟨hr, hkeys⟩ := of_decide_eq_true h
  obtain ⟨e, f, he, hf, hmirrors⟩ := s.foreign_keys_mirror hl hr
  rw [hf, Option.map_some, Option.some.injEq] at hkeys
  exact ⟨s, hs, l, hl, hr, e, f, he, hf, hmirrors, hkeys⟩

end Draft

end AggregateSchema
