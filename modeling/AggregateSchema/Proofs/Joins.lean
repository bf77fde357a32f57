import AggregateSchema.Proofs.Columns
import AggregateSchema.Statement

/-! Joins of what an aggregate owns: each is tied to the whole key of the table after FROM. -/
namespace AggregateSchema

/-- The one key column of a joined table that comes from a key column of the table after FROM. -/
structure Column.IsTiedTo (table : Entity) (c k : Column) : Prop where
  key : c ∈ table.keys
  origin : c.origin = k.origin
  unique : ∀ d ∈ table.keys, d.origin = k.origin → d = c
  inherited : c.inherited = true
  nullable : c.nullable = false

/-- The look-up by origin finds it. -/
theorem Column.IsTiedTo.columnByOrigin? {table : Entity} {c k : Column} (h : c.IsTiedTo table k) :
    table.columnByOrigin? k.origin = some c := by
  obtain ⟨d, hd⟩ := Option.isSome_iff_exists.1 (List.find?_isSome.2 ⟨c, h.key, by simp [h.origin]⟩ :
    (table.keys.find? (·.origin = k.origin)).isSome = true)
  have hdc : d = c := h.unique d (List.mem_of_find?_eq_some hd) (by simpa using List.find?_some hd)
  rw [Entity.columnByOrigin?, Entity.allColumns, List.find?_append, hd, hdc]
  rfl

namespace Statement

/-- The equation of a key column of the table after FROM and one of a joined table. -/
def equation (index : Nat) (c k : Column) : String :=
  s!"{aliasOf index}.{c.name} = {aliasOf 0}.{k.name}"

/-- No key column is left out of a join in which each is tied to one of the joined table. -/
theorem joinConditions_eq {base table : Entity} {tied : List Column}
    (h : List.Forall₂ (Column.IsTiedTo table) tied base.keys) (index : Nat) :
    joinConditions base index table = List.zipWith (equation index) tied base.keys := by
  rw [joinConditions]
  generalize base.keys = keys at h
  induction h with
  | nil => rfl
  | cons hc _ ih =>
    rw [List.filterMap_cons_some (by rw [hc.columnByOrigin?]; rfl), ih]
    rfl

theorem getElem?_renderJoins (base : Entity) (index i : Nat) (joined : List Entity) :
    (renderJoins base index joined)[i]? = joined[i]?.map (renderJoin base (index + i)) := by
  induction joined generalizing index i with
  | nil => rfl
  | cons table joined ih =>
    cases i with
    | zero => rfl
    | succ i =>
      rw [renderJoins, List.getElem?_cons_succ, List.getElem?_cons_succ, ih, Nat.add_assoc,
        Nat.add_comm 1]

/-- The joins stand behind SELECT and FROM in the text of a statement. -/
theorem exists_parts_of_render {st : Statement} {base : Entity} {joined : List Entity}
    (h : st.tables = base :: joined) (hs : st.selections ≠ []) :
    ∃ parts, st.render = .ok (String.intercalate " " parts) ∧
      ∀ i table, joined[i]? = some table →
        parts[i + 2]? = some (renderJoin base (i + 1) table) := by
  have hsel : st.selections.isEmpty = false := by simpa using hs
  refine ⟨_, by rw [render, h, hsel]; rfl, fun i table hi => ?_⟩
  have hjoin := getElem?_renderJoins base 1 i joined
  rw [hi, Option.map_some, Nat.add_comm 1] at hjoin
  have hlt := (List.getElem?_eq_some_iff.1 hjoin).1
  rw [List.append_assoc, List.append_assoc, List.cons_append, List.cons_append, List.nil_append,
    List.getElem?_cons_succ, List.getElem?_cons_succ, List.getElem?_append_left hlt, hjoin]

end Statement

namespace Schema
variable {s : Schema} {a b : Aggregate}

/-- An aggregate that owns another one, at whatever level, has a key. -/
theorem keysOf_ne_nil_of_mem_ancestors (hg : s.graph.IsForest) (hb : b ∈ s.graph.nodes)
    (hab : a ∈ s.graph.ancestors b) : s.keysOf a ≠ [] := by
  induction hb using hg.induction with
  | root b hb hr => simp [AggregateGraph.ancestors_of_root hr] at hab
  | owned b hb o ho hbo ih =>
    rw [hg.ancestors_of_owner? hbo, List.mem_append, List.mem_singleton] at hab
    rcases hab with hao | rfl
    · exact ih hao
    · exact keysOf_ne_nil_of_owner? hg ho hbo

/-- Every key column of an aggregate is tied to one of whatever it owns. -/
theorem exists_tied (hg : s.graph.IsForest) (hb : b ∈ s.graph.nodes)
    (hab : a ∈ s.graph.ancestors b) {base table : Entity} (hf : s.entity? a.path = some base)
    (ht : s.entity? b.path = some table) :
    ∃ tied, List.Forall₂ (Column.IsTiedTo table) tied base.keys := by
  obtain ⟨inherited, own, hkeys, hi⟩ := exists_inherited_of_mem_ancestors hg hb hab
  have hmem : ∀ c ∈ inherited, c ∈ s.keysOf b := by
    intro c hc
    rw [hkeys]
    exact List.mem_append_left _ hc
  refine ⟨inherited, ?_⟩
  rw [keys_of_entity? hf]
  refine ((List.forall₂_and_left _ _).2 ⟨hmem, hi⟩).imp fun c k hck => ?_
  obtain ⟨hc, hfrom⟩ := hck
  refine ⟨?_, hfrom.origin, ?_, hfrom.inherited, hfrom.nullable⟩
  · rwa [keys_of_entity? ht]
  · rw [keys_of_entity? ht]
    exact fun d hd ho =>
      List.inj_on_of_nodup_map (nodup_origins_keysOf hg hb) hd hc (ho.trans hfrom.origin.symm)

end Schema

namespace Draft
open Statement

/-- An aggregate is joined to any one that owns it, at whatever level, by an equation for each key
column of that one, of which there is at least one. -/
theorem render_join {d : Draft} {registry : TypeRegistry} {s : Schema}
    (h : d.resolve registry = .ok s) {a b : Aggregate} (hb : b ∈ s.graph.nodes)
    (hab : a ∈ s.graph.ancestors b) {base table : Entity} (hf : s.entity? a.path = some base)
    (ht : s.entity? b.path = some table) {st : Statement} {joined : List Entity}
    (hst : st.tables = base :: joined) (hsel : st.selections ≠ []) {i : Nat}
    (hi : joined[i]? = some table) :
    base.keys ≠ [] ∧ ∃ tied parts, List.Forall₂ (Column.IsTiedTo table) tied base.keys ∧
      st.render = .ok (String.intercalate " " parts) ∧
      parts[i + 2]? = some (s!"LEFT JOIN {table.table} AS {aliasOf (i + 1)} ON (" ++
        String.intercalate " AND " (List.zipWith (equation (i + 1)) tied base.keys) ++ ")") := by
  have hg := isForest h
  obtain ⟨tied, htied⟩ := Schema.exists_tied hg hb hab hf ht
  obtain ⟨parts, hrender, hparts⟩ := exists_parts_of_render hst hsel
  refine ⟨?_, tied, parts, htied, hrender, ?_⟩
  · rw [Schema.keys_of_entity? hf]
    exact Schema.keysOf_ne_nil_of_mem_ancestors hg hb hab
  · rw [hparts i table hi, renderJoin, joinConditions_eq htied]

/-- Orders of lines of pieces. -/
def pieces : Draft where
  declarations := [
    .aggregate "/Order" none [⟨"number", "integer", true, true, false⟩],
    .children "Line" "/Order" none [],
    .children "Piece" "/Order/Line" none [⟨"mark", "word", true, false, false⟩]]
  enumerations := []

theorem render_join_pieces : ∃ s a b base table, pieces.resolve .standard = .ok s ∧
    a ∈ s.graph.ancestors b ∧ s.entity? a.path = some base ∧ s.entity? b.path = some table ∧
    base.keys.map (·.name) = ["order_number", "seq"] ∧
    table.keys.map (·.name) = ["order_number", "line_seq", "mark"] ∧
    ∃ tied parts, List.Forall₂ (Column.IsTiedTo table) tied base.keys ∧
      (⟨[base, table], ["1"], [], [], []⟩ : Statement).render =
        .ok (String.intercalate " " parts) ∧
      parts[2]? = some (s!"LEFT JOIN {table.table} AS {aliasOf 1} ON (" ++
        String.intercalate " AND " (List.zipWith (equation 1) tied base.keys) ++ ")") := by
  obtain ⟨s, hs, h⟩ := exists_ok_of_any (pieces.resolve .standard) (fun s => s.graph.nodes.any
    fun a => s.graph.nodes.any fun b => a ∈ s.graph.ancestors b ∧
      (s.keysOf a).map (·.name) = ["order_number", "seq"] ∧
      (s.keysOf b).map (·.name) = ["order_number", "line_seq", "mark"]) (by decide +kernel)
  obtain ⟨a, ha, h⟩ := List.any_eq_true.1 h
  obtain ⟨b, hb, h⟩ := List.any_eq_true.1 h
  obtain ⟨hab, hka, hkb⟩ := of_decide_eq_true h
  obtain ⟨base, hf, -⟩ := Schema.exists_entity ha
  obtain ⟨table, ht, -⟩ := Schema.exists_entity hb
  rw [← Schema.keys_of_entity? hf] at hka
  rw [← Schema.keys_of_entity? ht] at hkb
  have htables : (⟨[base, table], ["1"], [], [], []⟩ : Statement).tables = [base, table] := rfl
  obtain ⟨-, hjoin⟩ := render_join hs hb hab hf ht htables (List.cons_ne_nil _ _) (i := 0) rfl
  exact ⟨s, a, b, base, table, hs, hab, hf, ht, hka, hkb, hjoin⟩

end Draft

end AggregateSchema
