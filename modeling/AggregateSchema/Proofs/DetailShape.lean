import AggregateSchema.Proofs.FieldNames
import AggregateSchema.Proofs.Integrity
import AggregateSchema.Proofs.Reading
import AggregateSchema.Proofs.RoundTrip

/-! The form of what is restored, whatever the rows: a read has the fields of the published detail. -/
namespace AggregateSchema

namespace Json

/-- An object made of fields has their names, and no others. -/
theorem exists_ofFields_eq (fields : List (String × Json)) : ∃ kept, ofFields fields = .object kept ∧
    ∀ name, name ∈ kept.map Prod.fst ↔ name ∈ fields.map Prod.fst := by
  refine ⟨_, rfl, fun name => ?_⟩
  rw [(keys_foldl_insertField fields).2, List.mem_map]

/-- Under names of their own all fields are found again. -/
theorem get?_ofFields {fields : List (String × Json)} (hn : (fields.map Prod.fst).Nodup)
    {f : String × Json} (hf : f ∈ fields) : (ofFields fields).get? f.1 = some f.2 := by
  have hlookup : (ofFields fields).get? f.1 = fields.reverse.lookup f.1 :=
    lookup_foldl_insertField fields f.1
  rw [hlookup]
  cases h : fields.reverse.lookup f.1 with
  | none => simpa using List.lookup_eq_none_iff.1 h f (List.mem_reverse.2 hf)
  | some v =>
    obtain ⟨before, after, hsplit, -⟩ := List.lookup_eq_some_iff.1 h
    have hv : (f.1, v) ∈ fields := List.mem_reverse.1 (hsplit ▸ by simp)
    exact congrArg (some ·.2) (List.inj_on_of_nodup_map hn hv hf rfl)

end Json

namespace Schema

mutual
/-- Whether a value has the form of a field of an instance in detail. -/
inductive FitsDetail (s : Schema) : FieldKind → Json → Prop
  | value {kind : ScalarKind} {nullable : Bool} {v : Json} : FitsDetail s (.value kind nullable) v
  | discriminator {v : Json} : FitsDetail s .discriminator v
  | absent {path : Path} : FitsDetail s (.nested path) .null
  | nested {path : Path} {b : Aggregate} {v : Json} (node : s.node? path = some b)
    (shape : HasDetailShape s b v) : FitsDetail s (.nested path) v
  | nestedList {path : Path} {b : Aggregate} {items : List Json} (node : s.node? path = some b)
    (shape : ∀ v ∈ items, HasDetailShape s b v) : FitsDetail s (.nestedList path) (.array items)
  | noKey {target : Path} : FitsDetail s (.keyAndText target) .null
  | keyAndText {target : Path} {e : Entity} {key : List (String × Json)} {text : Json}
    (entity : s.entity? target = some e)
    (names : ∀ name, name ∈ key.map Prod.fst ↔ name ∈ e.keys.map Column.name) :
    FitsDetail s (.keyAndText target) (.object [("key", .object key), ("text", text)])

/-- Whether a value is an object with the fields of the detail of an aggregate. -/
inductive HasDetailShape (s : Schema) : Aggregate → Json → Prop
  | object {a : Aggregate} {fields : List (String × Json)}
    (names : ∀ name, name ∈ fields.map Prod.fst ↔ name ∈ (s.graph.views a).detail.names)
    (fits : ∀ f ∈ (s.graph.views a).detail.fields, ∀ v,
      (Json.object fields).get? f.name = some v → FitsDetail s f.kind v) :
    HasDetailShape s a (.object fields)
end

/-- Whether the fields in the detail of an aggregate, and in those of whatever it owns, have names of
their own. -/
def DistinctDetails (s : Schema) (a : Aggregate) : Prop :=
  ∀ b ∈ s.graph.nodes, b = a ∨ a ∈ s.graph.ancestors b → (s.graph.views b).detail.names.Nodup

variable {s : Schema} {a : Aggregate} {e : Entity} {rows : List Row} {row : Row}

theorem DistinctDetails.of_owner? (hg : s.graph.IsForest) {c : Aggregate}
    (hc : s.graph.owner? c = some a) (h : s.DistinctDetails a) : s.DistinctDetails c :=
  fun b hb hbc => h b hb (Or.inr (mem_ancestors_of_owner? hg hb hc hbc))

/-- What stands for a reference is in order of its names. -/
theorem ofFields_keyAndText (key text : Json) :
    Json.ofFields [("key", key), ("text", text)] = .object [("key", key), ("text", text)] := by
  have hlt : ¬ "text" < "key" := by decide
  simp [Json.ofFields, Json.insertField, hlt]

/-- The key of a reference, if any part of it is given, has the names of the key columns of its
target. -/
theorem IsEntityOf.fitsDetail_restoreReference (hs : s.IsEntityOf e a)
    (hn : ((s.graph.referenceLinks a).map (·.name)).Nodup) {l : Link}
    (hl : l ∈ s.graph.referenceLinks a) (ht : l.terminal ∈ s.graph.nodes) :
    s.FitsDetail (.keyAndText l.terminal.path) (e.restoreReference row l.name) := by
  obtain ⟨f, hf, -⟩ := exists_entity ht
  unfold Entity.restoreReference
  dsimp only
  split
  · exact .noKey
  · obtain ⟨key, hkey, hnames⟩ := Json.exists_ofFields_eq
      ((e.referenceColumns l.name).map fun x => (x.2, row.get x.1.name))
    rw [hkey, ofFields_keyAndText]
    refine .keyAndText hf fun name => ?_
    rw [hnames, hs.referenceColumns_eq hn hl, keys_of_entity? hf]
    simp only [List.map_map, Function.comp_def]

/-- A field is restored in the form that it has in the detail, if nested rows are. -/
theorem fitsDetail_restoredField (hs : s.IsEntityOf e a)
    (hn : ((s.graph.referenceLinks a).map (·.name)).Nodup) {within : Aggregate → Row → Json}
    {m : Member} (hm : m ∈ s.graph.members a)
    (h : ∀ l ∈ m.links, ∀ t, s.HasDetailShape l.terminal (within l.terminal t)) {f : ViewField}
    (hf : f ∈ AggregateGraph.memberDetailFields m) :
    s.FitsDetail f.kind (s.restoredField rows within e row f) := by
  -- what an edge leads to is absent or nested
  have hnested : ∀ l ∈ m.links, ∀ name default?, s.FitsDetail (.nested l.terminal.path)
      (s.restoredField rows within e row ⟨name, .nested l.terminal.path, default?⟩) := by
    intro l hl name default?
    have hnode := node?_terminal hm hl
    obtain ⟨g, hg, -⟩ := exists_entity (AggregateGraph.terminal_mem_of_mem_links hm hl)
    rw [restoredField_nested hnode hg]
    cases g.nestedRows rows e row with
    | nil => exact .absent
    | cons t ts => exact .nested hnode (h l hl t)
  cases m with
  | scalar m =>
    obtain rfl := List.mem_singleton.1 hf
    exact .value
  | child l =>
    obtain rfl := List.mem_singleton.1 hf
    exact hnested l (List.mem_singleton_self l) _ _
  | children l =>
    obtain rfl := List.mem_singleton.1 hf
    have hl : l ∈ (Member.children l).links := List.mem_singleton_self l
    have hnode := node?_terminal hm hl
    obtain ⟨g, hg, -⟩ := exists_entity (AggregateGraph.terminal_mem_of_mem_links hm hl)
    rw [restoredField_nestedList hnode hg]
    exact .nestedList hnode (List.forall_mem_map.2 fun t _ => h l hl t)
  | variation v =>
    rcases List.mem_cons.1 hf with rfl | hf
    · exact .discriminator
    · obtain ⟨x, hx, rfl⟩ := List.mem_map.1 hf
      exact hnested x.2 (List.mem_map_of_mem hx) _ _
  | reference l =>
    obtain rfl := List.mem_singleton.1 hf
    exact hs.fitsDetail_restoreReference hn (AggregateGraph.reference_mem_members.1 hm)
      (terminal_mem_of_reference_mem hm)

/-- Whatever the rows are, an instance is restored with the names of the fields of its detail. -/
theorem exists_restored_eq (hg : s.graph.IsForest) (ha : a ∈ s.graph.nodes) {levels : Nat}
    (h : s.graph.height a < levels) (rows : List Row) (row : Row) :
    ∃ fields, s.restored rows levels a row = .object fields ∧
      ∀ name, name ∈ fields.map Prod.fst ↔ name ∈ (s.graph.views a).detail.names := by
  obtain ⟨levels, rfl⟩ := Nat.exists_eq_succ_of_ne_zero (Nat.ne_zero_of_lt h)
  obtain ⟨e, he, -⟩ := exists_entity ha
  obtain ⟨fields, hfields, hnames⟩ := Json.exists_ofFields_eq ((s.graph.detailFields a).map fun f =>
    (f.name, s.restoredField rows (s.restored rows levels) e row f))
  refine ⟨fields, by rw [restored_succ hg ha h he, hfields], fun name => ?_⟩
  rw [hnames, List.map_map]
  rfl

/-- Whatever the rows are, an instance is restored in the form of its detail. -/
theorem hasDetailShape_restored (hg : s.graph.IsForest) (ha : a ∈ s.graph.nodes) {levels : Nat}
    (h : s.graph.height a < levels) (hd : s.DistinctDetails a) (row : Row) :
    s.HasDetailShape a (s.restored rows levels a row) := by
  induction levels generalizing a row with
  | zero => cases h
  | succ levels ih =>
    obtain ⟨e, he, hs⟩ := exists_entity ha
    have hn : ((s.graph.detailFields a).map ViewField.name).Nodup := hd a ha (Or.inl rfl)
    have hnested : ∀ m ∈ s.graph.members a, ∀ l ∈ m.links, ∀ t,
        s.HasDetailShape l.terminal (s.restored rows levels l.terminal t) := by
      intro m hm l hl t
      obtain ⟨hb, hlt⟩ := height_lt_of_mem_links hg ha hm hl
      exact ih hb (by omega) (hd.of_owner? hg (hg.owner?_of_mem_links ha hm hl)) t
    obtain ⟨fields, hfields, hnames⟩ := exists_restored_eq hg ha h rows row
    rw [hfields]
    refine .object hnames fun f hf v hv => ?_
    -- the field is found under its name, which no other has
    rw [← hfields, restored_succ hg ha h he] at hv
    have hnd : ((((s.graph.detailFields a).map fun f =>
        (f.name, s.restoredField rows (s.restored rows levels) e row f))).map Prod.fst).Nodup := by
      rwa [List.map_map]
    rw [Json.get?_ofFields hnd (List.mem_map_of_mem hf), Option.some.injEq] at hv
    obtain ⟨m, hm, hfm⟩ := List.mem_flatMap.1 hf
    rw [← hv]
    exact fitsDetail_restoredField hs (hn.sublist (names_sublist_detailFields s a)) hm
      (hnested m hm) hfm

theorem rootAt_eq_ok_iff {root : Path} :
    s.rootAt root = .ok a ↔ s.node? root = some a ∧ s.graph.isRoot a = true := by
  refine ⟨rootAt_eq_ok, fun ⟨ha, hr⟩ => ?_⟩
  rw [rootAt, ha]
  exact if_pos hr

/-- A read gives what the only row of the root is restored to. -/
theorem fromRows_eq_ok_iff (hg : s.graph.IsForest) {root : Path} {v : Json} :
    s.fromRows root rows = .ok v ↔ ∃ a row, s.rootAt root = .ok a ∧
      rows.filter (·.path = root) = [row] ∧ s.restored rows s.graph.nodes.length a row = v := by
  rw [fromRows, bind_eq_ok_iff]
  refine exists_congr fun a => ?_
  simp only [exists_and_left]
  refine and_congr_right fun hroot => ?_
  have ha : a ∈ s.graph.nodes := Graph.mem_of_find? (rootAt_eq_ok hroot).1
  have hrestored : ∀ row, s.instanceOf rows s.graph.nodes.length a row =
      .ok (s.restored rows s.graph.nodes.length a row) :=
    instanceOf_eq_restored hg ha (AggregateGraph.height_lt_length ha)
  cases hrows : rows.filter (·.path = root) with
  | nil => simp
  | cons row others =>
    cases others with
    | nil => simp [hrestored]
    | cons row' others => simp

/-- A read fails over its root, or if that does not have exactly one row. -/
theorem fromRows_eq_error_iff (hg : s.graph.IsForest) {root : Path} :
    (∃ failure, s.fromRows root rows = .error failure) ↔
      s.node? root = none ∨ (∃ a, s.node? root = some a ∧ s.graph.isRoot a = false) ∨
        (rows.filter (·.path = root)).length ≠ 1 := by
  have hok : (∃ failure, s.fromRows root rows = .error failure) ↔
      ¬ ∃ v, s.fromRows root rows = .ok v := by
    cases s.fromRows root rows <;> simp
  simp only [hok, fromRows_eq_ok_iff hg, rootAt_eq_ok_iff, ne_eq, List.length_eq_one_iff]
  cases s.node? root with
  | none => simp
  | some a => cases h : s.graph.isRoot a <;> simp [h]

end Schema

namespace Draft
variable {d : Draft} {base : TypeRegistry} {s : Schema}

/-- A read of any rows fails only if the path is of no root, or not exactly one row has it. What is
read has the fields of the detail of the root, and where their names are distinct at each level, it has
the form of the detail throughout. -/
theorem hasDetailShape_fromRows (h : d.resolve base = .ok s) (root : Path) (rows : List Row) :
    ((∃ failure, s.fromRows root rows = .error failure) ↔
      s.node? root = none ∨ (∃ a, s.node? root = some a ∧ s.graph.isRoot a = false) ∨
        (rows.filter (·.path = root)).length ≠ 1) ∧
    ∀ v, s.fromRows root rows = .ok v → ∃ a fields, s.node? root = some a ∧ v = .object fields ∧
      (∀ name, name ∈ fields.map Prod.fst ↔ name ∈ (s.graph.views a).detail.names) ∧
      (s.DistinctDetails a → s.HasDetailShape a v) := by
  have hg := isForest h
  refine ⟨Schema.fromRows_eq_error_iff hg, fun v hv => ?_⟩
  obtain ⟨a, row, hroot, -, rfl⟩ := (Schema.fromRows_eq_ok_iff hg).1 hv
  have hnode := (Schema.rootAt_eq_ok hroot).1
  have ha : a ∈ s.graph.nodes := Graph.mem_of_find? hnode
  have hheight := AggregateGraph.height_lt_length ha
  obtain ⟨fields, hfields, hnames⟩ := Schema.exists_restored_eq hg ha hheight rows row
  exact ⟨a, fields, hnode, hfields, hnames, fun hd =>
    Schema.hasDetailShape_restored hg ha hheight hd row⟩

/-- Orders of a customer have an address and lines with codes. -/
def deliveredOrders : Draft where
  declarations := [
    .aggregate "/Customer" none [⟨"id", "word", true, false, false⟩],
    .aggregate "/Order" none [⟨"number", "integer", true, true, false⟩],
    .reference "customer" "/Order" "/Customer" false false,
    .child "Address" "/Order" false none [⟨"street", "word", false, false, false⟩],
    .children "Line" "/Order" none [⟨"code", "word", true, false, false⟩]]
  enumerations := []

/-- One row of the root and two of everything else, all under keys of the wrong kinds. -/
def strayRows (s : Schema) (root : Path) : List Row :=
  s.graph.nodes.flatMap fun b => List.replicate (if b.path = root then 1 else 2)
    ⟨b.path, b.typeName, [("customer_id", .bool true), ("number", .string "none"),
      ("order_number", .string "none")]⟩

theorem hasDetailShape_fromRows_deliveredOrders : ∃ s a v, deliveredOrders.resolve .standard = .ok s ∧
    s.node? a.path = some a ∧ s.fromRows a.path (strayRows s a.path) = .ok v ∧
    (v.get? "Address").any Json.isObject = true ∧ (v.get? "customer").any Json.isObject = true ∧
    s.HasDetailShape a v ∧ ∃ failure, s.fromRows a.path [] = .error failure := by
  obtain ⟨s, hs, h⟩ := exists_ok_of_any (deliveredOrders.resolve .standard) (fun s => s.graph.nodes.any
    fun a => (s.fromRows a.path (strayRows s a.path)).toOption.any (fun v =>
      (v.get? "Address").any Json.isObject && (v.get? "customer").any Json.isObject) &&
      s.graph.nodes.all fun b => decide (s.graph.views b).detail.names.Nodup) (by decide +kernel)
  obtain ⟨a, ha, h⟩ := List.any_eq_true.1 h
  obtain ⟨hread, hnames⟩ := Bool.and_eq_true_iff.1 h
  obtain ⟨v, hv, hparts⟩ := exists_ok_of_any _ _ hread
  obtain ⟨haddress, hcustomer⟩ := Bool.and_eq_true_iff.1 hparts
  have hnode : s.node? a.path = some a := s.graph.node?_id ha
  have hd : s.DistinctDetails a := fun b hb _ => of_decide_eq_true (List.all_eq_true.1 hnames b hb)
  obtain ⟨b, fields, hb, -, -, hshape⟩ := (hasDetailShape_fromRows hs a.path _).2 v hv
  obtain rfl : b = a := Option.some.inj (hb.symm.trans hnode)
  exact ⟨s, b, v, hs, hnode, hv, haddress, hcustomer, hshape hd,
    (hasDetailShape_fromRows hs b.path []).1.2 (Or.inr (Or.inr (by simp)))⟩

end Draft

end AggregateSchema
