import AggregateSchema.Proofs.Restored

/-! What is stored is restored. -/
namespace AggregateSchema

namespace Schema
variable {s : Schema} {a : Aggregate} {e : Entity} {levels : Nat} {given : Json} {p : Placement}
  {row : Row} {nests : List Nest}

theorem IsStored.get_eq (hst : s.IsStored levels a given p e row nests) {c : Column}
    (hc : c ∈ e.allColumns) (hi : c.inherited = false) :
    row.get c.name = c.givenValue given (p.position?.getD 0) := by
  rw [hst.value c hc, Placement.value_of_not_inherited hi]

theorem IsStored.get_scalar (hst : s.IsStored levels a given p e row nests) {m : Scalar}
    (hm : .scalar m ∈ s.graph.members a) : row.get m.name = given.getD m.name := by
  have hc : Column.ofScalar a.typeName m ∈ e.allColumns := by
    apply hst.isEntity.mem_allColumns_of_member hm
    rw [columns_of_scalar]
    exact List.mem_singleton_self _
  exact hst.get_eq hc rfl

theorem IsStored.get_discriminator (hst : s.IsStored levels a given p e row nests)
    {v : VariationGroup} (hm : .variation v ∈ s.graph.members a) :
    row.get v.name = given.getD v.name := by
  have hc : Column.discriminator a.typeName v ∈ e.allColumns :=
    hst.isEntity.mem_allColumns_of_member hm (List.mem_singleton_self _)
  exact hst.get_eq hc rfl

/-- The key of a reference is restored if no other reference has its name. -/
theorem IsStored.restoreReference_eq (hst : s.IsStored levels a given p e row nests)
    (hn : ((s.graph.referenceLinks a).map (·.name)).Nodup) {l : Link}
    (hm : .reference l ∈ s.graph.members a) :
    e.restoreReference row l.name = s.canonicalKey l.terminal (given.getD l.name) := by
  have hcolumns := hst.isEntity.referenceColumns_eq hn (AggregateGraph.reference_mem_members.1 hm)
  have hvalue : ∀ x ∈ e.referenceColumns l.name, row.get x.1.name =
      (((given.getD l.name).get? "key").bind (·.get? x.2)).getD .null := by
    rintro ⟨c, target⟩ hx
    obtain ⟨hc, hi, path, hr⟩ := Entity.mem_referenceColumns.1 hx
    rw [hst.get_eq hc hi]
    simp [Column.givenValue, hr]
  have hparts : ((e.referenceColumns l.name).map fun x => (x.2, row.get x.1.name)) =
      (s.keysOf l.terminal).map fun k =>
        (k.name, (((given.getD l.name).get? "key").bind (·.get? k.name)).getD .null) := by
    rw [List.map_congr_left fun x hx => by rw [hvalue x hx], hcolumns, List.map_map]
    rfl
  unfold Entity.restoreReference canonicalKey
  rw [hparts]

theorem restoreFirst_eq_ok {restore : Row → Except Failure Json} {rs : List Row} {v : Json}
    (h : rs.mapM restore = .ok [v]) : restoreFirst restore rs = .ok v := by
  obtain ⟨r, rfl, hr⟩ := exists_of_mapM_eq_singleton h
  exact hr

section
variable {rows : List Row} {restore : Aggregate → Row → Except Failure Json}
  {within : Aggregate → Json → Json}

/-- The parts to which an edge leads are restored from the rows that are found for it. -/
theorem IsStored.exists_nestedRows (hg : s.graph.IsForest) (ha : a ∈ s.graph.nodes)
    (hst : s.IsStored levels a given p e row nests)
    (h : s.IsAmong (levels + 1) a given row (row :: nests.flatMap Nest.rows) rows)
    (hn : ∀ n ∈ nests, restore n.part.aggregate n.row = .ok (within n.part.aggregate n.part.given))
    {m : Member} (hm : m ∈ s.graph.members a) {l : Link} (hl : l ∈ m.links) :
    ∃ rs parts, s.nestedRows rows e row l.terminal = .ok rs ∧ PartsOf given m l parts ∧
      rs.mapM (restore l.terminal) = .ok (parts.map fun q => within l.terminal q.given) := by
  have hb := AggregateGraph.terminal_mem_of_mem_links hm hl
  obtain ⟨f, hf, hfs⟩ := exists_entity hb
  refine ⟨f.nestedRows rows e row, _, ?_, hst.partsOf hg hm hl, ?_⟩
  · exact bind_eq_ok_iff.2 ⟨f, by rw [entityOf, hf], rfl⟩
  · rw [hst.nestedRows_eq hg ha h hm hl hf hfs, mapM_eq_ok_iff, List.map_map,
      List.forall₂_map_left_iff, List.forall₂_map_right_iff, List.forall₂_same]
    intro n hmem
    obtain ⟨hmem, he⟩ := List.mem_filter.1 hmem
    have hnb : n.part.aggregate = l.terminal :=
      s.graph.eq_of_id_eq (hst.owner? hg ha hmem).1 hb (of_decide_eq_true he)
    exact hnb ▸ hn n hmem

/-- Each member is restored to its fields of the detail. -/
theorem IsStored.restoreMember_eq (hg : s.graph.IsForest) (ha : a ∈ s.graph.nodes)
    (hst : s.IsStored levels a given p e row nests)
    (h : s.IsAmong (levels + 1) a given row (row :: nests.flatMap Nest.rows) rows)
    (hn : ∀ n ∈ nests, restore n.part.aggregate n.row = .ok (within n.part.aggregate n.part.given))
    {m : Member} (hm : m ∈ s.graph.members a) :
    s.restoreMember rows restore e row m =
      .ok ((AggregateGraph.memberDetailFields m).map fun f =>
        (f.name, s.canonicalField within given f)) := by
  have hnested := fun {l : Link} (hl : l ∈ m.links) => hst.exists_nestedRows hg ha h hn hm hl
  cases m with
  | scalar m =>
    rw [restoreMember, hst.get_scalar hm]
    rfl
  | reference l =>
    have hnode := node?_path (terminal_mem_of_reference_mem hm)
    rw [restoreMember, hst.restoreReference_eq (h.references a ha (Or.inl rfl)) hm]
    rw [AggregateGraph.memberDetailFields, List.map_singleton, canonicalField_keyAndText hnode]
  | child l =>
    have hnode := node?_terminal hm (List.mem_singleton_self l)
    obtain ⟨rs, parts, hrs, hparts, hmap⟩ := hnested (List.mem_singleton_self l)
    cases hparts
    refine bind_eq_ok_iff.2 ⟨rs, hrs, bind_eq_ok_iff.2 ⟨_, restoreFirst_eq_ok hmap, ?_⟩⟩
    rw [AggregateGraph.memberDetailFields, List.map_singleton, canonicalField_nested hnode]
    rfl
  | children l =>
    have hnode := node?_terminal hm (List.mem_singleton_self l)
    obtain ⟨rs, parts, hrs, hparts, hmap⟩ := hnested (List.mem_singleton_self l)
    cases hparts
    refine bind_eq_ok_iff.2 ⟨rs, hrs, bind_eq_ok_iff.2 ⟨_, hmap, ?_⟩⟩
    rw [AggregateGraph.memberDetailFields, List.map_singleton, canonicalField_nestedList hnode,
      Member.map_parts_children]
    rfl
  | variation v =>
    let field (l : Link) := variantFieldName v.name l.terminal.path
    refine bind_eq_ok_iff.2 ⟨v.variants.map fun x =>
      (field x.2, within x.2.terminal (given.getD (field x.2))), mapM_eq_ok_map fun x hx => ?_, ?_⟩
    · obtain ⟨rs, parts, hrs, hparts, hmap⟩ := hnested (List.mem_map_of_mem hx)
      cases hparts
      exact bind_eq_ok_iff.2 ⟨rs, hrs, bind_eq_ok_iff.2 ⟨_, restoreFirst_eq_ok hmap, rfl⟩⟩
    · have hvariants : (v.variants.map fun x =>
          (field x.2, within x.2.terminal (given.getD (field x.2)))) =
          v.variants.map fun x => (field x.2, s.canonicalField within given
            ⟨field x.2, .nested x.2.terminal.path, none⟩) := by
        apply List.map_congr_left
        intro x hx
        rw [canonicalField_nested (node?_terminal hm (List.mem_map_of_mem hx))]
      rw [hst.get_discriminator hm, hvariants, AggregateGraph.memberDetailFields, List.map_cons,
        List.map_map]
      rfl

end

/-- An instance is restored from its own row, among rows from which its rows can be told apart. -/
theorem instanceOf_eq (hg : s.graph.IsForest) (ha : a ∈ s.graph.nodes) {field : String}
    {rest rows : List Row} (h : s.rowsOf levels a given p field = .ok (row :: rest))
    (hamong : s.IsAmong levels a given row (row :: rest) rows) :
    s.instanceOf rows levels a row = .ok (s.canonicalWithin levels a given) := by
  -- All rows are searched at every level, so that they do not change in the induction.
  induction levels generalizing a given p field row rest with
  | zero => cases h
  | succ levels ih =>
    obtain ⟨e, row', nests, hrows, hst⟩ := rowsOf_eq_ok ha h
    obtain ⟨rfl, rfl⟩ := List.cons.inj hrows
    have hn : ∀ n ∈ nests, s.instanceOf rows levels n.part.aggregate n.row =
        .ok (s.canonicalWithin levels n.part.aggregate n.part.given) := by
      intro n hn
      obtain ⟨hb, -⟩ := hst.owner? hg ha hn
      obtain ⟨field, hf⟩ := hst.stored n hn
      exact ih hb hf (hst.isAmong hg ha hamong hn)
    rw [instanceOf]
    refine bind_eq_ok_iff.2 ⟨e, by rw [entityOf, hst.entity], ?_⟩
    refine bind_eq_ok_iff.2
      ⟨_, mapM_eq_ok_map fun m hm => hst.restoreMember_eq hg ha hamong hn hm, ?_⟩
    rw [canonicalWithin, AggregateGraph.detailFields, List.map_flatMap, List.flatMap]
    rfl

theorem rootAt_eq_ok {root : Path} (h : s.rootAt root = .ok a) :
    s.node? root = some a ∧ s.graph.isRoot a = true := by
  unfold rootAt at h
  split at h
  · cases h
  · split at h
    · rename_i ha hr
      obtain rfl := Except.ok.inj h
      exact ⟨ha, hr⟩
    · cases h

/-- An instance is stored in a row of the root, and in rows below it. -/
theorem toRows_eq_ok (hg : s.graph.IsForest) {root : Path} {rows : List Row}
    (hw : s.toRows root given = .ok rows) :
    ∃ a ∈ s.graph.nodes, a.path = root ∧ s.rootAt root = .ok a ∧ ∃ field row rest,
      rows = row :: rest ∧
      s.rowsOf s.graph.nodes.length a given ⟨none, none⟩ field = .ok (row :: rest) ∧
      rows.filter (·.path = root) = [row] := by
  obtain ⟨a, hroot, hw⟩ := bind_eq_ok_iff.1 hw
  obtain ⟨inner, hi, h⟩ := bind_eq_ok_iff.1 hw
  obtain rfl := expectObject_eq_ok hi
  obtain ⟨hnode, -⟩ := rootAt_eq_ok hroot
  have ha : a ∈ s.graph.nodes := Graph.mem_of_find? hnode
  have hp : a.path = root := Graph.id_of_find? hnode
  obtain ⟨row, rest, rfl⟩ := exists_row_of_rowsOf h
  refine ⟨a, ha, hp, hroot, _, row, rest, rfl, h, ?_⟩
  have hrest : rest.filter (·.path = root) = [] := by
    apply List.filter_eq_nil_iff.2
    intro t ht he
    have hlt := Path.length_lt_of_isBelow (path_and_key_of_mem hg ha h t ht).1
    rw [of_decide_eq_true he, hp] at hlt
    exact absurd hlt (Nat.lt_irrefl _)
  rw [List.filter_cons_of_pos (by simp [(rowsOf_cons ha h).1, hp]), hrest]

theorem rowsOf_of_toRows (hg : s.graph.IsForest) {root : Path} (ha : s.node? root = some a)
    {rows : List Row} (hw : s.toRows root given = .ok rows) :
    s.rootAt root = .ok a ∧ ∃ field row rest, rows = row :: rest ∧
      s.rowsOf s.graph.nodes.length a given ⟨none, none⟩ field = .ok (row :: rest) ∧
      rows.filter (·.path = root) = [row] := by
  obtain ⟨b, -, -, hroot, h⟩ := toRows_eq_ok hg hw
  obtain rfl : b = a := Option.some.inj ((rootAt_eq_ok hroot).1.symm.trans ha)
  exact ⟨hroot, h⟩

/-- An instance is restored from rows that have its own row as the only one of the root. -/
theorem fromRows_eq (hg : s.graph.IsForest) (ha : a ∈ s.graph.nodes) {root : Path}
    (hroot : s.rootAt root = .ok a) {field : String} {rest rows : List Row}
    (h : s.rowsOf s.graph.nodes.length a given p field = .ok (row :: rest))
    (hrow : rows.filter (·.path = root) = [row])
    (hamong : s.IsAmong s.graph.nodes.length a given row (row :: rest) rows) :
    s.fromRows root rows = .ok (s.canonical a given) := by
  refine bind_eq_ok_iff.2 ⟨a, hroot, ?_⟩
  rw [hrow]
  exact instanceOf_eq hg ha h hamong

end Schema

namespace Draft
variable {d : Draft} {base : TypeRegistry} {s : Schema}

/-- An instance that is stored is restored in full, if no two references of one aggregate have one
name, and no two items of one list have one key. Where all lists have positions, the rows may come in
any order. -/
theorem fromRows_toRows (h : d.resolve base = .ok s) {root : Path} {a : Aggregate}
    (ha : s.node? root = some a) (hr : s.DistinctReferences a) {given : Json}
    (hd : s.DistinctItems a given) {rows : List Row} (hw : s.toRows root given = .ok rows) :
    s.fromRows root rows = .ok (s.canonical a given) ∧
      (s.Sequenced a → s.ListsFit a given → ∀ rows' : List Row, rows'.Perm rows →
        s.fromRows root rows' = .ok (s.canonical a given)) := by
  have hg := isForest h
  obtain ⟨b, hb, -, hroot, field, row, rest, rfl, hrows, hrow⟩ := Schema.toRows_eq_ok hg hw
  obtain rfl : b = a := Option.some.inj ((Schema.rootAt_eq_ok hroot).1.symm.trans ha)
  constructor
  · refine Schema.fromRows_eq hg hb hroot hrows hrow ⟨hr, hd, ⟨[], ?_, ?_⟩, Or.inl (List.Sublist.refl _)⟩
    · rw [List.append_nil]
    · exact fun t ht => (nomatch ht)
  · intro hseq hfit rows' hp
    refine Schema.fromRows_eq hg hb hroot hrows ?_ ⟨hr, hd, ⟨[], ?_, ?_⟩, Or.inr ⟨hseq, hfit⟩⟩
    · have hone := hp.filter (·.path = root)
      rw [hrow] at hone
      exact hone.eq_singleton
    · rwa [List.append_nil]
    · exact fun t ht => (nomatch ht)

/-- An order with two lines, paid by card. -/
def order : Json := .ofFields [
  ("number", .integer 1),
  ("customer", .ofFields [("key", .ofFields [("id", .string "c1")])]),
  ("Address", .ofFields [("street", .string "High Street")]),
  ("Line", .array [.ofFields [("text", .string "first")], .ofFields [("text", .string "second")]]),
  ("payment", .integer 1),
  ("payment_Card", .ofFields [("holder", .string "H")])]

theorem fromRows_toRows_orders : ∃ s a rows, orders.resolve .standard = .ok s ∧ a ∈ s.graph.nodes ∧
    s.toRows a.path order = .ok rows ∧ rows.length = 6 ∧
      s.fromRows a.path rows = .ok (s.canonical a order) ∧
      s.fromRows a.path rows.reverse = .ok (s.canonical a order) := by
  obtain ⟨s, hs, h⟩ := exists_ok_of_any (orders.resolve .standard) (fun s => s.graph.nodes.any
    fun a => s.DistinctReferences a ∧ s.DistinctItems a order ∧ s.Sequenced a ∧ s.ListsFit a order ∧
      (s.toRows a.path order).toOption.any (·.length = 6)) (by decide +kernel)
  obtain ⟨a, ha, h⟩ := List.any_eq_true.1 h
  obtain ⟨hr, hd, hseq, hfit, hrows⟩ := of_decide_eq_true h
  obtain ⟨rows, hw, hlen⟩ := exists_ok_of_any _ _ hrows
  obtain ⟨hsame, hany⟩ := fromRows_toRows hs (Schema.node?_path ha) hr hd hw
  exact ⟨s, a, rows, hs, ha, hw, of_decide_eq_true hlen, hsame,
    hany hseq hfit rows.reverse (List.reverse_perm rows)⟩

/-- Two references of one root that share a name, and with it the columns that they are read from. -/
def sharedName : Draft where
  declarations := [
    .aggregate "/B" none [⟨"id", "word", true, false, false⟩],
    .aggregate "/C" none [⟨"code", "word", true, false, false⟩],
    .aggregate "/A" none [⟨"id", "word", true, false, false⟩],
    .reference "r" "/A" "/B" false false,
    .reference "r" "/A" "/C" false false]
  enumerations := []

/-- The key given under the shared name is restored with the key columns of both targets. -/
theorem not_fromRows_toRows_of_draft : ∃ s a given rows, sharedName.resolve .standard = .ok s ∧
    a ∈ s.graph.nodes ∧
      (∀ b ∈ s.graph.nodes, a ∈ s.graph.ancestors b →
        ((s.graph.detailFields b).map ViewField.name).Nodup) ∧
      s.DistinctItems a given ∧ s.toRows a.path given = .ok rows ∧
        s.fromRows a.path rows ≠ .ok (s.canonical a given) := by
  let given : Json := .ofFields [("id", .string "1"),
    ("r", .ofFields [("key", .ofFields [("id", .string "b"), ("code", .string "c")])])]
  obtain ⟨s, hs, h⟩ := exists_ok_of_any (sharedName.resolve .standard) (fun s => s.graph.nodes.any
    fun a => (∀ b ∈ s.graph.nodes, a ∈ s.graph.ancestors b →
        ((s.graph.detailFields b).map ViewField.name).Nodup) ∧ s.DistinctItems a given ∧
      (s.toRows a.path given).toOption.any fun rows =>
        (s.fromRows a.path rows).toOption.any fun v => v.same (s.canonical a given) = false)
    (by decide +kernel)
  obtain ⟨a, ha, h⟩ := List.any_eq_true.1 h
  obtain ⟨hb, hd, hrows⟩ := of_decide_eq_true h
  obtain ⟨rows, hw, hv⟩ := exists_ok_of_any _ _ hrows
  obtain ⟨v, hr, hne⟩ := exists_ok_of_any _ _ hv
  refine ⟨s, a, given, rows, hs, ha, hb, hd, hw, fun he => ?_⟩
  obtain rfl : v = s.canonical a given := Except.ok.inj (hr.symm.trans he)
  rw [Json.same_refl] at hne
  exact absurd hne (by decide)

end Draft

end AggregateSchema
