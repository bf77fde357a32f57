import AggregateSchema.Proofs.Integrity

/-! The rows of an instance have distinct keys just if the items of each of its lists do. -/
namespace AggregateSchema

namespace Schema
variable {s : Schema} {a b c : Aggregate} {e : Entity}

/-- Rows of one table that have the same value in every column of its key. -/
def SameKey (s : Schema) (r t : Row) : Prop :=
  r.table = t.table ∧
    ∀ e ∈ s.entity? r.path, ∀ k ∈ e.keys, (r.get k.name).same (t.get k.name) = true

/-- No two rows of one table have one key. -/
def HaveDistinctKeys (s : Schema) (rows : List Row) : Prop :=
  rows.Pairwise fun r t => ¬ s.SameKey r t

instance (s : Schema) (r t : Row) : Decidable (s.SameKey r t) :=
  inferInstanceAs (Decidable (_ ∧ ∀ e ∈ s.entity? r.path, _))

instance (s : Schema) (rows : List Row) : Decidable (s.HaveDistinctKeys rows) :=
  inferInstanceAs (Decidable (List.Pairwise _ _))

/-- A row of the table of an aggregate. -/
structure IsRowOf (s : Schema) (r : Row) (a : Aggregate) : Prop where
  node : a ∈ s.graph.nodes
  path : r.path = a.path
  table : r.table = a.typeName

/-- Rows of two tables have no key in common, and those of one table are told apart by it. -/
theorem IsRowOf.not_sameKey_iff (hg : s.graph.IsForest) {r t : Row} (hr : s.IsRowOf r b)
    (ht : s.IsRowOf t c) : ¬ s.SameKey r t ↔ (b = c → s.Apart b r t) := by
  obtain ⟨e, he, hs⟩ := exists_entity hr.node
  have htable : r.table = t.table ↔ b = c := by
    rw [hr.table, ht.table]
    exact ⟨eq_of_typeName_eq hr.node ht.node, congrArg _⟩
  have hvalue : ∀ k ∈ s.keysOf b, b = c → ((s.valueAt r k.origin).same (s.valueAt t k.origin) =
      (r.get k.name).same (t.get k.name)) := by
    rintro k hk rfl
    rw [valueAt_of_mem_keysOf hg hr.node hr.path hk, valueAt_of_mem_keysOf hg hr.node ht.path hk]
  rw [SameKey, htable, not_and]
  refine forall_congr' fun hbc => ?_
  simp only [hr.path, he, Option.mem_def, Option.some.injEq, forall_eq', keys_of_entity? he, Apart,
    not_forall, Bool.not_eq_true, exists_prop]
  exact exists_congr fun k => and_congr_right fun hk => by rw [hvalue k hk hbc]

theorem isRowOf_of_rowsOf (ha : a ∈ s.graph.nodes) {levels : Nat} {given : Json} {p : Placement}
    {field : String} {row : Row} {rest : List Row}
    (h : s.rowsOf levels a given p field = .ok (row :: rest)) : s.IsRowOf row a := by
  obtain ⟨e, values, he, -, hrow⟩ := exists_values_of_rowsOf h
  refine ⟨ha, (rowsOf_cons ha h).1, ?_⟩
  rw [hrow]
  exact (isEntityOf_of_entity? ha he).table

/-- The rows of an instance are of its aggregate or of those that it owns. -/
theorem exists_isRowOf_of_mem (hg : s.graph.IsForest) {levels : Nat} (ha : a ∈ s.graph.nodes)
    {given : Json} {p : Placement} {field : String} {rows : List Row}
    (h : s.rowsOf levels a given p field = .ok rows) :
    ∀ t ∈ rows, ∃ b, s.IsRowOf t b ∧ (b = a ∨ a ∈ s.graph.ancestors b) := by
  induction levels generalizing a given p field rows with
  | zero => cases h
  | succ levels ih =>
    obtain ⟨e, row, nests, rfl, hst⟩ := rowsOf_eq_ok ha h
    intro t ht
    rcases List.mem_cons.1 ht with rfl | ht
    · exact ⟨a, isRowOf_of_rowsOf ha h, Or.inl rfl⟩
    · obtain ⟨n, hn, ht⟩ := List.mem_flatMap.1 ht
      obtain ⟨hb, hbo⟩ := hst.owner? hg ha hn
      obtain ⟨field', hf⟩ := hst.stored n hn
      obtain ⟨b, hrow, hbelow⟩ := ih hb hf t ht
      exact ⟨b, hrow, Or.inr (mem_ancestors_of_owner? hg hrow.node hbo hbelow)⟩

section
variable {levels : Nat} {given : Json} {p : Placement} {row : Row} {nests : List Nest}

/-- The own rows of two parts of one aggregate are apart if the parts differ: what they inherit is the
same. -/
theorem IsStored.apart_iff (hg : s.graph.IsForest) (ha : a ∈ s.graph.nodes)
    (hst : s.IsStored levels a given p e row nests) {n n' : Nest} (hn : n ∈ nests)
    (hn' : n' ∈ nests) (he : n.part.aggregate = n'.part.aggregate) :
    s.Apart n.part.aggregate n.row n'.row ↔ n.part.Differs s n'.part := by
  obtain ⟨hb, hbo⟩ := hst.owner? hg ha hn
  obtain ⟨hb', hbo'⟩ := hst.owner? hg ha hn'
  have hown : ∀ k ∈ s.ownKeys n.part.aggregate,
      (s.valueAt n.row k.origin).same (s.valueAt n'.row k.origin) =
        (k.givenValue n.part.given n.part.index).same
          (k.givenValue n'.part.given n'.part.index) := by
    intro k hk
    rw [hst.valueAt_ownKey hg ha hn hk, hst.valueAt_ownKey hg ha hn' (he ▸ hk)]
  constructor
  · rintro ⟨k, hk, hsame⟩
    rw [keysOf_eq hb, List.mem_append, inheritedKeys_of_owner? hbo] at hk
    rcases hk with hk | hk
    · obtain ⟨k, hi, rfl⟩ := List.mem_map.1 hk
      rw [Column.origin_inherit,
        Nest.valueAt_eq hg ha hst.path hst.isEntity (hst.stored n hn) hb hbo hi,
        Nest.valueAt_eq hg ha hst.path hst.isEntity (hst.stored n' hn') hb' hbo' hi,
        Json.same_refl] at hsame
      cases hsame
    · exact ⟨k, hk, (hown k hk).symm.trans hsame⟩
  · rintro ⟨k, hk, hsame⟩
    exact ⟨k, mem_keysOf_of_mem_ownKeys hb hk, (hown k hk).trans hsame⟩

/-- No row of one part has the key of a row of another one, unless the two are of one aggregate and do
not differ. -/
theorem IsStored.not_sameKey_iff (hg : s.graph.IsForest) (ha : a ∈ s.graph.nodes)
    (hst : s.IsStored levels a given p e row nests) {n n' : Nest} (hn : n ∈ nests)
    (hn' : n' ∈ nests) : (∀ r ∈ n.rows, ∀ t ∈ n'.rows, ¬ s.SameKey r t) ↔
      (n.part.aggregate = n'.part.aggregate → n.part.Differs s n'.part) := by
  obtain ⟨hb, hbo⟩ := hst.owner? hg ha hn
  obtain ⟨hb', hbo'⟩ := hst.owner? hg ha hn'
  have hrows : ∀ n ∈ nests, ∀ t ∈ n.rows, ∃ c, s.IsRowOf t c ∧
      (c = n.part.aggregate ∨ n.part.aggregate ∈ s.graph.ancestors c) := by
    intro n hn
    obtain ⟨field, hf⟩ := hst.stored n hn
    exact exists_isRowOf_of_mem hg (hst.owner? hg ha hn).1 hf
  constructor
  · intro h he
    obtain ⟨field, hf⟩ := hst.stored n hn
    obtain ⟨field', hf'⟩ := hst.stored n' hn'
    have hrow := isRowOf_of_rowsOf hb hf
    have hrow' := isRowOf_of_rowsOf hb' hf'
    have := (hrow.not_sameKey_iff hg hrow').1 (h _ List.mem_cons_self _ List.mem_cons_self) he
    exact (hst.apart_iff hg ha hn hn' he).1 this
  · intro h r hr t ht
    obtain ⟨c, hc, hcn⟩ := hrows n hn r hr
    obtain ⟨c', hc', hcn'⟩ := hrows n' hn' t ht
    refine (hc.not_sameKey_iff hg hc').2 fun hcc => ?_
    subst hcc
    -- Both parts are of the aggregate through which the owner leads to the rows.
    have hpath := (hst.path_of_mem_rows hg ha hn hr).1
    have hpath' := (hst.path_of_mem_rows hg ha hn' ht).1
    rw [hc.path] at hpath
    rw [hc'.path] at hpath'
    have he : n.part.aggregate = n'.part.aggregate := s.graph.eq_of_id_eq hb hb'
      (Path.eq_of_isBelow (hg.parent?_of_owner? hbo) (hg.parent?_of_owner? hbo') hpath hpath')
    obtain ⟨k, hk, hsame⟩ := (hst.apart_iff hg ha hn hn' he).2 (h he)
    obtain ⟨d, hd, ho⟩ := exists_mem_keysOf_of_origin hg hc.node hcn hk
    refine ⟨d, hd, ?_⟩
    rw [ho, (hst.path_of_mem_rows hg ha hn hr).2 k hk,
      (hst.path_of_mem_rows hg ha hn' ht).2 k (he ▸ hk)]
    exact hsame

end

/-- The items of all lists of an instance differ if no two of its parts are of one aggregate and do not
differ. -/
theorem pairwise_parts_iff (hg : s.graph.IsForest) (given : Json) :
    ((s.graph.members a).flatMap (Member.parts given)).Pairwise
        (fun p q => p.aggregate = q.aggregate → p.Differs s q) ↔
      ∀ m ∈ s.graph.members a, m.ItemsDiffer s given := by
  have hnodup := List.nodup_flatMap.1 (hg.nodup_terminals a)
  have hlinks : ∀ {m : Member} {p : Part}, p ∈ m.parts given →
      p.aggregate.path ∈ m.links.map (·.terminal.path) := by
    intro m p hp
    obtain ⟨l, hl, he⟩ := exists_link_of_mem_parts hp
    exact he ▸ List.mem_map_of_mem hl
  have hmembers : (s.graph.members a).Pairwise fun m m' => ∀ p ∈ m.parts given,
      ∀ q ∈ m'.parts given, p.aggregate = q.aggregate → p.Differs s q := by
    refine hnodup.2.imp fun {m m'} hdisjoint p hp q hq he => ?_
    exact absurd (hlinks hq) (hdisjoint (he ▸ hlinks hp))
  rw [List.pairwise_flatMap, and_iff_left hmembers]
  refine forall₂_congr fun m hm => ?_
  cases m with
  | children l =>
    refine List.Pairwise.iff_of_mem fun {p q} hp hq => ?_
    obtain ⟨x, -, rfl⟩ := List.mem_map.1 hp
    obtain ⟨y, -, rfl⟩ := List.mem_map.1 hq
    exact forall_prop_of_true rfl
  | variation v =>
    have htags : (v.variants.map (·.2.terminal.path)).Nodup := by
      simpa [Member.links, Function.comp_def] using hnodup.1 _ hm
    refine iff_of_true ?_ trivial
    rw [Member.parts, List.pairwise_map]
    exact (List.pairwise_map.1 htags).imp fun hne he => absurd (congrArg Aggregate.path he) hne
  | child l => exact iff_of_true (List.pairwise_singleton _ _) trivial
  | _ => exact iff_of_true List.Pairwise.nil trivial

/-- An instance has distinct keys if the items of all lists differ, at whatever depth. -/
theorem haveDistinctKeys_iff (hg : s.graph.IsForest) {levels : Nat} (ha : a ∈ s.graph.nodes)
    {given : Json} {p : Placement} {field : String} {rows : List Row}
    (h : s.rowsOf levels a given p field = .ok rows) : s.HaveDistinctKeys rows ↔
      s.Everywhere (fun b v => ∀ m ∈ s.graph.members b, m.ItemsDiffer s v) levels a given := by
  induction levels generalizing a given p field rows with
  | zero => cases h
  | succ levels ih =>
    obtain ⟨e, row, nests, rfl, hst⟩ := rowsOf_eq_ok ha h
    have hrow := isRowOf_of_rowsOf ha h
    -- The tables of what is nested are not that of the instance.
    have hfirst : ∀ t ∈ nests.flatMap Nest.rows, ¬ s.SameKey row t := by
      intro t ht
      obtain ⟨b, hb, -⟩ := exists_isRowOf_of_mem hg ha h t (List.mem_cons_of_mem _ ht)
      refine (hrow.not_sameKey_iff hg hb).2 fun hab => ?_
      have hlt := Path.length_lt_of_isBelow (path_and_key_of_mem hg ha h t ht).1
      rw [hb.path, ← hab] at hlt
      exact absurd hlt (Nat.lt_irrefl _)
    have hnested : ∀ n ∈ nests, s.HaveDistinctKeys n.rows ↔
        s.Everywhere (fun b v => ∀ m ∈ s.graph.members b, m.ItemsDiffer s v) levels
          n.part.aggregate n.part.given := by
      intro n hn
      obtain ⟨field', hf⟩ := hst.stored n hn
      exact ih (hst.owner? hg ha hn).1 hf
    have hcross : nests.Pairwise (fun n n' => ∀ r ∈ n.rows, ∀ t ∈ n'.rows, ¬ s.SameKey r t) ↔
        ∀ m ∈ s.graph.members a, m.ItemsDiffer s given := by
      rw [← pairwise_parts_iff hg, ← hst.parts, List.pairwise_map]
      exact List.Pairwise.iff_of_mem fun hn hn' => hst.not_sameKey_iff hg ha hn hn'
    rw [HaveDistinctKeys, List.pairwise_cons, and_iff_right hfirst, List.pairwise_flatMap, hcross,
      and_comm, Everywhere, ← hst.parts, List.forall_mem_map]
    exact and_congr_right fun _ => forall₂_congr hnested

/-- Positions tell the items of a list apart. -/
theorem Sequenced.itemsDiffer (hg : s.graph.IsForest) (ha : a ∈ s.graph.nodes)
    (h : s.Sequenced a) {m : Member} (hm : m ∈ s.graph.members a) (given : Json) :
    m.ItemsDiffer s given := by
  cases m with
  | children l =>
    have hl : l ∈ (Member.children l).links := List.mem_singleton_self l
    obtain ⟨f, hf, hfs⟩ := exists_entity (AggregateGraph.terminal_mem_of_mem_links hm hl)
    obtain ⟨k, hk⟩ := h.exists_column hg ha hm hl (isRepeated_of_children_mem hg hm) hf
    obtain ⟨-, hown, -⟩ := hfs.eq_sequence hk
    refine (pairwise_index_children given l).imp_of_mem fun {p q} hp _ hlt => ?_
    have hne : ((p.index : Int) == q.index) = false := beq_eq_false_iff_ne.2 (by omega)
    obtain ⟨x, -, rfl⟩ := List.mem_map.1 hp
    refine ⟨Column.sequence l.terminal.typeName, hown ▸ List.mem_singleton_self _, ?_⟩
    simpa [Column.givenValue, Column.sequence, Json.ofNat, Json.same] using hne
  | _ => trivial

theorem Sequenced.everywhere (hg : s.graph.IsForest) (ha : a ∈ s.graph.nodes)
    (h : s.Sequenced a) (levels : Nat) (given : Json) :
    s.Everywhere (fun b v => ∀ m ∈ s.graph.members b, m.ItemsDiffer s v) levels a given := by
  induction levels generalizing a given with
  | zero => trivial
  | succ levels ih =>
    refine ⟨fun m hm => h.itemsDiffer hg ha hm given, fun p hp => ?_⟩
    obtain ⟨hb, hbo⟩ := owner?_of_mem_parts hg ha hp
    exact ih hb (h.of_owner? hg hbo) p.given

end Schema

namespace Draft
variable {d : Draft} {base : TypeRegistry} {s : Schema}

/-- An instance is stored under distinct keys exactly if no two items of one of its lists have one key of
their own, and so always if all lists have positions. -/
theorem haveDistinctKeys_toRows_iff (h : d.resolve base = .ok s) {root : Path} {a : Aggregate}
    (ha : s.node? root = some a) {given : Json} {rows : List Row}
    (hw : s.toRows root given = .ok rows) :
    (s.HaveDistinctKeys rows ↔ s.DistinctItems a given) ∧
      (s.Sequenced a → s.HaveDistinctKeys rows) := by
  have hg := isForest h
  have hb := Graph.mem_of_find? ha
  obtain ⟨-, field, row, rest, rfl, hrows, -⟩ := Schema.rowsOf_of_toRows hg ha hw
  have hiff := Schema.haveDistinctKeys_iff hg hb hrows
  exact ⟨hiff, fun hseq => hiff.2 (hseq.everywhere hg hb _ given)⟩

/-- Lines that have a code as their key. -/
def codedLines : Draft where
  declarations := [
    .aggregate "/Order" none [⟨"number", "integer", true, false, true⟩],
    .children "Line" "/Order" none [⟨"code", "word", true, false, true⟩]]
  enumerations := []

/-- Such lines with entries, which have no key. -/
def codedEntries : Draft where
  declarations := codedLines.declarations ++
    [.children "Entry" "/Order/Line" none [⟨"text", "sentence", false, false, false⟩]]
  enumerations := []

/-- An order with two lines of the given codes. -/
def codedOrder (first second : String) : Json := .ofFields [
  ("number", .integer 1),
  ("Line", .array [.ofFields [("code", .string first)], .ofFields [("code", .string second)]])]

/-- An order with two lines of different codes, the first of which has two entries. -/
def entriesOrder : Json := .ofFields [
  ("number", .integer 1),
  ("Line", .array [
    .ofFields [("code", .string "a"), ("Entry", .array [.ofFields [("text", .string "x")], .null])],
    .ofFields [("code", .string "b")]])]

theorem haveDistinctKeys_toRows_codedEntries : ∃ s a rows,
    codedEntries.resolve .standard = .ok s ∧ s.node? a.path = some a ∧
      s.toRows a.path entriesOrder = .ok rows ∧ rows.length = 5 ∧
      s.DistinctItems a entriesOrder ∧ s.HaveDistinctKeys rows := by
  obtain ⟨s, hs, h⟩ := exists_ok_of_any (codedEntries.resolve .standard) (fun s =>
    s.graph.nodes.any fun a => s.DistinctItems a entriesOrder ∧
      (s.toRows a.path entriesOrder).toOption.any (·.length = 5)) (by decide +kernel)
  obtain ⟨a, ha, h⟩ := List.any_eq_true.1 h
  obtain ⟨hd, hrows⟩ := of_decide_eq_true h
  obtain ⟨rows, hw, hlen⟩ := exists_ok_of_any _ _ hrows
  have hnode := Schema.node?_path ha
  exact ⟨s, a, rows, hs, hnode, hw, of_decide_eq_true hlen, hd,
    (haveDistinctKeys_toRows_iff hs hnode hw).1.2 hd⟩

/-- Two lines of one code are stored, both under the same key. -/
theorem not_haveDistinctKeys_of_draft : ∃ s a rows, codedLines.resolve .standard = .ok s ∧
    s.node? a.path = some a ∧ s.toRows a.path (codedOrder "a" "a") = .ok rows ∧
      ¬ s.HaveDistinctKeys rows := by
  obtain ⟨s, hs, h⟩ := exists_ok_of_any (codedLines.resolve .standard) (fun s => s.graph.nodes.any
    fun a => (s.toRows a.path (codedOrder "a" "a")).toOption.any (¬ s.HaveDistinctKeys ·))
    (by decide +kernel)
  obtain ⟨a, ha, h⟩ := List.any_eq_true.1 h
  obtain ⟨rows, hw, hne⟩ := exists_ok_of_any _ _ h
  exact ⟨s, a, rows, hs, Schema.node?_path ha, hw, of_decide_eq_true hne⟩

end Draft

end AggregateSchema
