import AggregateSchema.Proofs.Acceptance

/-! Stored rows are complete, and each is held by a row of its owner. -/
namespace AggregateSchema

namespace Json

theorem mem_keys_insertField {key name : String} {v : Json} {fields : List (String × Json)} :
    name ∈ (insertField key v fields).map Prod.fst ↔ name = key ∨ name ∈ fields.map Prod.fst := by
  induction fields with
  | nil => simp [insertField]
  | cons f rest ih =>
    obtain ⟨k, w⟩ := f
    rw [insertField]
    split
    · simp
    · split
      · rename_i h
        simp [h]
      · simp only [List.map_cons, List.mem_cons, ih]
        exact or_left_comm

/-- Fields that are sorted by key stay so. -/
theorem sorted_insertField {key : String} {v : Json} {fields : List (String × Json)}
    (h : (fields.map Prod.fst).Pairwise (· < ·)) :
    ((insertField key v fields).map Prod.fst).Pairwise (· < ·) := by
  induction fields with
  | nil => exact List.pairwise_singleton _ _
  | cons f rest ih =>
    obtain ⟨k, w⟩ := f
    obtain ⟨hk, hrest⟩ := List.pairwise_cons.1 h
    rw [insertField]
    split
    · rename_i hlt
      refine List.pairwise_cons.2 ⟨fun name hn => ?_, h⟩
      rcases List.mem_cons.1 hn with rfl | hn
      · exact hlt
      · exact Std.lt_trans hlt (hk name hn)
    · rename_i hle
      split
      · rename_i he
        exact List.pairwise_cons.2 ⟨he ▸ hk, hrest⟩
      · rename_i hne
        refine List.pairwise_cons.2 ⟨fun name hn => ?_, ih hrest⟩
        rcases mem_keys_insertField.1 hn with rfl | hn
        · exact Std.lt_of_le_of_ne (Std.not_lt.1 hle) (Ne.symm hne)
        · exact hk name hn

/-- Fields set in turn have each key once. -/
theorem keys_foldl_insertField (fields : List (String × Json)) :
    ((fields.foldl (fun sorted f => insertField f.1 f.2 sorted) []).map Prod.fst).Nodup ∧
      ∀ name, name ∈ (fields.foldl (fun sorted f => insertField f.1 f.2 sorted) []).map Prod.fst ↔
        ∃ f ∈ fields, f.1 = name := by
  suffices h : ((fields.foldl (fun sorted f => insertField f.1 f.2 sorted) []).map
      Prod.fst).Pairwise (· < ·) ∧ ∀ name, name ∈ (fields.foldl
        (fun sorted f => insertField f.1 f.2 sorted) []).map Prod.fst ↔
          ∃ f ∈ fields, f.1 = name from
    ⟨h.1.imp Std.ne_of_lt, h.2⟩
  induction fields using List.reverseRecOn with
  | nil => exact ⟨List.Pairwise.nil, by simp⟩
  | append_singleton fs f ih =>
    rw [List.foldl_append, List.foldl_cons, List.foldl_nil]
    refine ⟨sorted_insertField ih.1, fun name => ?_⟩
    rw [mem_keys_insertField, ih.2]
    simp only [List.mem_append, List.mem_singleton]
    constructor
    · rintro (rfl | ⟨g, hg, hn⟩)
      · exact ⟨f, Or.inr rfl, rfl⟩
      · exact ⟨g, Or.inl hg, hn⟩
    · rintro ⟨g, hg | rfl, hn⟩
      · exact Or.inr ⟨g, hg, hn⟩
      · exact Or.inl hn.symm

end Json

/-- An item of some blocks stands in one of them, after the items before it in that block. -/
theorem exists_block_of_flatMap_eq {α β : Type} {f : α → List β} {xs : List α}
    {before after : List β} {y : β} (h : xs.flatMap f = before ++ y :: after) :
    ∃ x ∈ xs, ∃ front back, f x = front ++ y :: back ∧ front <:+ before := by
  induction xs generalizing before with
  | nil => simp at h
  | cons x xs ih =>
    rw [List.flatMap_cons, List.append_eq_append_iff] at h
    rcases h with ⟨rest, rfl, h⟩ | ⟨rest, hx, h⟩
    · obtain ⟨z, hz, front, back, hf, hs⟩ := ih h
      exact ⟨z, List.mem_cons_of_mem x hz, front, back, hf, hs.trans (List.suffix_append _ _)⟩
    · cases rest with
      | nil =>
        have hrest : xs.flatMap f = [] ++ y :: after := h.symm
        obtain ⟨z, hz, front, back, hf, hs⟩ := ih hrest
        exact ⟨z, List.mem_cons_of_mem x hz, front, back, hf, hs.trans (List.nil_suffix)⟩
      | cons b rest =>
        obtain ⟨rfl, -⟩ := List.cons.inj h
        exact ⟨x, List.mem_cons_self, before, rest, hx, List.suffix_rfl⟩

namespace Schema

/-- A row has a value for every column of its table and for nothing else, and none of these is null
that may not be. -/
structure IsComplete (s : Schema) (r : Row) (e : Entity) : Prop where
  entity : s.entity? r.path = some e
  table : r.table = e.table
  columns : (r.values.map Prod.fst).Perm (e.allColumns.map Column.name)
  required : ∀ c ∈ e.allColumns, c.nullable = false → (r.get c.name).isNull = false

/-- A row is of the owner of another one, and has the same value in the column of each origin from
which the other one inherits. -/
def Holds (s : Schema) (q r : Row) : Prop :=
  ∃ a b e f, s.node? r.path = some a ∧ s.graph.owner? a = some b ∧ q.path = b.path ∧
    s.entity? q.path = some e ∧ s.entity? r.path = some f ∧
      ∀ c ∈ f.inheritedKeys, ∃ k, e.columnByOrigin? c.origin = some k ∧ r.get c.name = q.get k.name

/-- The rows of one instance: all complete, and each but the first after a row that holds it. -/
structure AreIntact (s : Schema) (rows : List Row) : Prop where
  complete : ∀ r ∈ rows, ∃ e, s.IsComplete r e
  held : ∀ before r after, rows = before ++ r :: after → before ≠ [] → ∃ q ∈ before, s.Holds q r

variable {s : Schema} {a : Aggregate} {e : Entity} {given : Json} {p : Placement}

/-- An instance is placed below a row of its owner whose key is complete, or it has no owner. -/
def IsPlaced (s : Schema) (a : Aggregate) (p : Placement) : Prop :=
  match s.graph.owner? a with
  | none => p.owner? = none
  | some b => ∃ o row, p.owner? = some (o, row) ∧ s.IsEntityOf o b ∧
    ∀ k ∈ s.keysOf b, (row.get k.name).isNull = false

theorem exists_values_of_rowsOf {levels : Nat} {field : String} {row : Row} {rest : List Row}
    (h : s.rowsOf levels a given p field = .ok (row :: rest)) : ∃ e values,
      s.entity? a.path = some e ∧
      (s.graph.members a).mapM (e.memberValues given field) = .ok values ∧
      row = ⟨a.path, e.table, (e.placementValues p ++ values.flatten).foldl
        (fun sorted f => Json.insertField f.1 f.2 sorted) []⟩ := by
  cases levels with
  | zero => cases h
  | succ levels =>
    simp only [rowsOf, bind_eq_ok_iff] at h
    obtain ⟨e, he, values, hvalues, _, _, h⟩ := h
    refine ⟨e, values, ?_, hvalues, (List.cons.inj (Except.ok.inj h)).1.symm⟩
    unfold entityOf at he
    split at he
    · rename_i hf
      rw [hf, Except.ok.inj he]
    · cases he

/-- A required column that is not inherited has a value, since the instance was accepted. -/
theorem IsEntityOf.isNull_givenValue (hs : s.IsEntityOf e a)
    (hm : ∀ m ∈ s.graph.members a, e.admits given m = true) {c : Column} (hc : c ∈ e.allColumns)
    (hi : c.inherited = false) (hn : c.nullable = false) (position : Nat) :
    (c.givenValue given position).isNull = false := by
  rcases hs.exists_member hc hi with hseq | ⟨m, hmem, hcm⟩
  · obtain ⟨-, -, rfl⟩ := hs.eq_sequence hseq
    rfl
  · have hadmits := hm m hmem
    cases m with
    | scalar m =>
      rw [columns_of_scalar, List.mem_singleton] at hcm
      subst hcm
      rw [Entity.admits, Scalar.admits] at hadmits
      by_contra hnull
      have hnull : (given.getD m.name).isNull = true := by
        rwa [Bool.not_eq_false] at hnull
      rw [if_pos hnull, show m.nullable = false from hn] at hadmits
      cases hadmits
    | variation v =>
      obtain rfl := List.mem_singleton.1 hcm
      cases hn
    | reference l =>
      obtain ⟨-, path, target, hr⟩ := role_of_reference hcm
      rw [Entity.admits, Bool.and_eq_true, List.all_eq_true] at hadmits
      have hpart := hadmits.2 _ (Entity.mem_referenceColumns.2 ⟨hc, hi, path, hr⟩)
      simpa [hn, Column.givenValue, hr, Entity.keyPart] using hpart
    | _ => cases hcm

theorem IsEntityOf.mem_inheritedKeys (hs : s.IsEntityOf e a) {c : Column} (hc : c ∈ e.allColumns)
    (hi : c.inherited = true) : c ∈ s.inheritedKeys a := by
  rw [Entity.allColumns, hs.keys, hs.columns, List.mem_append, List.mem_append] at hc
  rcases hc with (hc | hc) | hc
  · exact hc
  · rw [(isOwnColumn_of_mem_ownKeys hc).inherited] at hi
    cases hi
  · obtain ⟨m, _, hc⟩ := List.mem_flatMap.1 hc
    rw [(isMemberColumn_of_mem_memberColumns hc).isOwnColumn.inherited] at hi
    cases hi

/-- An inherited column takes its value from the row of the owner. -/
theorem IsPlaced.exists_key (hg : s.graph.IsForest) (hp : s.IsPlaced a p) {c : Column}
    (hc : c ∈ s.inheritedKeys a) (given : Json) : ∃ o row k, p.owner? = some (o, row) ∧
      o.columnByOrigin? c.origin = some k ∧ p.value given c = row.get k.name ∧
        (row.get k.name).isNull = false := by
  cases hb : s.graph.owner? a with
  | none => simp [inheritedKeys_of_root hb] at hc
  | some b =>
    simp only [IsPlaced, hb] at hp
    obtain ⟨o, row, ho, hob, hrow⟩ := hp
    have hi := inherited_of_mem_inheritedKeys hc
    rw [inheritedKeys_of_owner? hb] at hc
    obtain ⟨k, hk, rfl⟩ := List.mem_map.1 hc
    have hfound := hob.columnByOrigin? hg (AggregateGraph.mem_nodes_of_owner? hb) hk
    refine ⟨o, row, k, ho, hfound, ?_, hrow k hk⟩
    rw [Placement.value_of_inherited hi ho, Column.origin_inherit, hfound]

/-- The own row of an instance is complete. -/
theorem isComplete_of_rowsOf (hg : s.graph.IsForest) (ha : a ∈ s.graph.nodes)
    (hp : s.IsPlaced a p) {levels : Nat} {field : String} {row : Row} {rest : List Row}
    (h : s.rowsOf levels a given p field = .ok (row :: rest)) {e : Entity}
    (hs : s.IsEntityOf e a) (he : s.entity? a.path = some e) : s.IsComplete row e := by
  obtain ⟨hpath, hvalue⟩ := rowsOf_cons ha h
  obtain ⟨f, values, hf, hvalues, rfl⟩ := exists_values_of_rowsOf h
  obtain rfl : f = e := Option.some.inj (hf.symm.trans he)
  have hadmits : ∀ m ∈ s.graph.members a, f.admits given m = true := fun m hm =>
    (Entity.exists_memberValues_iff _).1 (exists_mapM_iff.1 ⟨values, hvalues⟩ m hm)
  have howner : ∀ c ∈ f.allColumns, c.inherited = true → ∃ o, p.owner? = some o := by
    intro c hc hi
    obtain ⟨o, row, _, ho, _⟩ := hp.exists_key hg (hs.mem_inheritedKeys hc hi) given
    exact ⟨(o, row), ho⟩
  refine ⟨he, rfl, ?_, fun c hc hn => ?_⟩
  · obtain ⟨hnodup, hkeys⟩ := Json.keys_foldl_insertField (f.placementValues p ++ values.flatten)
    refine (List.perm_ext_iff_of_nodup hnodup hs.distinct).2 fun name => ?_
    rw [hkeys, List.mem_map]
    constructor
    · rintro ⟨x, hx, rfl⟩
      obtain ⟨c, hc, hcn, -⟩ := hs.exists_column hvalues hx
      exact ⟨c, hc, hcn⟩
    · rintro ⟨c, hc, rfl⟩
      exact hs.exists_field hvalues hc (howner c hc)
  · rw [hvalue f he c hc]
    cases hi : c.inherited with
    | true =>
      obtain ⟨o, row, k, -, -, hv, hnull⟩ :=
        hp.exists_key hg (hs.mem_inheritedKeys hc hi) given
      rw [hv, hnull]
    | false =>
      rw [Placement.value_of_not_inherited hi]
      exact hs.isNull_givenValue hadmits hc hi hn _

/-- The own row of a part is held by the row of its owner. -/
theorem holds_of_rowsOf (hg : s.graph.IsForest) {b : Aggregate} (hb : b ∈ s.graph.nodes)
    (hbo : s.graph.owner? b = some a) {q : Row} (hq : q.path = a.path)
    (he : s.entity? a.path = some e) (hp : s.IsPlaced b p) (ho : p.owner? = some (e, q))
    {levels : Nat} {field : String} {row : Row} {rest : List Row}
    (h : s.rowsOf levels b given p field = .ok (row :: rest)) : s.Holds q row := by
  obtain ⟨hpath, hvalue⟩ := rowsOf_cons hb h
  obtain ⟨f, hf, hfs⟩ := exists_entity hb
  refine ⟨b, a, e, f, hpath ▸ node?_path hb, hbo, hq, hq ▸ he, hpath ▸ hf, fun c hc => ?_⟩
  have hcol : c ∈ f.allColumns := List.mem_append_left _ (List.mem_filter.1 hc).1
  rw [hfs.inheritedKeys_eq] at hc
  obtain ⟨o, row', k, ho', hfound, hv, -⟩ := hp.exists_key hg hc given
  rw [ho, Option.some.injEq, Prod.mk.injEq] at ho'
  obtain ⟨rfl, rfl⟩ := ho'
  exact ⟨k, hfound, (hvalue f hf c hcol).trans hv⟩

/-- The rows of an instance are intact, whatever is nested in it. -/
theorem areIntact_of_rowsOf (hg : s.graph.IsForest)
    (hk : ∀ b ∈ s.graph.nodes, ∀ m ∈ b.scalars, m.isKey = true → m.nullable = false)
    {levels : Nat} (ha : a ∈ s.graph.nodes) (hp : s.IsPlaced a p) {field : String} {rows : List Row}
    (h : s.rowsOf levels a given p field = .ok rows) : s.AreIntact rows := by
  induction levels generalizing a given p field rows with
  | zero => cases h
  | succ levels ih =>
    obtain ⟨e, row, nests, rfl, hst⟩ := rowsOf_eq_ok ha h
    have hs := hst.isEntity
    have hcomplete := isComplete_of_rowsOf hg ha hp h hs hst.entity
    have hkey : ∀ k ∈ s.keysOf a, (row.get k.name).isNull = false := fun k hmem =>
      hcomplete.required k (hs.mem_allColumns ha hmem) (nullable_of_mem_keysOf ha (hk a ha) hmem)
    have hnest : ∀ n ∈ nests, s.AreIntact n.rows ∧ s.Holds row n.row := by
      intro n hn
      obtain ⟨hb, hbo⟩ := hst.owner? hg ha hn
      obtain ⟨field', hf⟩ := hst.stored n hn
      have hplaced : s.IsPlaced n.part.aggregate ⟨some (e, row), n.part.position?⟩ := by
        simp only [IsPlaced, hbo]
        exact ⟨e, row, rfl, hs, hkey⟩
      exact ⟨ih hb hplaced hf, holds_of_rowsOf hg hb hbo hst.path hst.entity hplaced rfl hf⟩
    refine ⟨fun r hr => ?_, fun before r after hrows hne => ?_⟩
    · rcases List.mem_cons.1 hr with rfl | hr
      · exact ⟨e, hcomplete⟩
      · obtain ⟨n, hn, hr⟩ := List.mem_flatMap.1 hr
        exact (hnest n hn).1.complete r hr
    · obtain ⟨q, before, rfl⟩ := List.exists_cons_of_ne_nil hne
      obtain rfl : row = q := (List.cons.inj hrows).1
      have hblocks : nests.flatMap Nest.rows = before ++ r :: after := (List.cons.inj hrows).2
      obtain ⟨n, hn, front, back, hblock, hsuffix⟩ := exists_block_of_flatMap_eq hblocks
      obtain ⟨hintact, hholds⟩ := hnest n hn
      by_cases hfront : front = []
      · -- the row of a part itself
        subst hfront
        obtain rfl : n.row = r := (List.cons.inj hblock).1
        exact ⟨row, List.mem_cons_self, hholds⟩
      · obtain ⟨q, hq, hqr⟩ := hintact.held front r back hblock hfront
        exact ⟨q, List.mem_cons_of_mem _ (hsuffix.subset hq), hqr⟩

/-- The rows in which an instance of a root is stored: intact, and with one row of the root, which
comes first. -/
structure IsIntact (s : Schema) (root : Path) (rows : List Row) : Prop extends s.AreIntact rows where
  first : ∃ row rest, rows = row :: rest ∧ row.path = root ∧ ∀ r ∈ rest, r.path ≠ root

end Schema

namespace Draft
variable {d : Draft} {base : TypeRegistry} {s : Schema}

/-- An instance is stored as a whole or not at all: if it and all its parts are accepted, and then in
rows that are complete and refer to each other. -/
theorem isIntact_toRows (h : d.resolve base = .ok s) (root : Path) (given : Json) :
    ((∃ rows, s.toRows root given = .ok rows) ↔ s.Accepts root given) ∧
      ∀ rows, s.toRows root given = .ok rows → s.IsIntact root rows := by
  have hg := isForest h
  refine ⟨Schema.exists_toRows_iff hg, fun rows hrows => ?_⟩
  obtain ⟨a, ha, rfl, hroot, field, row, rest, rfl, hrows, hone⟩ := Schema.toRows_eq_ok hg hrows
  have hr := (Schema.rootAt_eq_ok hroot).2
  have hplaced : s.IsPlaced a ⟨none, none⟩ := by
    simp only [Schema.IsPlaced, AggregateGraph.isRoot_iff.1 hr]
  refine ⟨Schema.areIntact_of_rowsOf hg (fun b hb => nullable_of_resolve h hb) ha hplaced hrows,
    row, rest, rfl, (Schema.rowsOf_cons ha hrows).1, fun r hr he => ?_⟩
  have hbelow := (Schema.path_and_key_of_mem hg ha hrows r hr).1
  have hlt := Path.length_lt_of_isBelow hbelow
  rw [he] at hlt
  exact absurd hlt (Nat.lt_irrefl _)

theorem isIntact_toRows_orders : ∃ s a rows, orders.resolve .standard = .ok s ∧ a ∈ s.graph.nodes ∧
    s.Accepts a.path order ∧ s.toRows a.path order = .ok rows ∧ rows.length = 6 ∧
      s.IsIntact a.path rows := by
  obtain ⟨s, hs, h⟩ := exists_ok_of_any (orders.resolve .standard) (fun s => s.graph.nodes.any
    fun a => (s.toRows a.path order).toOption.any (·.length = 6)) (by decide +kernel)
  obtain ⟨a, ha, h⟩ := List.any_eq_true.1 h
  obtain ⟨rows, hrows, hlen⟩ := exists_ok_of_any _ _ h
  obtain ⟨haccepts, hintact⟩ := isIntact_toRows hs a.path order
  exact ⟨s, a, rows, hs, ha, haccepts.1 ⟨rows, hrows⟩, hrows, of_decide_eq_true hlen,
    hintact rows hrows⟩

end Draft

end AggregateSchema
