import AggregateSchema.Proofs.Stored
import AggregateSchema.Row.Reading

/-! How nested rows are told from all others: by the keys that they inherit. -/
namespace AggregateSchema

namespace Schema

/-- The value that a row has in the column of an origin. -/
def valueAt (s : Schema) (r : Row) (origin : Origin) : Json :=
  match (s.entity? r.path).bind (·.columnByOrigin? origin) with
  | some c => r.get c.name
  | none => .null

variable {s : Schema} {a : Aggregate} {e : Entity}

theorem valueAt_of_mem_keysOf (hg : s.graph.IsForest) (ha : a ∈ s.graph.nodes) {r : Row}
    (hr : r.path = a.path) {k : Column} (hk : k ∈ s.keysOf a) :
    s.valueAt r k.origin = r.get k.name := by
  obtain ⟨e, he, hs⟩ := exists_entity ha
  rw [valueAt, hr, he, Option.bind_some, hs.columnByOrigin? hg ha hk]

theorem inherit_mem_keysOf (ha : a ∈ s.graph.nodes) {b : Aggregate}
    (hao : s.graph.owner? a = some b) {k : Column} (hk : k ∈ s.keysOf b) :
    k.inherit b.typeName ∈ s.keysOf a := by
  rw [keysOf_eq ha, inheritedKeys_of_owner? hao]
  exact List.mem_append_left _ (List.mem_map_of_mem hk)

/-- Every key column is among the columns. -/
theorem IsEntityOf.mem_allColumns (hs : s.IsEntityOf e a) (ha : a ∈ s.graph.nodes) {k : Column}
    (hk : k ∈ s.keysOf a) : k ∈ e.allColumns := by
  rw [Entity.allColumns, hs.keys_eq ha]
  exact List.mem_append_left _ hk

/-- The first row of an instance is its own. -/
theorem rowsOf_cons (ha : a ∈ s.graph.nodes) {levels : Nat} {given : Json} {p : Placement}
    {field : String} {row : Row} {rest : List Row}
    (h : s.rowsOf levels a given p field = .ok (row :: rest)) :
    row.path = a.path ∧ ∀ e, s.entity? a.path = some e → ∀ c ∈ e.allColumns,
      row.get c.name = p.value given c := by
  cases levels with
  | zero => cases h
  | succ levels =>
    obtain ⟨e, row', nests, hrows, hst⟩ := rowsOf_eq_ok ha h
    obtain ⟨rfl, -⟩ := List.cons.inj hrows
    refine ⟨hst.path, fun f hf => ?_⟩
    obtain rfl : e = f := Option.some.inj (hst.entity.symm.trans hf)
    exact hst.value

/-- The row of a part has the key of the row of its owner. -/
theorem Nest.valueAt_eq (hg : s.graph.IsForest) (ha : a ∈ s.graph.nodes) {row : Row}
    (hrow : row.path = a.path) (hs : s.IsEntityOf e a) {levels : Nat} {n : Nest}
    (hn : n.IsStored s levels e row) (hb : n.part.aggregate ∈ s.graph.nodes)
    (hbo : s.graph.owner? n.part.aggregate = some a) {k : Column} (hk : k ∈ s.keysOf a) :
    s.valueAt n.row k.origin = s.valueAt row k.origin := by
  obtain ⟨field, hf⟩ := hn
  obtain ⟨hp, hvalue⟩ := rowsOf_cons hb hf
  obtain ⟨f, hf, hfs⟩ := exists_entity hb
  have hi := inherit_mem_keysOf hb hbo hk
  have horigin := valueAt_of_mem_keysOf hg hb hp hi
  rw [Column.origin_inherit] at horigin
  rw [horigin, hvalue f hf _ (hfs.mem_allColumns hb hi), valueAt_of_mem_keysOf hg ha hrow hk]
  simp [Placement.value, hs.columnByOrigin? hg ha hk]

/-- The rows of an instance lie at or below its aggregate, and all have the key of its own row. -/
theorem path_and_key_of_mem (hg : s.graph.IsForest) {levels : Nat} (ha : a ∈ s.graph.nodes)
    {given : Json} {p : Placement} {field : String} {row : Row} {rest : List Row}
    (h : s.rowsOf levels a given p field = .ok (row :: rest)) :
    ∀ t ∈ rest, t.path.isBelow a.path = true ∧
      ∀ k ∈ s.keysOf a, s.valueAt t k.origin = s.valueAt row k.origin := by
  induction levels generalizing a given p field row rest with
  | zero => cases h
  | succ levels ih =>
    obtain ⟨e, row', nests, hrows, hst⟩ := rowsOf_eq_ok ha h
    obtain ⟨rfl, rfl⟩ := List.cons.inj hrows
    intro t ht
    obtain ⟨n, hn, ht⟩ := List.mem_flatMap.1 ht
    have hpart : n.part ∈ (s.graph.members a).flatMap (Member.parts given) :=
      hst.parts ▸ List.mem_map_of_mem hn
    obtain ⟨hb, hbo⟩ := owner?_of_mem_parts hg ha hpart
    have hbelow := Path.isBelow_of_parent? (hg.parent?_of_owner? hbo)
    have hkey : ∀ k ∈ s.keysOf a, s.valueAt n.row k.origin = s.valueAt row k.origin :=
      fun k hk => Nest.valueAt_eq hg ha hst.path hst.isEntity (hst.stored n hn) hb hbo hk
    obtain ⟨field', hf⟩ := hst.stored n hn
    rcases List.mem_cons.1 ht with rfl | ht
    · rw [(rowsOf_cons hb hf).1]
      exact ⟨hbelow, hkey⟩
    · obtain ⟨htb, htk⟩ := ih hb hf t ht
      refine ⟨Path.isBelow_trans htb hbelow, fun k hk => ?_⟩
      have hk' := htk _ (inherit_mem_keysOf hb hbo hk)
      rw [Column.origin_inherit] at hk'
      rw [hk', hkey k hk]

/-- A row of an owned aggregate is nested in a row of the owner if it has the key of that row. -/
theorem IsEntityOf.isNestedIn_iff (hg : s.graph.IsForest) (ha : a ∈ s.graph.nodes)
    (hs : s.IsEntityOf e a) {b : Aggregate} (hb : b ∈ s.graph.nodes)
    (hbo : s.graph.owner? b = some a) {f : Entity} (hf : s.IsEntityOf f b) {row t : Row}
    (hrow : row.path = a.path) (ht : t.path = b.path) :
    f.isNestedIn t e row = true ↔
      ∀ k ∈ s.keysOf a, (s.valueAt row k.origin).same (s.valueAt t k.origin) = true := by
  rw [Entity.isNestedIn, hf.inheritedKeys_eq, inheritedKeys_of_owner? hbo, List.all_map,
    List.all_eq_true]
  apply forall₂_congr
  intro k hk
  have horigin := valueAt_of_mem_keysOf hg hb ht (inherit_mem_keysOf hb hbo hk)
  rw [Column.origin_inherit] at horigin
  rw [horigin, valueAt_of_mem_keysOf hg ha hrow hk, Function.comp_apply, Column.origin_inherit,
    hs.columnByOrigin? hg ha hk]

/-- A row is apart from another one if they differ in a key column. -/
def Apart (s : Schema) (a : Aggregate) (row t : Row) : Prop :=
  ∃ k ∈ s.keysOf a, (s.valueAt row k.origin).same (s.valueAt t k.origin) = false

variable {levels : Nat} {given : Json} {p : Placement} {row : Row} {nests : List Nest}

theorem IsStored.owner? (hg : s.graph.IsForest) (ha : a ∈ s.graph.nodes)
    (hst : s.IsStored levels a given p e row nests) {n : Nest} (hn : n ∈ nests) :
    n.part.aggregate ∈ s.graph.nodes ∧ s.graph.owner? n.part.aggregate = some a :=
  owner?_of_mem_parts hg ha (hst.parts ▸ List.mem_map_of_mem hn)

/-- The rows of a part lie at or below the aggregate of the part. -/
theorem IsStored.path_of_mem_rows (hg : s.graph.IsForest) (ha : a ∈ s.graph.nodes)
    (hst : s.IsStored levels a given p e row nests) {n : Nest} (hn : n ∈ nests) {t : Row}
    (ht : t ∈ n.rows) :
    (t.path = n.part.aggregate.path ∨ t.path.isBelow n.part.aggregate.path = true) ∧
      ∀ k ∈ s.keysOf n.part.aggregate, s.valueAt t k.origin = s.valueAt n.row k.origin := by
  obtain ⟨field, hf⟩ := hst.stored n hn
  obtain ⟨hb, -⟩ := hst.owner? hg ha hn
  rcases List.mem_cons.1 ht with rfl | ht
  · exact ⟨Or.inl (rowsOf_cons hb hf).1, fun _ _ => rfl⟩
  · obtain ⟨htb, htk⟩ := path_and_key_of_mem hg hb hf t ht
    exact ⟨Or.inr htb, htk⟩

/-- Of the rows of all parts, those of one owned aggregate that are nested in the row of the owner are
the own rows of its parts. -/
theorem IsStored.filter_nests (hg : s.graph.IsForest) (ha : a ∈ s.graph.nodes)
    (hst : s.IsStored levels a given p e row nests) {b : Aggregate} (hb : b ∈ s.graph.nodes)
    (hbo : s.graph.owner? b = some a) {f : Entity} (hf : s.IsEntityOf f b) :
    (nests.flatMap Nest.rows).filter (fun r => r.path = f.path && f.isNestedIn r e row) =
      (nests.filter (·.part.aggregate.path = b.path)).map Nest.row := by
  have hparent := hg.parent?_of_owner? hbo
  have hrows : ∀ n ∈ nests, n.rows.filter (fun r => r.path = f.path && f.isNestedIn r e row) =
      if decide (n.part.aggregate.path = b.path) then [n.row] else [] := by
    intro n hn
    obtain ⟨hnb, hno⟩ := hst.owner? hg ha hn
    obtain ⟨field, hstored⟩ := hst.stored n hn
    have hnrow := (rowsOf_cons hnb hstored).1
    split
    · rename_i he
      rw [decide_eq_true_eq] at he
      have hown : f.isNestedIn n.row e row = true := by
        rw [hst.isEntity.isNestedIn_iff hg ha hb hbo hf hst.path (hnrow.trans he)]
        intro k hk
        rw [Nest.valueAt_eq hg ha hst.path hst.isEntity (hst.stored n hn) hnb hno hk]
        exact Json.same_refl _
      have hrest : n.rest.filter (fun r => r.path = f.path && f.isNestedIn r e row) = [] := by
        apply List.filter_eq_nil_iff.2
        intro t ht hq
        have htb := Path.length_lt_of_isBelow (path_and_key_of_mem hg hnb hstored t ht).1
        have htp : t.path = f.path := of_decide_eq_true (Bool.and_eq_true_iff.1 hq).1
        rw [htp, hf.path, he] at htb
        exact absurd htb (Nat.lt_irrefl _)
      rw [Nest.rows, List.filter_cons_of_pos (by simp [hnrow, he, hf.path, hown]), hrest]
    · rename_i hne
      refine List.filter_eq_nil_iff.2 fun t ht hq => hne (decide_eq_true ?_)
      have htp : t.path = f.path := of_decide_eq_true (Bool.and_eq_true_iff.1 hq).1
      exact Path.eq_of_isBelow (hg.parent?_of_owner? hno) hparent
        (hst.path_of_mem_rows hg ha hn ht).1 (Or.inl (htp.trans hf.path))
  rw [List.filter_flatMap, List.flatMap_congr hrows, List.map_eq_flatMap]
  exact flatMap_ite_nil _ _ _

/-- The same among all rows, if those from elsewhere are apart. -/
theorem IsStored.filter_perm (hg : s.graph.IsForest) (ha : a ∈ s.graph.nodes)
    (hst : s.IsStored levels a given p e row nests) {b : Aggregate} (hb : b ∈ s.graph.nodes)
    (hbo : s.graph.owner? b = some a) {f : Entity} (hf : s.IsEntityOf f b) {rows others : List Row}
    (hrows : rows.Perm (row :: nests.flatMap Nest.rows ++ others))
    (hothers : ∀ t ∈ others, t.path.isBelow a.path = true → s.Apart a row t) :
    (rows.filter fun r => r.path = f.path && f.isNestedIn r e row).Perm
      ((nests.filter (·.part.aggregate.path = b.path)).map Nest.row) := by
  have hbelow := Path.isBelow_of_parent? (hg.parent?_of_owner? hbo)
  have hrow : ¬ (row.path = f.path && f.isNestedIn row e row) = true := by
    intro hq
    have hp : row.path = f.path := of_decide_eq_true (Bool.and_eq_true_iff.1 hq).1
    have := Path.length_lt_of_isBelow hbelow
    rw [← hf.path, ← hp, hst.path] at this
    exact absurd this (Nat.lt_irrefl _)
  have hout : others.filter (fun r => r.path = f.path && f.isNestedIn r e row) = [] := by
    apply List.filter_eq_nil_iff.2
    intro t ht hq
    rw [Bool.and_eq_true, decide_eq_true_eq] at hq
    have htb : t.path = b.path := hq.1.trans hf.path
    obtain ⟨k, hk, hd⟩ := hothers t ht (htb ▸ hbelow)
    have hsame := (hst.isEntity.isNestedIn_iff hg ha hb hbo hf hst.path htb).1 hq.2 k hk
    rw [hd] at hsame
    cases hsame
  have hp := hrows.filter fun r => r.path = f.path && f.isNestedIn r e row
  rwa [List.filter_append, List.filter_cons_of_neg (by exact hrow), hout, List.append_nil,
    hst.filter_nests hg ha hb hbo hf] at hp

theorem IsStored.filter_sublist (hg : s.graph.IsForest) (ha : a ∈ s.graph.nodes)
    (hst : s.IsStored levels a given p e row nests) {b : Aggregate} (hb : b ∈ s.graph.nodes)
    (hbo : s.graph.owner? b = some a) {f : Entity} (hf : s.IsEntityOf f b) {rows : List Row}
    (hrows : (row :: nests.flatMap Nest.rows).Sublist rows) :
    ((nests.filter (·.part.aggregate.path = b.path)).map Nest.row).Sublist
      (rows.filter fun r => r.path = f.path && f.isNestedIn r e row) := by
  rw [← hst.filter_nests hg ha hb hbo hf]
  exact ((List.sublist_cons_self _ _).trans hrows).filter _

end Schema

end AggregateSchema
