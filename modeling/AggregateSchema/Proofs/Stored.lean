import AggregateSchema.Proofs.Instance
import AggregateSchema.Row.Writing

/-! The rows in which an instance is stored. -/
namespace AggregateSchema

/-- Of fields set in turn the last one counts. -/
theorem lookup_foldl_insertField (fields : List (String × Json)) (name : String) :
    (fields.foldl (fun sorted f => Json.insertField f.1 f.2 sorted) []).lookup name =
      fields.reverse.lookup name := by
  induction fields using List.reverseRecOn with
  | nil => rfl
  | append_singleton fs f ih =>
    rw [List.foldl_append, List.foldl_cons, List.foldl_nil, Json.lookup_insertField, ih,
      List.reverse_append, List.reverse_singleton, List.singleton_append, List.lookup_cons]
    by_cases h : name = f.1
    · simp [h]
    · simp [h, beq_eq_false_iff_ne.2 h]

/-- A column has the value that all its entries agree on. -/
theorem Row.get_eq {row : Row} {fields : List (String × Json)} {name : String} {v : Json}
    (hr : row.values = fields.foldl (fun sorted f => Json.insertField f.1 f.2 sorted) [])
    (hv : ∀ f ∈ fields, f.1 = name → f.2 = v) (hn : v = .null ∨ ∃ f ∈ fields, f.1 = name) :
    row.get name = v := by
  rw [Row.get, hr, lookup_foldl_insertField]
  cases h : fields.reverse.lookup name with
  | some w =>
    obtain ⟨before, after, hf, -⟩ := List.lookup_eq_some_iff.1 h
    have hm : (name, w) ∈ fields := List.mem_reverse.1 (hf ▸ by simp)
    exact hv _ hm rfl
  | none =>
    rcases hn with rfl | ⟨f, hf, hfn⟩
    · rfl
    · have := List.lookup_eq_none_iff.1 h f (List.mem_reverse.2 hf)
      simp [hfn] at this

theorem expectObject_eq_ok {v w : Json} {field : String} (h : expectObject v field = .ok w) :
    w = v := by
  unfold expectObject at h
  split at h
  · exact (Except.ok.inj h).symm
  · cases h

theorem expectList_eq_ok {v : Json} {items : List Json} {field : String}
    (h : expectList v field = .ok items) : items = v.items := by
  unfold expectList at h
  split at h
  · exact (Except.ok.inj h).symm
  · exact (Except.ok.inj h).symm
  · cases h

theorem Scalar.check_eq_ok {m : Scalar} {v w : Json} {field : String}
    (h : m.check v field = .ok w) : w = v := by
  unfold Scalar.check at h
  split at h
  · rename_i hn
    split at h
    · obtain rfl := Except.ok.inj h
      cases v <;> first | rfl | cases hn
    · cases h
  · split at h
    · exact (Except.ok.inj h).symm
    · cases h

namespace Entity

theorem givenKey_eq_ok {given : Json} {name field : String} {key : Option Json}
    (h : givenKey given name field = .ok key) : key = (given.getD name).get? "key" := by
  unfold givenKey at h
  split at h
  · rename_i hv
    rw [← Except.ok.inj h, hv]
    rfl
  · rename_i hv
    rw [← Except.ok.inj h, hv]
  · cases h

/-- The columns of a reference store the parts of the given key. -/
theorem referenceValues_eq_ok {e : Entity} {given : Json} {name field : String}
    {values : List (String × Json)} (h : e.referenceValues given name field = .ok values) :
    values = (e.referenceColumns name).map fun x =>
      (x.1.name, (((given.getD name).get? "key").bind (·.get? x.2)).getD .null) := by
  obtain ⟨key, hkey, h⟩ := bind_eq_ok_iff.1 h
  rw [← givenKey_eq_ok hkey]
  apply eq_map_of_forall₂ (mapM_eq_ok_iff.1 h)
  intro x _ f hf
  dsimp only at hf
  split at hf
  · cases hf
  · exact (Except.ok.inj hf).symm

theorem mem_referenceColumns {e : Entity} {name : String} {c : Column} {target : String} :
    (c, target) ∈ e.referenceColumns name ↔ c ∈ e.allColumns ∧ c.inherited = false ∧
      ∃ path, c.role = .foreignKey name path target := by
  rw [Schema.referenceColumns_eq_filterMap, List.mem_filterMap]
  constructor
  · rintro ⟨d, hd, h⟩
    unfold Schema.partOf? at h
    split at h
    · rename_i hr
      split at h
      · rename_i hp
        simp only [Bool.and_eq_true, Bool.not_eq_true', decide_eq_true_eq] at hp
        obtain ⟨rfl, rfl⟩ := Prod.mk.inj (Option.some.inj h)
        exact ⟨hd, hp.1, _, hp.2 ▸ hr⟩
      · cases h
    · cases h
  · rintro ⟨hc, hi, path, hr⟩
    exact ⟨c, hc, by simp [Schema.partOf?, hr, hi]⟩

theorem exists_placementValue {e : Entity} {p : Placement} {o : Entity × Row}
    (ho : p.owner? = some o) {c : Column} (hc : c ∈ e.inheritedKeys) :
    ∃ f ∈ e.placementValues p, f.1 = c.name := by
  rw [placementValues, ho]
  exact ⟨_, List.mem_append_left _ (List.mem_map_of_mem hc), rfl⟩

end Entity

/-- The value of a column of a nested instance: inherited ones are found in the row of the owner. -/
def Placement.value (p : Placement) (given : Json) (c : Column) : Json :=
  if c.inherited then
    match p.owner? with
    | none => .null
    | some (owner, row) => match owner.columnByOrigin? c.origin with
      | some k => row.get k.name
      | none => .null
  else c.givenValue given (p.position?.getD 0)

theorem Placement.value_of_inherited {p : Placement} {given : Json} {o : Entity × Row} {c : Column}
    (hi : c.inherited = true) (ho : p.owner? = some o) :
    p.value given c = match o.1.columnByOrigin? c.origin with
      | some k => o.2.get k.name
      | none => .null := by
  simp [value, hi, ho]

theorem Placement.value_of_not_inherited {p : Placement} {given : Json} {c : Column}
    (h : c.inherited = false) : p.value given c = c.givenValue given (p.position?.getD 0) := by
  simp [value, h]

namespace Schema
variable {s : Schema} {a : Aggregate} {e : Entity}

/-- The columns of a member are columns of the entity. -/
theorem IsEntityOf.mem_allColumns_of_member (hs : s.IsEntityOf e a) {m : Member}
    (hm : m ∈ s.graph.members a) {c : Column}
    (hc : c ∈ s.memberKeys a.typeName m ++ s.memberColumns a.typeName m) : c ∈ e.allColumns := by
  rw [Entity.allColumns, hs.keys, hs.columns]
  rcases List.mem_append.1 hc with hc | hc
  · exact List.mem_append_left _ (List.mem_append_right _ (memberKeys_subset_ownKeys hm hc))
  · exact List.mem_append_right _ (List.mem_flatMap.2 ⟨m, hm, hc⟩)

theorem declaredKeys_sublist_ownKeys (s : Schema) (a : Aggregate) :
    (s.declaredKeys a).Sublist (s.ownKeys a) := by
  rcases s.ownKeys_cases a with h | ⟨-, h, -⟩
  · exact h ▸ List.Sublist.refl _
  · exact h ▸ List.nil_sublist _

/-- The columns that members take have distinct names. -/
theorem IsEntityOf.nodup_names_members (hs : s.IsEntityOf e a) :
    ((s.graph.members a).flatMap fun m =>
      (s.memberKeys a.typeName m ++ s.memberColumns a.typeName m).map Column.name).Nodup := by
  have htaken : (s.declaredKeys a ++ e.columns).Sublist e.allColumns := by
    rw [Entity.allColumns, hs.keys]
    exact ((declaredKeys_sublist_ownKeys s a).trans (List.sublist_append_right _ _)).append_right _
  rw [declaredKeys_eq_flatMap, hs.columns] at htaken
  rw [← List.map_flatMap]
  exact ((List.flatMap_append_perm _ _ _).map Column.name).nodup_iff.1
    (hs.distinct.sublist (htaken.map Column.name))

/-- A scalar has one column, be it a key or not. -/
theorem columns_of_scalar (s : Schema) (table : String) (m : Scalar) :
    s.memberKeys table (.scalar m) ++ s.memberColumns table (.scalar m) =
      [Column.ofScalar table m] := by
  cases hk : m.isKey <;> simp [memberKeys, memberColumns, hk]

/-- The columns of a reference refer to it. -/
theorem role_of_reference {table : String} {l : Link} {c : Column}
    (hc : c ∈ s.memberKeys table (.reference l) ++ s.memberColumns table (.reference l)) :
    c.inherited = false ∧ ∃ path target, c.role = .foreignKey l.name path target := by
  rcases List.mem_append.1 hc with hc | hc
  · refine ⟨(isMemberColumn_of_mem_memberKeys hc).isOwnColumn.inherited, ?_⟩
    rw [memberKeys] at hc
    split at hc
    · obtain ⟨k, _, rfl⟩ := List.mem_map.1 hc
      exact ⟨_, _, rfl⟩
    · cases hc
  · refine ⟨(isMemberColumn_of_mem_memberColumns hc).isOwnColumn.inherited, ?_⟩
    rw [memberColumns] at hc
    split at hc
    · cases hc
    · obtain ⟨k, _, rfl⟩ := List.mem_map.1 hc
      exact ⟨_, _, rfl⟩

/-- What a member stores are the values of its columns. -/
theorem IsEntityOf.memberValues_eq_ok (hs : s.IsEntityOf e a) {m : Member}
    (hm : m ∈ s.graph.members a) {given : Json} {field : String} {values : List (String × Json)}
    (h : e.memberValues given field m = .ok values) (position : Nat) :
    (∀ f ∈ values, ∃ c ∈ e.allColumns, c.inherited = false ∧ c.name = f.1 ∧
      f.2 = c.givenValue given position) ∧
    ∀ c ∈ s.memberKeys a.typeName m ++ s.memberColumns a.typeName m, ∃ f ∈ values, f.1 = c.name := by
  have hcolumns : ∀ c ∈ s.memberKeys a.typeName m ++ s.memberColumns a.typeName m,
      c ∈ e.allColumns := fun c hc => hs.mem_allColumns_of_member hm hc
  cases m with
  | scalar m =>
    simp only [Entity.memberValues, bind_eq_ok_iff, pure, Except.pure, Except.ok.injEq] at h
    obtain ⟨w, hw, rfl⟩ := h
    obtain rfl := Scalar.check_eq_ok hw
    rw [columns_of_scalar] at hcolumns ⊢
    refine ⟨fun f hf => ⟨_, hcolumns _ (List.mem_singleton_self _), rfl, ?_⟩, fun c hc =>
      ⟨_, List.mem_singleton_self _, ?_⟩⟩
    · obtain rfl := List.mem_singleton.1 hf
      exact ⟨rfl, rfl⟩
    · obtain rfl := List.mem_singleton.1 hc
      rfl
  | variation v =>
    simp only [Entity.memberValues] at h
    split at h
    · obtain rfl := Except.ok.inj h
      refine ⟨fun f hf => ⟨_, hcolumns _ (List.mem_singleton_self _), rfl, ?_⟩, fun c hcm =>
        ⟨_, List.mem_singleton_self _, ?_⟩⟩
      · obtain rfl := List.mem_singleton.1 hf
        exact ⟨rfl, rfl⟩
      · obtain rfl := List.mem_singleton.1 hcm
        rfl
    · cases h
  | reference l =>
    obtain rfl := Entity.referenceValues_eq_ok h
    constructor
    · intro f hf
      obtain ⟨⟨c, target⟩, hx, rfl⟩ := List.mem_map.1 hf
      obtain ⟨hc, hi, path, hr⟩ := Entity.mem_referenceColumns.1 hx
      exact ⟨c, hc, hi, rfl, by simp [Column.givenValue, hr]⟩
    · intro c hc
      obtain ⟨hi, path, target, hr⟩ := role_of_reference hc
      exact ⟨_, List.mem_map_of_mem (Entity.mem_referenceColumns.2 ⟨hcolumns c hc, hi, path, hr⟩),
        rfl⟩
  | _ =>
    obtain rfl := Except.ok.inj h
    exact ⟨fun f hf => (nomatch hf), fun c hc => (nomatch hc)⟩

/-- Every column that is not inherited is the position, or taken by a member. -/
theorem IsEntityOf.exists_member (hs : s.IsEntityOf e a) {c : Column} (hc : c ∈ e.allColumns)
    (hi : c.inherited = false) : e.sequenceColumn? = some c ∨ ∃ m ∈ s.graph.members a,
      c ∈ s.memberKeys a.typeName m ++ s.memberColumns a.typeName m := by
  rw [Entity.allColumns, hs.keys, hs.columns, List.mem_append, List.mem_append] at hc
  rcases hc with (hc | hc) | hc
  · rw [inherited_of_mem_inheritedKeys hc] at hi
    cases hi
  · rcases mem_ownKeys hc with ⟨rfl, -⟩ | ⟨m, hm, hc⟩
    · exact Or.inl (hs.sequenceColumn?_eq hc)
    · exact Or.inr ⟨m, hm, List.mem_append_left _ hc⟩
  · obtain ⟨m, hm, hc⟩ := List.mem_flatMap.1 hc
    exact Or.inr ⟨m, hm, List.mem_append_right _ hc⟩

/-- What the place of an instance gives are values of key columns. -/
theorem IsEntityOf.eq_value_of_mem_placementValues (hs : s.IsEntityOf e a) {p : Placement}
    (given : Json) {f : String × Json} (hf : f ∈ e.placementValues p) :
    ∃ c ∈ e.keys, c.name = f.1 ∧ f.2 = p.value given c := by
  rcases List.mem_append.1 hf with hf | hf
  · cases ho : p.owner? with
    | none => simp [ho] at hf
    | some o =>
      simp only [ho] at hf
      obtain ⟨c, hc, rfl⟩ := List.mem_map.1 hf
      obtain ⟨hc, hi⟩ := List.mem_filter.1 hc
      exact ⟨c, hc, rfl, (Placement.value_of_inherited hi ho).symm⟩
  · obtain ⟨c, hc, rfl⟩ := List.mem_map.1 hf
    have hseq := Option.mem_toList.1 hc
    obtain ⟨-, -, rfl⟩ := hs.eq_sequence hseq
    exact ⟨_, List.mem_of_find?_eq_some hseq, rfl, rfl⟩

section
variable {given : Json} {field : String} {p : Placement} {values : List (List (String × Json))}

/-- Every column is stored, the inherited ones if there is a row of the owner. -/
theorem IsEntityOf.exists_field (hs : s.IsEntityOf e a)
    (hv : (s.graph.members a).mapM (e.memberValues given field) = .ok values) {c : Column}
    (hc : c ∈ e.allColumns) (hp : c.inherited = true → ∃ o, p.owner? = some o) :
    ∃ f ∈ e.placementValues p ++ values.flatten, f.1 = c.name := by
  cases hi : c.inherited with
  | true =>
    have hck : c ∈ e.inheritedKeys := by
      rcases List.mem_append.1 hc with hc | hc
      · exact List.mem_filter.2 ⟨hc, hi⟩
      · rw [hs.columns] at hc
        obtain ⟨m, _, hc⟩ := List.mem_flatMap.1 hc
        rw [(isMemberColumn_of_mem_memberColumns hc).isOwnColumn.inherited] at hi
        cases hi
    obtain ⟨o, ho⟩ := hp hi
    obtain ⟨f, hf, hfn⟩ := Entity.exists_placementValue ho hck
    exact ⟨f, List.mem_append_left _ hf, hfn⟩
  | false =>
    rcases hs.exists_member hc hi with hseq | ⟨m, hm, hcm⟩
    · exact ⟨(c.name, .ofNat (p.position?.getD 0)), List.mem_append_left _
        (List.mem_append_right _ (List.mem_map.2 ⟨c, Option.mem_toList.2 hseq, rfl⟩)), rfl⟩
    · obtain ⟨vs, hvs, hmv⟩ := exists_of_mem_left (mapM_eq_ok_iff.1 hv) hm
      obtain ⟨f, hf, hfn⟩ := (hs.memberValues_eq_ok hm hmv 0).2 c hcm
      exact ⟨f, List.mem_append_right _ (List.mem_flatten.2 ⟨vs, hvs, hf⟩), hfn⟩

/-- Nothing but columns is stored, each with its value. -/
theorem IsEntityOf.exists_column (hs : s.IsEntityOf e a)
    (hv : (s.graph.members a).mapM (e.memberValues given field) = .ok values) {f : String × Json}
    (hf : f ∈ e.placementValues p ++ values.flatten) :
    ∃ c ∈ e.allColumns, c.name = f.1 ∧ f.2 = p.value given c := by
  rcases List.mem_append.1 hf with hf | hf
  · obtain ⟨c, hc, h⟩ := hs.eq_value_of_mem_placementValues given hf
    exact ⟨c, List.mem_append_left _ hc, h⟩
  · obtain ⟨vs, hvs, hf⟩ := List.mem_flatten.1 hf
    obtain ⟨m, hm, hmv⟩ := exists_of_mem_right (mapM_eq_ok_iff.1 hv) hvs
    obtain ⟨c, hc, hi, hcn, hcv⟩ := (hs.memberValues_eq_ok hm hmv (p.position?.getD 0)).1 f hf
    exact ⟨c, hc, hcn, hcv.trans (Placement.value_of_not_inherited hi).symm⟩

/-- A stored row has the value of each column. -/
theorem IsEntityOf.get_eq (hs : s.IsEntityOf e a) {row : Row}
    (hv : (s.graph.members a).mapM (e.memberValues given field) = .ok values)
    (hr : row.values = (e.placementValues p ++ values.flatten).foldl
      (fun sorted f => Json.insertField f.1 f.2 sorted) [])
    {c : Column} (hc : c ∈ e.allColumns) : row.get c.name = p.value given c := by
  refine Row.get_eq hr (fun f hf hfn => ?_) ?_
  · obtain ⟨d, hd, hdn, hdv⟩ := hs.exists_column hv hf
    obtain rfl : d = c := List.inj_on_of_nodup_map hs.distinct hd hc (hdn.trans hfn)
    exact hdv
  · cases ho : p.owner? with
    | some o => exact Or.inr (hs.exists_field hv hc fun _ => ⟨o, ho⟩)
    | none =>
      cases hi : c.inherited with
      | true => exact Or.inl (by simp [Placement.value, hi, ho])
      | false => exact Or.inr (hs.exists_field hv hc fun h => by rw [hi] at h; cases h)

end

end Schema

section
variable {store : Aggregate → Json → Option Nat → String → Except Failure (List Row)}
  {given : Json} {field : String}

theorem exists_of_expectObject {b : Aggregate} {v : Json} {position? : Option Nat} {rows : List Row}
    (h : (do store b (← expectObject v field) position? field) = .ok rows) :
    ∃ field, store b v position? field = .ok rows := by
  obtain ⟨inner, hi, h⟩ := bind_eq_ok_iff.1 h
  exact ⟨field, expectObject_eq_ok hi ▸ h⟩

/-- The rows of a member are those of its parts in turn. -/
theorem storeMember_eq_ok {m : Member} {rows : List Row}
    (h : storeMember store given field m = .ok rows) :
    ∃ blocks, rows = blocks.flatten ∧ List.Forall₂ (fun q rs => ∃ field,
      store q.aggregate q.given q.position? field = .ok rs) (m.parts given) blocks := by
  cases m with
  | scalar m => exact ⟨[], (Except.ok.inj h).symm, List.Forall₂.nil⟩
  | reference l => exact ⟨[], (Except.ok.inj h).symm, List.Forall₂.nil⟩
  | child l =>
    exact ⟨[rows], by simp, List.Forall₂.cons (exists_of_expectObject h) List.Forall₂.nil⟩
  | children l =>
    obtain ⟨items, hi, h⟩ := bind_eq_ok_iff.1 h
    obtain ⟨blocks, hb, h⟩ := bind_eq_ok_iff.1 h
    refine ⟨blocks, (Except.ok.inj h).symm, ?_⟩
    rw [Member.parts, List.forall₂_map_left_iff, ← expectList_eq_ok hi]
    exact (mapM_eq_ok_iff.1 hb).imp fun x rs hx => exists_of_expectObject hx
  | variation v =>
    obtain ⟨blocks, hb, h⟩ := bind_eq_ok_iff.1 h
    refine ⟨blocks, (Except.ok.inj h).symm, ?_⟩
    rw [Member.parts, List.forall₂_map_left_iff]
    exact (mapM_eq_ok_iff.1 hb).imp fun x rs hx => exists_of_expectObject hx

end

/-- A part of an instance with its own row and the rows of what is nested in it. -/
structure Nest where
  part : Part
  row : Row
  rest : List Row

namespace Nest

def rows (n : Nest) : List Row := n.row :: n.rest

/-- The rows of a part, below the row of its owner. -/
def IsStored (s : Schema) (levels : Nat) (owner : Entity) (ownerRow : Row) (n : Nest) : Prop :=
  ∃ field, s.rowsOf levels n.part.aggregate n.part.given
    ⟨some (owner, ownerRow), n.part.position?⟩ field = .ok n.rows

end Nest

namespace Schema
variable {s : Schema} {a : Aggregate} {e : Entity}

theorem exists_row_of_rowsOf {levels : Nat} {given : Json} {p : Placement} {field : String}
    {rows : List Row} (h : s.rowsOf levels a given p field = .ok rows) :
    ∃ row rest, rows = row :: rest := by
  cases levels with
  | zero => cases h
  | succ levels =>
    simp only [rowsOf, bind_eq_ok_iff] at h
    obtain ⟨_, _, _, _, _, _, h⟩ := h
    exact ⟨_, _, (Except.ok.inj h).symm⟩

/-- The rows of some parts in turn. -/
theorem exists_nests {levels : Nat} {row : Row} {parts : List Part} {blocks : List (List Row)}
    (h : List.Forall₂ (fun q rows => ∃ field, s.rowsOf levels q.aggregate q.given
      ⟨some (e, row), q.position?⟩ field = .ok rows) parts blocks) :
    ∃ nests : List Nest, blocks.flatten = nests.flatMap Nest.rows ∧
      nests.map Nest.part = parts ∧ ∀ n ∈ nests, n.IsStored s levels e row := by
  induction h with
  | nil => exact ⟨[], rfl, rfl, fun n hn => (nomatch hn)⟩
  | @cons q rows parts blocks hq _ ih =>
    obtain ⟨nests, hrows, hparts, hstored⟩ := ih
    obtain ⟨field, hf⟩ := hq
    obtain ⟨first, rest, rfl⟩ := exists_row_of_rowsOf hf
    refine ⟨⟨q, first, rest⟩ :: nests, ?_, ?_, ?_⟩
    · rw [List.flatten_cons, List.flatMap_cons, hrows]
      rfl
    · rw [List.map_cons, hparts]
    · intro n hn
      rcases List.mem_cons.1 hn with rfl | hn
      · exact ⟨field, hf⟩
      · exact hstored n hn

/-- An instance is stored in a row of its own, and in the rows of its parts. -/
structure IsStored (s : Schema) (levels : Nat) (a : Aggregate) (given : Json) (p : Placement)
    (e : Entity) (row : Row) (nests : List Nest) : Prop where
  entity : s.entity? a.path = some e
  isEntity : s.IsEntityOf e a
  path : row.path = a.path
  value : ∀ c ∈ e.allColumns, row.get c.name = p.value given c
  parts : nests.map Nest.part = (s.graph.members a).flatMap (Member.parts given)
  stored : ∀ n ∈ nests, n.IsStored s levels e row

theorem rowsOf_eq_ok (ha : a ∈ s.graph.nodes) {levels : Nat} {given : Json} {p : Placement}
    {field : String} {rows : List Row} (h : s.rowsOf (levels + 1) a given p field = .ok rows) :
    ∃ e row nests, rows = row :: nests.flatMap Nest.rows ∧
      s.IsStored levels a given p e row nests := by
  obtain ⟨e, he, hs⟩ := exists_entity ha
  simp only [rowsOf, bind_eq_ok_iff] at h
  obtain ⟨e', he', values, hvalues, nested, hnested, h⟩ := h
  obtain rfl : e' = e := by
    rw [entityOf, he] at he'
    exact (Except.ok.inj he').symm
  generalize hrow : Row.mk a.path e'.table _ = row at hnested h
  have hblocks := exists_flatten_eq
    ((mapM_eq_ok_iff.1 hnested).imp fun m rs hm => storeMember_eq_ok hm)
  obtain ⟨blocks, hflatten, hblocks⟩ := hblocks
  obtain ⟨nests, hrows, hparts, hstored⟩ := exists_nests hblocks
  refine ⟨e', row, nests, ?_, he, hs, hrow ▸ rfl, fun c hc => ?_, hparts, hstored⟩
  · rw [← hrows, ← hflatten]
    exact (Except.ok.inj h).symm
  · exact hs.get_eq hvalues (hrow ▸ rfl) hc

end Schema

end AggregateSchema
