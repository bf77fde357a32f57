import AggregateSchema.Proofs.Depth
import AggregateSchema.Proofs.RoundTrip

/-! Which instances can be stored: those of which every part, at whatever depth, is accepted. -/
namespace AggregateSchema

namespace Json

/-- An object, or null for one without fields. -/
def isRecord (v : Json) : Bool := v.isObject || v.isNull

/-- A list, or null for the empty one. -/
def isList : Json → Bool
  | .null | .array _ => true
  | _ => false

end Json

theorem exists_expectObject_bind_iff {α : Type} {v : Json} {field : String}
    {f : Json → Except Failure α} : (∃ r, expectObject v field >>= f = .ok r) ↔
      v.isRecord = true ∧ ∃ r, f v = .ok r := by
  have hrecord : (∃ w, expectObject v field = .ok w) ↔ v.isRecord = true := exists_ite_ok_iff
  rw [exists_bind_iff, ← hrecord]
  constructor
  · rintro ⟨w, hw, hf⟩
    exact ⟨⟨w, hw⟩, expectObject_eq_ok hw ▸ hf⟩
  · rintro ⟨⟨w, hw⟩, hf⟩
    exact ⟨w, hw, (expectObject_eq_ok hw).symm ▸ hf⟩

theorem exists_expectList_bind_iff {α : Type} {v : Json} {field : String}
    {f : List Json → Except Failure α} : (∃ r, expectList v field >>= f = .ok r) ↔
      v.isList = true ∧ ∃ r, f v.items = .ok r := by
  have hlist : (∃ items, expectList v field = .ok items) ↔ v.isList = true := by
    cases v <;> simp [expectList, Json.isList]
  rw [exists_bind_iff, ← hlist]
  constructor
  · rintro ⟨items, hi, hf⟩
    exact ⟨⟨items, hi⟩, expectList_eq_ok hi ▸ hf⟩
  · rintro ⟨⟨items, hi⟩, hf⟩
    exact ⟨items, hi, (expectList_eq_ok hi).symm ▸ hf⟩

namespace Scalar

/-- A value of the scalar's kind; null if nothing has to be given. -/
def admits (m : Scalar) (v : Json) : Bool := if v.isNull then m.nullable else m.kind.admits v

theorem exists_check_iff {m : Scalar} {v : Json} (field : String) :
    (∃ w, m.check v field = .ok w) ↔ m.admits v = true := by
  unfold check admits
  by_cases hv : v.isNull = true
  · cases hm : m.nullable <;> simp [hv]
  · cases hm : m.kind.admits v <;> simp [hv]

end Scalar

namespace Entity

/-- The part of the given key of a reference that a key column of its target names. -/
def keyPart (given : Json) (name target : String) : Json :=
  (((given.getD name).get? "key").bind (·.get? target)).getD .null

/-- Whether the values of a member can be stored: a scalar has a value of its kind, a variation a tag of
one of its variants, and a reference every part of its key that is required. -/
def admits (e : Entity) (given : Json) : Member → Bool
  | .scalar m => m.admits (given.getD m.name)
  | .variation v => (given.getD v.name).isNull ||
    v.variants.any fun x => (given.getD v.name).int64? = some x.1
  | .reference l => (given.getD l.name).isRecord && (e.referenceColumns l.name).all fun x =>
    x.1.nullable || !(keyPart given l.name x.2).isNull
  | .child _ | .children _ => true

theorem exists_givenKey_iff {given : Json} {name : String} (field : String) :
    (∃ key, givenKey given name field = .ok key) ↔ (given.getD name).isRecord = true := by
  unfold givenKey
  cases given.getD name <;> simp [Json.isRecord, Json.isObject, Json.isNull]

theorem exists_referenceValues_iff {e : Entity} {given : Json} {name field : String} :
    (∃ values, e.referenceValues given name field = .ok values) ↔
      (given.getD name).isRecord = true ∧ ∀ x ∈ e.referenceColumns name,
        (x.1.nullable || !(keyPart given name x.2).isNull) = true := by
  rw [referenceValues, exists_bind_iff, ← exists_givenKey_iff field, ← exists_and_right]
  refine exists_congr fun key => and_congr_right fun hkey => ?_
  rw [exists_mapM_iff, givenKey_eq_ok hkey]
  refine forall₂_congr fun x _ => exists_ite_error_iff.trans ?_
  cases x.1.nullable <;> simp [keyPart]

theorem exists_memberValues_iff {e : Entity} {given : Json} (field : String) {m : Member} :
    (∃ values, e.memberValues given field m = .ok values) ↔ e.admits given m = true := by
  cases m with
  | scalar m =>
    rw [memberValues, exists_bind_iff, admits, ← Scalar.exists_check_iff (inField field m.name)]
    exact exists_congr fun w => and_iff_left ⟨_, rfl⟩
  | variation v => exact exists_ite_ok_iff
  | reference l =>
    rw [memberValues, exists_referenceValues_iff, admits, Bool.and_eq_true, List.all_eq_true]
  | _ => simp [memberValues, admits]

end Entity

namespace Member

/-- Whether what a member nests is of the form of objects: one for a child, one for each item of a
list, and one for each variant. -/
def nestsRecords (given : Json) : Member → Bool
  | .child l => (given.getD l.name).isRecord
  | .children l => (given.getD l.name).isList && (given.getD l.name).items.all Json.isRecord
  | .variation v => v.variants.all fun x =>
    (given.getD (variantFieldName v.name x.2.terminal.path)).isRecord
  | .scalar _ | .reference _ => true

section
variable {store : Aggregate → Json → Option Nat → String → Except Failure (List Row)}
  {given : Json} {A : Part → Prop}

theorem exists_flatten_iff {α : Type} {f : α → Except Failure (List Row)} {xs : List α} :
    (∃ rows, (do return (← xs.mapM f).flatten : Except Failure _) = .ok rows) ↔
      ∀ x ∈ xs, ∃ rows, f x = .ok rows := by
  rw [exists_bind_iff, ← exists_mapM_iff]
  exact exists_congr fun blocks => and_iff_left ⟨_, rfl⟩

/-- What a member nests can be stored if it has the form of objects and each of them can. -/
theorem exists_storeMember_iff {m : Member} (field : String) (h : ∀ q ∈ m.parts given, ∀ field,
      (∃ rows, store q.aggregate q.given q.position? field = .ok rows) ↔ A q) :
    (∃ rows, storeMember store given field m = .ok rows) ↔
      m.nestsRecords given = true ∧ ∀ q ∈ m.parts given, A q := by
  cases m with
  | child l =>
    rw [storeMember, exists_expectObject_bind_iff, nestsRecords, parts, List.forall_mem_singleton]
    exact and_congr_right fun _ => h _ (List.mem_singleton_self _) _
  | children l =>
    rw [storeMember, exists_expectList_bind_iff, exists_flatten_iff, nestsRecords, parts,
      Bool.and_eq_true, and_assoc, List.forall_mem_map]
    rw [← List.zipIdx_map_fst 0 (given.getD l.name).items, List.all_map, List.all_eq_true,
      List.zipIdx_map_fst, ← forall₂_and]
    refine and_congr_right fun _ => forall₂_congr fun x hx => exists_expectObject_bind_iff.trans ?_
    exact and_congr_right fun _ => h _ (List.mem_map_of_mem hx) _
  | variation v =>
    rw [storeMember, exists_flatten_iff, nestsRecords, List.all_eq_true, parts, List.forall_mem_map,
      ← forall₂_and]
    refine forall₂_congr fun x hx => exists_expectObject_bind_iff.trans ?_
    exact and_congr_right fun _ => h _ (List.mem_map_of_mem hx) _
  | _ => simp [storeMember, nestsRecords, parts]

end

end Member

namespace Schema
variable {s : Schema} {a : Aggregate}

/-- Whether an instance, apart from what is nested in its parts, can be stored. -/
def admits (s : Schema) (a : Aggregate) (given : Json) : Bool :=
  (s.entity? a.path).any fun e => (s.graph.members a).all fun m =>
    e.admits given m && m.nestsRecords given

theorem admits_iff {e : Entity} (he : s.entity? a.path = some e) {given : Json} :
    s.admits a given = true ↔ (∀ m ∈ s.graph.members a, e.admits given m = true) ∧
      ∀ m ∈ s.graph.members a, m.nestsRecords given = true := by
  simp only [admits, he, Option.any_some, List.all_eq_true, Bool.and_eq_true]
  exact forall₂_and

/-- An instance has rows exactly if it and every part of it, down to the last level, is accepted. -/
theorem exists_rowsOf_iff (hg : s.graph.IsForest) (ha : a ∈ s.graph.nodes) {levels : Nat}
    (h : s.graph.height a < levels) (given : Json) (p : Placement) (field : String) :
    (∃ rows, s.rowsOf levels a given p field = .ok rows) ↔
      s.Everywhere (fun b v => s.admits b v = true) levels a given := by
  induction levels generalizing a given p field with
  | zero => cases h
  | succ levels ih =>
    obtain ⟨e, he, -⟩ := exists_entity ha
    have hnested : ∀ row : Row, ∀ m ∈ s.graph.members a,
        (∃ rows, storeMember (fun target inner position? =>
          s.rowsOf levels target inner ⟨some (e, row), position?⟩) given field m = .ok rows) ↔
        m.nestsRecords given = true ∧ ∀ q ∈ m.parts given,
          s.Everywhere (fun b v => s.admits b v = true) levels q.aggregate q.given := by
      intro row m hm
      refine Member.exists_storeMember_iff field fun q hq field => ?_
      obtain ⟨hb, ho⟩ := owner?_of_mem_parts hg ha (List.mem_flatMap.2 ⟨m, hm, hq⟩)
      have hlt := hg.height_lt_of_owner? hb ho
      exact ih hb (by omega) q.given _ field
    have hentity : s.entityOf a = .ok e := by rw [entityOf, he]
    rw [Everywhere, admits_iff he, List.forall_mem_flatMap, and_assoc, ← forall₂_and]
    constructor
    · intro h
      obtain ⟨f, hf, h⟩ := exists_bind_iff.1 h
      obtain rfl : e = f := Except.ok.inj (hentity.symm.trans hf)
      obtain ⟨values, hvalues, h⟩ := exists_bind_iff.1 h
      obtain ⟨nested, hn, -⟩ := exists_bind_iff.1 h
      have hvalues := exists_mapM_iff.1 ⟨values, hvalues⟩
      have hn := exists_mapM_iff.1 ⟨nested, hn⟩
      exact ⟨fun m hm => (Entity.exists_memberValues_iff field).1 (hvalues m hm),
        fun m hm => (hnested _ m hm).1 (hn m hm)⟩
    · rintro ⟨hvalues, hn⟩
      obtain ⟨values, hvalues⟩ := exists_mapM_iff.2 fun m hm =>
        (Entity.exists_memberValues_iff field).2 (hvalues m hm)
      let row : Row := ⟨a.path, e.table, (e.placementValues p ++ values.flatten).foldl
        (fun sorted f => Json.insertField f.1 f.2 sorted) []⟩
      obtain ⟨nested, hn⟩ := exists_mapM_iff.2 fun m hm => (hnested row m hm).2 (hn m hm)
      exact exists_bind_iff.2 ⟨e, hentity, exists_bind_iff.2 ⟨values, hvalues,
        exists_bind_iff.2 ⟨nested, hn, _, rfl⟩⟩⟩

/-- Whether an instance of the root aggregate at a path can be stored. -/
def Accepts (s : Schema) (root : Path) (given : Json) : Prop :=
  ∃ a, s.node? root = some a ∧ s.graph.isRoot a = true ∧ given.isRecord = true ∧
    s.Everywhere (fun b v => s.admits b v = true) s.graph.nodes.length a given

/-- Either the whole instance is stored, or none of it. -/
theorem exists_toRows_iff (hg : s.graph.IsForest) {root : Path} {given : Json} :
    (∃ rows, s.toRows root given = .ok rows) ↔ s.Accepts root given := by
  have hrows := fun a (ha : a ∈ s.graph.nodes) =>
    exists_rowsOf_iff hg ha (AggregateGraph.height_lt_length ha) given ⟨none, none⟩ root.baseName
  rw [toRows, exists_bind_iff]
  simp only [exists_expectObject_bind_iff]
  constructor
  · rintro ⟨a, hroot, hrec, h⟩
    obtain ⟨hnode, hr⟩ := rootAt_eq_ok hroot
    exact ⟨a, hnode, hr, hrec, (hrows a (Graph.mem_of_find? hnode)).1 h⟩
  · rintro ⟨a, hnode, hr, hrec, h⟩
    refine ⟨a, ?_, hrec, (hrows a (Graph.mem_of_find? hnode)).2 h⟩
    rw [rootAt, hnode]
    exact if_pos hr

end Schema

end AggregateSchema
