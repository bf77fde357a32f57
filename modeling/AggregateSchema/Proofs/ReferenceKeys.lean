import AggregateSchema.Proofs.Acceptance
import AggregateSchema.Proofs.KeySources

/-! The keys that an instance gives for its references, and the columns in which they are stored. -/
namespace AggregateSchema

theorem Json.eq_null_of_isNull {v : Json} (h : v.isNull = true) : v = .null := by
  cases v with
  | null => rfl
  | _ => cases h

/-- No two references have one name if no two members have. -/
theorem AggregateGraph.nodup_references {g : AggregateGraph} {a : Aggregate}
    (h : ((members g a).map Member.name).Nodup) : ((referenceLinks g a).map (·.name)).Nodup := by
  refine h.sublist ?_
  rw [← flatMap_references, List.map_flatMap, List.map_eq_flatMap (l := members g a)]
  apply List.Sublist.flatMap_right
  intro m _
  cases m with
  | reference l => exact List.Sublist.refl _
  | _ => exact List.nil_sublist _

/-- The column in which a reference of an aggregate holds a key column of its target. -/
def Aggregate.foreignKey (a : Aggregate) (l : Link) (k : Column) : Column :=
  Column.foreignKey a.typeName l (!l.relation.isKeyReference) k

namespace Entity

/-- The key that an instance gives for a reference; null if it gives none. -/
def keyIn (given : Json) (reference : String) : Json :=
  ((given.getD reference).get? "key").getD .null

theorem keyPart_eq (given : Json) (reference target : String) :
    keyPart given reference target = (keyIn given reference).getD target := by
  unfold keyPart keyIn
  cases (given.getD reference).get? "key" <;> rfl

end Entity

namespace Schema

/-- A part of an instance, and then what is nested in it, down to at most `levels` levels. -/
def partsWithin (s : Schema) : Nat → Part → List Part
  | 0, _ => []
  | levels + 1, p =>
    p :: ((s.graph.members p.aggregate).flatMap (Member.parts p.given)).flatMap (partsWithin s levels)

/-- An instance of a root and everything nested in it, in the order in which it is stored. -/
def allParts (s : Schema) (a : Aggregate) (given : Json) : List Part :=
  s.partsWithin s.graph.nodes.length ⟨a, given, none⟩

/-- The references of a part are stored in the columns for the keys of their targets. -/
structure StoresKeys (s : Schema) (p : Part) (r : Row) : Prop where
  node : p.aggregate ∈ s.graph.nodes
  path : r.path = p.aggregate.path
  columns : ∀ e ∈ s.entity? r.path, ∀ l ∈ s.graph.referenceLinks p.aggregate,
    e.referenceColumns l.name =
      (s.keysOf l.terminal).map fun k => (p.aggregate.foreignKey l k, k.name)
  values : ∀ l ∈ s.graph.referenceLinks p.aggregate, ∀ k ∈ s.keysOf l.terminal,
    r.get (p.aggregate.foreignKey l k).name = (Entity.keyIn p.given l.name).getD k.name

/-- What a key has to be for its instance to be accepted: a field of an object and, where the reference
is itself part of a key, without a missing part. -/
def AdmitsKey (s : Schema) (given : Json) (l : Link) : Prop :=
  (given.getD l.name).isRecord = true ∧ (l.relation.isKeyReference = true →
    ∀ k ∈ s.keysOf l.terminal, ((Entity.keyIn given l.name).getD k.name).isNull = false)

/-- No key, or an object with a value for every key column of the target that this could hold. -/
def IsWholeKey (s : Schema) (target : Aggregate) (key : Json) : Prop :=
  key.isNull = true ∨
    key.isObject = true ∧ ∀ k ∈ s.keysOf target, s.CouldHold target k (key.getD k.name)

/-- A row holds nothing of a reference for which no key is given, and otherwise a key that is given as
an object: in each column the part for it, which is not null and could stand in the key of the target. -/
def KeepsKey (s : Schema) (p : Part) (r : Row) (l : Link) : Prop :=
  let key := Entity.keyIn p.given l.name
  let held (k : Column) := r.get (p.aggregate.foreignKey l k).name
  (key.isNull = true → ∀ k ∈ s.keysOf l.terminal, held k = .null) ∧
    (key.isNull = false → key.isObject = true ∧ ∀ k ∈ s.keysOf l.terminal,
      held k = key.getD k.name ∧ (held k).isNull = false ∧ s.CouldHold l.terminal k (held k))

/-- The rows of some parts keep the keys of all references, in full or not at all. -/
def KeepKeys (s : Schema) (parts : List Part) (rows : List Row) : Prop :=
  List.Forall₂ (fun p r => ∀ l ∈ s.graph.referenceLinks p.aggregate, s.KeepsKey p r l) parts rows

variable {s : Schema} {a : Aggregate} {levels : Nat} {given : Json}

/-- What holds everywhere in a part is what holds of all parts in it. -/
theorem everywhere_iff {P : Aggregate → Json → Prop} {p : Part} :
    s.Everywhere P levels p.aggregate p.given ↔
      ∀ q ∈ s.partsWithin levels p, P q.aggregate q.given := by
  induction levels generalizing p with
  | zero => simp [Everywhere, partsWithin]
  | succ levels ih =>
    rw [Everywhere, partsWithin, List.forall_mem_cons]
    exact and_congr_right fun _ => (forall₂_congr fun q _ => ih).trans List.forall_mem_flatMap.symm

/-- If the own row of every instance is related to it, the rows of an instance are related in order to
it and its parts. -/
theorem forall₂_of_rowsOf (hg : s.graph.IsForest) {R : Part → Row → Prop}
    (hR : ∀ {levels b given p e row nests}, b ∈ s.graph.nodes →
      s.IsStored levels b given p e row nests → R ⟨b, given, p.position?⟩ row)
    (ha : a ∈ s.graph.nodes) {p : Placement} {field : String} {rows : List Row}
    (h : s.rowsOf levels a given p field = .ok rows) :
    List.Forall₂ R (s.partsWithin levels ⟨a, given, p.position?⟩) rows := by
  induction levels generalizing a given p field rows with
  | zero => cases h
  | succ levels ih =>
    obtain ⟨e, row, nests, rfl, hst⟩ := rowsOf_eq_ok ha h
    refine .cons (hR ha hst) ?_
    rw [← hst.parts, List.flatMap_map]
    refine forall₂_flatMap fun n hn => ?_
    obtain ⟨hb, -⟩ := hst.owner? hg ha hn
    obtain ⟨field', hf⟩ := hst.stored n hn
    exact ih hb hf

/-- The own row of an instance stores its references. -/
theorem IsStored.storesKeys {p : Placement} {e : Entity} {row : Row} {nests : List Nest}
    (ha : a ∈ s.graph.nodes) (hst : s.IsStored levels a given p e row nests)
    (hn : ((s.graph.referenceLinks a).map (·.name)).Nodup) :
    s.StoresKeys ⟨a, given, p.position?⟩ row := by
  have hcolumns := fun l hl => hst.isEntity.referenceColumns_eq hn (l := l) hl
  refine ⟨ha, hst.path, fun f hf => ?_, fun l hl k hk => ?_⟩
  · obtain rfl : e = f := Option.some.inj ((hst.path ▸ hst.entity).symm.trans hf)
    exact hcolumns
  · have hmem : (a.foreignKey l k, k.name) ∈ e.referenceColumns l.name := by
      rw [hcolumns l hl]
      exact List.mem_map_of_mem hk
    obtain ⟨hc, hi, -⟩ := Entity.mem_referenceColumns.1 hmem
    rw [hst.get_eq hc hi, ← Entity.keyPart_eq]
    rfl

/-- A row keeps the key of a reference exactly if it is given in full, or not at all. -/
theorem StoresKeys.keepsKey_iff {p : Part} {r : Row} (h : s.StoresKeys p r) {l : Link}
    (hl : l ∈ s.graph.referenceLinks p.aggregate) :
    s.KeepsKey p r l ↔ s.IsWholeKey l.terminal (Entity.keyIn p.given l.name) := by
  have hvalues := h.values l hl
  cases hkey : (Entity.keyIn p.given l.name).isNull with
  | true =>
    refine iff_of_true ⟨fun _ k hk => ?_, fun hn => ?_⟩ (Or.inl hkey)
    · exact (hvalues k hk).trans (by rw [Json.eq_null_of_isNull hkey]; rfl)
    · rw [hkey] at hn
      cases hn
  | false =>
    simp only [KeepsKey, IsWholeKey, hkey, Bool.false_eq_true, false_implies, true_and,
      true_implies, false_or]
    refine and_congr_right fun _ => forall₂_congr fun k hk => ?_
    rw [hvalues k hk]
    exact ⟨fun h => h.2.2, fun h => ⟨rfl, h.isNull, h⟩⟩

theorem storesKeys_of_toRows (hg : s.graph.IsForest)
    (hn : ∀ b ∈ s.graph.nodes, ((s.graph.members b).map Member.name).Nodup) {root : Path}
    (ha : s.node? root = some a) {rows : List Row} (hw : s.toRows root given = .ok rows) :
    List.Forall₂ s.StoresKeys (s.allParts a given) rows := by
  obtain ⟨-, field, row, rest, rfl, hrows, -⟩ := rowsOf_of_toRows hg ha hw
  exact forall₂_of_rowsOf hg
    (fun hb hst => hst.storesKeys hb (AggregateGraph.nodup_references (hn _ hb)))
    (Graph.mem_of_find? ha) hrows

/-- The rows keep all keys exactly if each is given in full, or not at all. -/
theorem keepKeys_iff {parts : List Part} {rows : List Row}
    (h : List.Forall₂ s.StoresKeys parts rows) : s.KeepKeys parts rows ↔
      ∀ p ∈ parts, ∀ l ∈ s.graph.referenceLinks p.aggregate,
        s.IsWholeKey l.terminal (Entity.keyIn p.given l.name) := by
  induction h with
  | nil => simp [KeepKeys]
  | cons hr _ ih =>
    rw [KeepKeys, List.forall₂_cons, List.forall_mem_cons]
    exact and_congr (forall₂_congr fun l hl => hr.keepsKey_iff hl) ih

/-- What an accepted instance has to give for its references. -/
theorem admitsKey_of_admits (ha : a ∈ s.graph.nodes)
    (hn : ((s.graph.referenceLinks a).map (·.name)).Nodup) (h : s.admits a given = true) :
    ∀ l ∈ s.graph.referenceLinks a, s.AdmitsKey given l := by
  intro l hl
  obtain ⟨e, he, hs⟩ := exists_entity ha
  have hadmits := ((admits_iff he).1 h).1 _ (AggregateGraph.reference_mem_members.2 hl)
  rw [Entity.admits, Bool.and_eq_true, List.all_eq_true] at hadmits
  refine ⟨hadmits.1, fun hr k hk => ?_⟩
  have hpart := hadmits.2 (a.foreignKey l k, k.name) ?_
  · simpa [Aggregate.foreignKey, Column.foreignKey, hr, Entity.keyPart_eq] using hpart
  · rw [hs.referenceColumns_eq hn hl]
    exact List.mem_map_of_mem hk

end Schema

namespace Draft
variable {d : Draft} {base : TypeRegistry} {s : Schema}

/-- An instance is accepted only if the key of every reference is a field of an object, and given in all
its parts where the reference is itself part of a key. What is given is stored part by part, and so
the rows keep the keys of all references, in full or not at all, exactly if every key that is given is
an object with a fitting value for every key column of the target. -/
theorem keepKeys_toRows_iff (h : d.resolve base = .ok s) (hv : s.validate = .ok ()) {root : Path}
    {a : Aggregate} (ha : s.node? root = some a) {given : Json} {rows : List Row}
    (hw : s.toRows root given = .ok rows) :
    (∀ p ∈ s.allParts a given, ∀ l ∈ s.graph.referenceLinks p.aggregate, s.AdmitsKey p.given l) ∧
      List.Forall₂ s.StoresKeys (s.allParts a given) rows ∧
      (s.KeepKeys (s.allParts a given) rows ↔ ∀ p ∈ s.allParts a given,
        ∀ l ∈ s.graph.referenceLinks p.aggregate,
          s.IsWholeKey l.terminal (Entity.keyIn p.given l.name)) := by
  have hg := isForest h
  have hn := fun b (hb : b ∈ s.graph.nodes) => nodup_members_of_validate hv hb
  have hstored := Schema.storesKeys_of_toRows hg hn ha hw
  obtain ⟨b, hb, -, -, haccepted⟩ := (Schema.exists_toRows_iff hg).1 ⟨_, hw⟩
  obtain rfl : b = a := Option.some.inj (hb.symm.trans ha)
  refine ⟨fun p hp => ?_, hstored, Schema.keepKeys_iff hstored⟩
  obtain ⟨r, -, hr⟩ := exists_of_mem_left hstored hp
  exact Schema.admitsKey_of_admits hr.node (AggregateGraph.nodup_references (hn _ hr.node))
    (Schema.everywhere_iff.1 haccepted p hp)

/-- Every key that the order gives is that of a customer, and a word. -/
theorem keepKeys_toRows_orders : ∃ s a rows, orders.resolve .standard = .ok s ∧
    s.validate = .ok () ∧ s.node? a.path = some a ∧ s.toRows a.path order = .ok rows ∧
      rows.length = 6 ∧ s.KeepKeys (s.allParts a order) rows := by
  obtain ⟨s, hs, h⟩ := exists_ok_of_any (orders.resolve .standard) (fun s =>
    s.designProblems.isEmpty && s.graph.nodes.any fun a =>
      (∀ p ∈ s.allParts a order, ∀ l ∈ s.graph.referenceLinks p.aggregate,
        (Entity.keyIn p.given l.name).isObject = true ∧ ∀ k ∈ s.keysOf l.terminal,
          ∃ m ∈ l.terminal.scalars, m.isKey = true ∧ k = Column.ofScalar l.terminal.typeName m ∧
            m.kind.admits ((Entity.keyIn p.given l.name).getD k.name) = true) ∧
      (s.toRows a.path order).toOption.any (·.length = 6)) (by decide +kernel)
  simp only [Bool.and_eq_true, List.any_eq_true, decide_eq_true_eq] at h
  obtain ⟨hd, a, ha, hkeys, hrows⟩ := h
  obtain ⟨rows, hw, hlen⟩ := exists_ok_of_any _ _ hrows
  have hnode := Schema.node?_path ha
  obtain ⟨-, -, hkeep⟩ := keepKeys_toRows_iff hs (if_pos hd) hnode hw
  refine ⟨s, a, rows, hs, if_pos hd, hnode, hw, of_decide_eq_true hlen, hkeep.2 fun p hp l hl => ?_⟩
  obtain ⟨hobject, hparts⟩ := hkeys p hp l hl
  refine Or.inr ⟨hobject, fun k hk => ?_⟩
  obtain ⟨m, hm, hkey, rfl, hadmits⟩ := hparts k hk
  exact ⟨_, .scalar hm hkey, hadmits⟩

/-- Orders of customers with a key of two parts. -/
def regionalOrders : Draft where
  declarations := [
    .aggregate "/Customer" none
      [⟨"region", "word", true, false, false⟩, ⟨"id", "word", true, false, false⟩],
    .aggregate "/Order" none [⟨"number", "integer", true, false, false⟩],
    .reference "customer" "/Order" "/Customer" false false]
  enumerations := []

/-- An order of the customer with the given key. -/
def orderOf (key : Json) : Json :=
  .ofFields [("number", .integer 1), ("customer", .ofFields [("key", key)])]

/-- Keys that are stored although no customer could have them: a number, one part alone, and both parts
with one of another kind. -/
def unfitKeys : List Json := [.integer 5, .ofFields [("region", .string "north")],
  .ofFields [("region", .string "north"), ("id", .integer 7)]]

theorem not_keepKeys_of_draft : ∃ s a, regionalOrders.resolve .standard = .ok s ∧
    s.validate = .ok () ∧ s.node? a.path = some a ∧ ∀ key ∈ unfitKeys, ∃ rows,
      s.toRows a.path (orderOf key) = .ok rows ∧ ¬ s.KeepKeys (s.allParts a (orderOf key)) rows := by
  obtain ⟨s, hs, h⟩ := exists_ok_of_any (regionalOrders.resolve .standard) (fun s =>
    s.designProblems.isEmpty && s.graph.nodes.any fun a => ∀ key ∈ unfitKeys,
      (s.toRows a.path (orderOf key)).toOption.isSome ∧
      ∃ p ∈ s.allParts a (orderOf key), ∃ l ∈ s.graph.referenceLinks p.aggregate,
        (Entity.keyIn p.given l.name).isNull = false ∧ ∃ k ∈ s.keysOf l.terminal,
          ∃ m ∈ l.terminal.scalars, m.isKey = true ∧ k = Column.ofScalar l.terminal.typeName m ∧
            m.kind.admits ((Entity.keyIn p.given l.name).getD k.name) = false) (by decide +kernel)
  simp only [Bool.and_eq_true, List.any_eq_true, decide_eq_true_eq] at h
  obtain ⟨hd, a, ha, hunfit⟩ := h
  have hg := isForest hs
  have hn := fun b (hb : b ∈ s.graph.nodes) => nodup_members_of_validate (if_pos hd) hb
  refine ⟨s, a, hs, if_pos hd, Schema.node?_path ha, fun key hkey => ?_⟩
  obtain ⟨hrows, p, hp, l, hl, hnull, k, hk, m, hm, hmk, rfl, hadmits⟩ := hunfit key hkey
  obtain ⟨rows, hw, -⟩ := exists_ok_of_any _ (fun _ => true) (by simpa using hrows)
  have hstored := Schema.storesKeys_of_toRows hg hn (Schema.node?_path ha) hw
  refine ⟨rows, hw, fun hkeep => ?_⟩
  rcases (Schema.keepKeys_iff hstored).1 hkeep p hp l hl with h | ⟨-, h⟩
  · rw [hnull] at h
    cases h
  · have ht := Schema.terminal_mem_of_reference_mem (AggregateGraph.reference_mem_members.2 hl)
    have hfits := ((Schema.HasSource.scalar hm hmk).couldHold_iff hg hn ht).1 (h _ hk)
    rw [KeySource.admits, hadmits] at hfits
    cases hfits

end Draft

end AggregateSchema
