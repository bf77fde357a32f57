import AggregateSchema.Proofs.Reading
import AggregateSchema.Proofs.RoundTrip

/-! Rows of one instance make no difference for what another one is restored to. -/
namespace AggregateSchema

/-- Items put into a list make no difference for a filter that takes none of them. -/
theorem filter_eq_of_insert {α : Type} {xs ys inserted : List α} (hsub : xs.Sublist ys)
    (hperm : ys.Perm (xs ++ inserted)) {p : α → Bool} (hp : ∀ y ∈ inserted, p y = false) :
    ys.filter p = xs.filter p := by
  have hnone : inserted.filter p = [] := List.filter_eq_nil_iff.2 fun y hy => by simp [hp y hy]
  have hlength := (hperm.filter p).length_eq
  rw [List.filter_append, hnone, List.append_nil] at hlength
  exact ((hsub.filter p).eq_of_length hlength.symm).symm

/-- What is owned by an aggregate, or by one that it owns, is owned by it. -/
theorem AggregateGraph.IsForest.mem_ancestors_of_owned {g : AggregateGraph} (hg : g.IsForest)
    {a b c : Aggregate} (hcb : g.owner? c = some b) (hab : b = a ∨ a ∈ g.ancestors b) :
    a ∈ g.ancestors c := by
  rw [hg.ancestors_of_owner? hcb, List.mem_append, List.mem_singleton]
  exact hab.symm.imp_right Eq.symm

namespace Schema
variable {s : Schema} {a b : Aggregate}

/-- A row that belongs to no instance whose root row is `row`: it is not one of a root, and it is of an
aggregate that the root does not own, or differs from the root row in a column of the root's key. -/
structure IsForeign (s : Schema) (a : Aggregate) (row t : Row) : Prop where
  path : t.path ≠ a.path
  apart : (∀ b ∈ s.graph.nodes, b.path = t.path → a ∉ s.graph.ancestors b) ∨ s.Apart a row t

instance (s : Schema) (a : Aggregate) (row t : Row) : Decidable (s.Apart a row t) :=
  inferInstanceAs (Decidable (∃ k ∈ s.keysOf a, _ = false))

instance (s : Schema) (a : Aggregate) (row t : Row) : Decidable (s.IsForeign a row t) :=
  decidable_of_iff (t.path ≠ a.path ∧
      ((∀ b ∈ s.graph.nodes, b.path = t.path → a ∉ s.graph.ancestors b) ∨ s.Apart a row t))
    ⟨fun h => ⟨h.1, h.2⟩, fun h => ⟨h.path, h.apart⟩⟩

/-- A row of an aggregate, or of one that it owns, has the key of the row `row`. -/
def HasKey (s : Schema) (a : Aggregate) (row t : Row) : Prop :=
  ∀ k ∈ s.keysOf a, (s.valueAt row k.origin).same (s.valueAt t k.origin) = true

/-- The key of the root goes down from a row to those that are nested in it. -/
theorem HasKey.of_isNestedIn (hg : s.graph.IsForest) (hb : b ∈ s.graph.nodes)
    (hab : b = a ∨ a ∈ s.graph.ancestors b) {row q t : Row} (hq : q.path = b.path)
    (hkey : s.HasKey a row q) {c : Aggregate} (hc : c ∈ s.graph.nodes)
    (hcb : s.graph.owner? c = some b) {e f : Entity} (he : s.IsEntityOf e b) (hf : s.IsEntityOf f c)
    (ht : t.path = c.path) (hn : f.isNestedIn t e q = true) : s.HasKey a row t := by
  intro k hk
  obtain ⟨d, hd, ho⟩ := exists_mem_keysOf_of_origin hg hb hab hk
  have hsame := (he.isNestedIn_iff hg hb hc hcb hf hq ht).1 hn d hd
  rw [ho] at hsame
  exact Json.same_trans (hkey k hk) hsame

section
variable {rows rows' foreign : List Row} {row : Row}
  (hsub : rows.Sublist rows') (hperm : rows'.Perm (rows ++ foreign))
  (hforeign : ∀ t ∈ foreign, s.IsForeign a row t)
include hsub hperm hforeign

/-- No foreign row is found for an edge within the instance. -/
theorem nestedRows_insert (hg : s.graph.IsForest) (hb : b ∈ s.graph.nodes)
    (hab : b = a ∨ a ∈ s.graph.ancestors b) {q : Row} (hq : q.path = b.path)
    (hkey : s.HasKey a row q) {c : Aggregate} (hc : c ∈ s.graph.nodes)
    (hcb : s.graph.owner? c = some b) {e f : Entity} (he : s.IsEntityOf e b)
    (hf : s.IsEntityOf f c) : f.nestedRows rows' e q = f.nestedRows rows e q := by
  have hnone : ∀ t ∈ foreign, (decide (t.path = f.path) && f.isNestedIn t e q) = false := by
    intro t ht
    by_contra h
    rw [Bool.not_eq_false, Bool.and_eq_true, decide_eq_true_eq, hf.path] at h
    rcases (hforeign t ht).apart with hnot | ⟨k, hk, hd⟩
    · exact hnot c hc h.1.symm (hg.mem_ancestors_of_owned hcb hab)
    · rw [hkey.of_isNestedIn hg hb hab hq hc hcb he hf h.1 h.2 k hk] at hd
      cases hd
  rw [Entity.nestedRows, Entity.nestedRows, filter_eq_of_insert hsub hperm hnone]

/-- An instance is restored alike from its row, be there foreign rows or not. -/
theorem instanceOf_insert (hg : s.graph.IsForest) {levels : Nat} (hb : b ∈ s.graph.nodes)
    (hab : b = a ∨ a ∈ s.graph.ancestors b) {q : Row} (hq : q.path = b.path)
    (hkey : s.HasKey a row q) : s.instanceOf rows' levels b q = s.instanceOf rows levels b q := by
  -- The key of the root row is what the induction hands down.
  induction levels generalizing b q with
  | zero => rfl
  | succ levels ih =>
    obtain ⟨e, he, hs⟩ := exists_entity hb
    refine instanceOf_congr he fun m hm l hl => ?_
    have hc := AggregateGraph.terminal_mem_of_mem_links hm hl
    have hcb := hg.owner?_of_mem_links hb hm hl
    obtain ⟨f, hf, hfs⟩ := exists_entity hc
    have hn := nestedRows_insert hsub hperm hforeign hg hb hab hq hkey hc hcb hs hfs
    refine ⟨f, hf, hn, fun t ht => ?_⟩
    obtain ⟨-, hpath, hnested⟩ := Entity.mem_nestedRows.1 (hn ▸ ht)
    rw [hfs.path] at hpath
    exact ih hc (Or.inr (hg.mem_ancestors_of_owned hcb hab)) hpath
      (hkey.of_isNestedIn hg hb hab hq hc hcb hs hfs hpath hnested)

end

end Schema

namespace Draft
variable {d : Draft} {base : TypeRegistry} {s : Schema}

/-- Instances do not mix: rows that are put anywhere among those of an instance, and that are of other
aggregates or have another root key, do not change what is restored. -/
theorem fromRows_insert (h : d.resolve base = .ok s) {root : Path} {a : Aggregate}
    (ha : s.node? root = some a) {rows : List Row} {row : Row}
    (hrow : rows.filter (·.path = root) = [row]) {rows' foreign : List Row}
    (hsub : rows.Sublist rows') (hperm : rows'.Perm (rows ++ foreign))
    (hforeign : ∀ t ∈ foreign, s.IsForeign a row t) :
    s.fromRows root rows' = s.fromRows root rows := by
  have hpath : a.path = root := Graph.id_of_find? ha
  have hroots : rows'.filter (·.path = root) = [row] := by
    rw [← hrow]
    exact filter_eq_of_insert hsub hperm fun t ht =>
      decide_eq_false (hpath ▸ (hforeign t ht).path)
  have hq : row.path = a.path := by
    have hmem : row ∈ rows.filter (·.path = root) := hrow ▸ List.mem_singleton_self row
    rw [hpath]
    exact of_decide_eq_true (List.mem_filter.1 hmem).2
  refine bind_congr_of_ok fun b hb => ?_
  obtain rfl : b = a := Option.some.inj ((Schema.rootAt_eq_ok hb).1.symm.trans ha)
  rw [hroots, hrow]
  exact Schema.instanceOf_insert hsub hperm hforeign (isForest h) (Graph.mem_of_find? ha)
    (Or.inl rfl) hq fun k _ => Json.same_refl _

/-- What is owned by an order of the same number, but of another customer. -/
theorem fromRows_insert_orders : ∃ s a rows row foreign, orders.resolve .standard = .ok s ∧
    s.node? a.path = some a ∧ rows.filter (·.path = a.path) = [row] ∧ foreign.length = 5 ∧
      (∀ t ∈ foreign, s.IsForeign a row t) ∧
      s.fromRows a.path (foreign ++ rows) = s.fromRows a.path rows := by
  let other : Json := .ofFields [("number", .integer 1),
    ("customer", .ofFields [("key", .ofFields [("id", .string "c2")])]),
    ("Line", .array [.ofFields [("text", .string "third")], .ofFields []])]
  obtain ⟨s, hs, h⟩ := exists_ok_of_any (orders.resolve .standard) (fun s => s.graph.nodes.any
    fun a => (s.toRows a.path order).toOption.any fun rows =>
      (s.toRows a.path other).toOption.any fun others =>
        others.tail.length = 5 ∧ (rows.filter (·.path = a.path)).length = 1 ∧
          ∀ row ∈ rows.filter (·.path = a.path), ∀ t ∈ others.tail, s.IsForeign a row t)
    (by decide +kernel)
  obtain ⟨a, ha, h⟩ := List.any_eq_true.1 h
  obtain ⟨rows, -, h⟩ := exists_ok_of_any _ _ h
  obtain ⟨others, -, h⟩ := exists_ok_of_any _ _ h
  obtain ⟨hlen, hone, hforeign⟩ := of_decide_eq_true h
  obtain ⟨row, hrow⟩ := List.length_eq_one_iff.1 hone
  have hforeign := hforeign row (hrow ▸ List.mem_singleton_self row)
  have hnode := Schema.node?_path ha
  exact ⟨s, a, rows, row, others.tail, hs, hnode, hrow, hlen, hforeign,
    fromRows_insert hs hnode hrow (List.sublist_append_right _ _) List.perm_append_comm hforeign⟩

end Draft

end AggregateSchema
