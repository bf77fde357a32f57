import AggregateSchema.Proofs.Columns
import AggregateSchema.Proofs.OwnedLinks
import AggregateSchema.View
import Mathlib.Data.List.Flatten

/-! Instances of an aggregate: what is nested in them, and the form in which they are restored. -/
namespace AggregateSchema

/-- The items of a list; what is no list has none. -/
def Json.items : Json → List Json
  | .array items => items
  | _ => []

/-- The value of an own column in an instance at a position of its list. -/
def Column.givenValue (c : Column) (given : Json) (position : Nat) : Json :=
  match c.role with
  | .sequence => .ofNat position
  | .foreignKey reference _ column =>
    (((given.getD reference).get? "key").bind (·.get? column)).getD .null
  | .value | .discriminator => given.getD c.name

/-- An instance nested in another one; an item of a list has a position. -/
structure Part where
  aggregate : Aggregate
  given : Json
  position? : Option Nat

/-- The position of an item in its list; what is in no list counts as the first. -/
def Part.index (p : Part) : Nat := p.position?.getD 0

/-- Two parts differ in a key column of their own. -/
def Part.Differs (s : Schema) (p q : Part) : Prop :=
  ∃ c ∈ s.ownKeys p.aggregate,
    (c.givenValue p.given p.index).same (c.givenValue q.given q.index) = false

instance (s : Schema) (p q : Part) : Decidable (p.Differs s q) :=
  inferInstanceAs (Decidable (∃ c ∈ s.ownKeys p.aggregate, _ = false))

namespace Member

/-- What a member of an instance nests in it. -/
def parts (given : Json) : Member → List Part
  | child l => [⟨l.terminal, given.getD l.name, none⟩]
  | children l =>
    (given.getD l.name).items.zipIdx.map fun (item, i) => ⟨l.terminal, item, some i⟩
  | variation v => v.variants.map fun (_, l) =>
    ⟨l.terminal, given.getD (variantFieldName v.name l.terminal.path), none⟩
  | scalar _ | reference _ => []

theorem map_parts_children {α : Type} (given : Json) (l : Link) (f : Json → α) :
    ((children l).parts given).map (fun q => f q.given) = (given.getD l.name).items.map f := by
  rw [parts, List.map_map]
  conv_rhs => rw [← List.zipIdx_map_fst 0 (given.getD l.name).items, List.map_map]
  rfl

/-- No two items of a list have the same values in all key columns of their own. -/
def ItemsDiffer (s : Schema) (given : Json) : Member → Prop
  | children l => ((children l).parts given).Pairwise (Part.Differs s)
  | _ => True

instance (s : Schema) (given : Json) : (m : Member) → Decidable (ItemsDiffer s given m)
  | children _ => inferInstanceAs (Decidable (List.Pairwise _ _))
  | scalar _ | child _ | variation _ | reference _ => isTrue trivial

/-- Every item of a list has a position in the range of 64 signed bits. -/
def HasPositions (given : Json) : Member → Prop
  | children l => (given.getD l.name).items.length ≤ int64Bound
  | _ => True

instance (given : Json) : (m : Member) → Decidable (HasPositions given m)
  | children _ => inferInstanceAs (Decidable (_ ≤ _))
  | scalar _ | child _ | variation _ | reference _ => isTrue trivial

end Member

namespace Schema

/-- What holds of an instance and of everything nested in it, down to at most `levels` levels. -/
def Everywhere (s : Schema) (P : Aggregate → Json → Prop) : Nat → Aggregate → Json → Prop
  | 0, _, _ => True
  | levels + 1, a, given => P a given ∧
    ∀ p ∈ (s.graph.members a).flatMap (Member.parts given), Everywhere s P levels p.aggregate p.given

instance Everywhere.decidable (s : Schema) (P : Aggregate → Json → Prop)
    [∀ a given, Decidable (P a given)] :
    (levels : Nat) → (a : Aggregate) → (given : Json) → Decidable (s.Everywhere P levels a given)
  | 0, _, _ => isTrue trivial
  | levels + 1, a, given =>
    have := Everywhere.decidable s P levels
    inferInstanceAs (Decidable (_ ∧ ∀ p ∈ (s.graph.members a).flatMap (Member.parts given),
      s.Everywhere P levels p.aggregate p.given))

/-- No two items of one list, wherever it is in an instance, have one key of their own. -/
def DistinctItems (s : Schema) (a : Aggregate) (given : Json) : Prop :=
  s.Everywhere (fun b v => ∀ m ∈ s.graph.members b, m.ItemsDiffer s v) s.graph.nodes.length a given

instance (s : Schema) (a : Aggregate) (given : Json) : Decidable (s.DistinctItems a given) :=
  inferInstanceAs (Decidable (s.Everywhere _ _ _ _))

/-- No list in an instance is longer than the positions that there are for its items. -/
def ListsFit (s : Schema) (a : Aggregate) (given : Json) : Prop :=
  s.Everywhere (fun b v => ∀ m ∈ s.graph.members b, m.HasPositions v) s.graph.nodes.length a given

instance (s : Schema) (a : Aggregate) (given : Json) : Decidable (s.ListsFit a given) :=
  inferInstanceAs (Decidable (s.Everywhere _ _ _ _))

/-- In an aggregate and in what is nested in it, the references of one aggregate have distinct
names. -/
def DistinctReferences (s : Schema) (a : Aggregate) : Prop :=
  ∀ b ∈ s.graph.nodes, (b = a ∨ a ∈ s.graph.ancestors b) →
    ((s.graph.referenceLinks b).map (·.name)).Nodup

instance (s : Schema) (a : Aggregate) : Decidable (s.DistinctReferences a) :=
  inferInstanceAs (Decidable (∀ b ∈ s.graph.nodes, _ → _))

/-- The items of every list in an aggregate are told apart by their positions. -/
def Sequenced (s : Schema) (a : Aggregate) : Prop :=
  ∀ b ∈ s.graph.nodes, a ∈ s.graph.ancestors b → s.graph.isRepeated b = true →
    ((s.entity? b.path).bind (·.sequenceColumn?)).isSome = true

instance (s : Schema) (a : Aggregate) : Decidable (s.Sequenced a) :=
  inferInstanceAs (Decidable (∀ b ∈ s.graph.nodes, _ → _ → _))

/-- The key of a reference in full, or null if no part of it is given. -/
def canonicalKey (s : Schema) (target : Aggregate) (given : Json) : Json :=
  let parts := (s.keysOf target).map fun k =>
    (k.name, ((given.get? "key").bind (·.get? k.name)).getD .null)
  if parts.all (·.2.isNull) then .null
  else .ofFields [("key", .ofFields parts), ("text", .null)]

/-- The value of a field of the detail of an instance in full; `within` gives what is nested in it. -/
def canonicalField (s : Schema) (within : Aggregate → Json → Json) (given : Json) (f : ViewField) :
    Json :=
  match f.kind with
  | .nested path => match s.node? path with
    | some b => within b (given.getD f.name)
    | none => .null
  | .nestedList path => match s.node? path with
    | some b => .array ((given.getD f.name).items.map (within b))
    | none => .array []
  | .keyAndText path => match s.node? path with
    | some b => s.canonicalKey b (given.getD f.name)
    | none => .null
  | _ => given.getD f.name

/-- An instance in full, by the fields of its detail: absent values are null, absent lists empty,
absent objects without fields, and unknown fields left out. Of what is nested in it at most `levels`
levels are kept. -/
def canonicalWithin (s : Schema) : Nat → Aggregate → Json → Json
  | 0, _, _ => .null
  | levels + 1, a, given => .ofFields ((s.graph.detailFields a).map fun f =>
    (f.name, s.canonicalField (canonicalWithin s levels) given f))

/-- An instance in full. Nesting is less deep than there are aggregates, and so nothing is cut off. -/
def canonical (s : Schema) (a : Aggregate) (given : Json) : Json :=
  s.canonicalWithin s.graph.nodes.length a given

variable {s : Schema} {a : Aggregate}

section
variable {within : Aggregate → Json → Json} {given : Json} {name : String} {path : Path}
  {default? : Option String} {b : Aggregate} (h : s.node? path = some b)
include h

theorem canonicalField_nested :
    s.canonicalField within given ⟨name, .nested path, default?⟩ = within b (given.getD name) := by
  simp [canonicalField, h]

theorem canonicalField_nestedList :
    s.canonicalField within given ⟨name, .nestedList path, default?⟩ =
      .array ((given.getD name).items.map (within b)) := by
  simp [canonicalField, h]

theorem canonicalField_keyAndText :
    s.canonicalField within given ⟨name, .keyAndText path, default?⟩ =
      s.canonicalKey b (given.getD name) := by
  simp [canonicalField, h]

end

/-- What is nested by a member is what an edge of the member leads to. -/
theorem exists_link_of_mem_parts {given : Json} {m : Member} {p : Part} (hp : p ∈ m.parts given) :
    ∃ l ∈ m.links, p.aggregate = l.terminal := by
  cases m with
  | child l =>
    obtain rfl := List.mem_singleton.1 hp
    exact ⟨l, List.mem_singleton_self l, rfl⟩
  | children l =>
    obtain ⟨x, _, rfl⟩ := List.mem_map.1 hp
    exact ⟨l, List.mem_singleton_self l, rfl⟩
  | variation v =>
    obtain ⟨x, hx, rfl⟩ := List.mem_map.1 hp
    exact ⟨x.2, List.mem_map_of_mem hx, rfl⟩
  | _ => cases hp

theorem node?_path (ha : a ∈ s.graph.nodes) : s.node? a.path = some a := s.graph.node?_id ha

/-- The aggregate that an owning edge leads to is found by its path. -/
theorem node?_terminal {m : Member} (hm : m ∈ s.graph.members a) {l : Link} (hl : l ∈ m.links) :
    s.node? l.terminal.path = some l.terminal :=
  node?_path (AggregateGraph.terminal_mem_of_mem_links hm hl)

/-- What is nested in an instance is owned by its aggregate. -/
theorem owner?_of_mem_parts (hg : s.graph.IsForest) (ha : a ∈ s.graph.nodes) {given : Json}
    {p : Part} (hp : p ∈ (s.graph.members a).flatMap (Member.parts given)) :
    p.aggregate ∈ s.graph.nodes ∧ s.graph.owner? p.aggregate = some a := by
  obtain ⟨m, hm, hp⟩ := List.mem_flatMap.1 hp
  obtain ⟨l, hl, he⟩ := exists_link_of_mem_parts hp
  rw [he]
  exact ⟨AggregateGraph.terminal_mem_of_mem_links hm hl, hg.owner?_of_mem_links ha hm hl⟩

/-- All parts of one aggregate come from the member that leads to it. -/
theorem filter_parts (hg : s.graph.IsForest) (given : Json) {m : Member}
    (hm : m ∈ s.graph.members a) {l : Link} (hl : l ∈ m.links) :
    ((s.graph.members a).flatMap (Member.parts given)).filter
        (·.aggregate.path = l.terminal.path) =
      (m.parts given).filter (·.aggregate.path = l.terminal.path) := by
  refine filter_flatMap_of_nodup (fun p : Part => p.aggregate.path) (hg.nodup_terminals a)
    (fun n _ p hp => ?_) hm (List.mem_map_of_mem hl)
  obtain ⟨k, hk, he⟩ := exists_link_of_mem_parts hp
  rw [he]
  exact List.mem_map_of_mem hk

/-- The parts that one edge leads to: a single one, or the items of a list. -/
inductive PartsOf (given : Json) : Member → Link → List Part → Prop
  | child (l : Link) : PartsOf given (.child l) l [⟨l.terminal, given.getD l.name, none⟩]
  | variant (v : VariationGroup) (tag : Int) (l : Link) (h : (tag, l) ∈ v.variants) :
    PartsOf given (.variation v) l
      [⟨l.terminal, given.getD (variantFieldName v.name l.terminal.path), none⟩]
  | children (l : Link) : PartsOf given (.children l) l ((Member.children l).parts given)

theorem partsOf_filter (hg : s.graph.IsForest) (given : Json) {m : Member}
    (hm : m ∈ s.graph.members a) {l : Link} (hl : l ∈ m.links) :
    PartsOf given m l (((s.graph.members a).flatMap (Member.parts given)).filter
      (·.aggregate.path = l.terminal.path)) := by
  rw [filter_parts hg given hm hl]
  cases m with
  | child k =>
    obtain rfl := List.mem_singleton.1 hl
    rw [Member.parts, List.filter_cons_of_pos (by simp), List.filter_nil]
    exact PartsOf.child l
  | children k =>
    obtain rfl := List.mem_singleton.1 hl
    rw [List.filter_eq_self.2]
    · exact PartsOf.children l
    · intro p hp
      obtain ⟨x, _, rfl⟩ := List.mem_map.1 hp
      exact decide_eq_true rfl
  | variation v =>
    obtain ⟨⟨tag, k⟩, hx, rfl⟩ := List.mem_map.1 hl
    have hn : (v.variants.map (·.2.terminal.path)).Nodup := by
      have hsub := List.sublist_flatten_of_mem (List.mem_map_of_mem
        (f := fun m : Member => m.links.map (·.terminal.path)) hm)
      simpa [Member.links, Function.comp_def] using (hg.nodup_terminals a).sublist hsub
    have hone := filter_key_eq_singleton _ hn hx
    rw [Member.parts, List.filter_map]
    have hf : v.variants.filter ((fun p : Part => decide (p.aggregate.path = k.terminal.path)) ∘
        fun x => ⟨x.2.terminal, given.getD (variantFieldName v.name x.2.terminal.path), none⟩) =
          [(tag, k)] := hone
    rw [hf]
    exact PartsOf.variant v tag k hx
  | _ => cases hl

theorem pairwise_index_children (given : Json) (l : Link) :
    ((Member.children l).parts given).Pairwise fun p q => p.index < q.index := by
  rw [Member.parts, List.pairwise_map]
  have hi := List.pairwise_lt_range' (s := 0) (n := (given.getD l.name).items.length)
  rw [← List.zipIdx_map_snd, List.pairwise_map] at hi
  exact hi

/-- Parts of one edge have growing positions. -/
theorem PartsOf.pairwise_index {given : Json} {m : Member} {l : Link} {ps : List Part}
    (h : PartsOf given m l ps) : ps.Pairwise fun p q => p.index < q.index := by
  cases h with
  | child => exact List.pairwise_singleton _ _
  | variant => exact List.pairwise_singleton _ _
  | children => exact pairwise_index_children given l

/-- Parts of one edge differ if the items of lists do. -/
theorem PartsOf.pairwise_differs {given : Json} {m : Member} {l : Link} {ps : List Part}
    (h : PartsOf given m l ps) (hd : m.ItemsDiffer s given) : ps.Pairwise (Part.Differs s) := by
  cases h with
  | child => exact List.pairwise_singleton _ _
  | variant => exact List.pairwise_singleton _ _
  | children => exact hd

theorem PartsOf.index_lt {given : Json} {m : Member} {l : Link} {ps : List Part}
    (h : PartsOf given m l ps) (hm : m.HasPositions given) : ∀ p ∈ ps, p.index < int64Bound := by
  intro p hp
  cases h with
  | child =>
    obtain rfl := List.mem_singleton.1 hp
    exact int64Bound_pos
  | variant =>
    obtain rfl := List.mem_singleton.1 hp
    exact int64Bound_pos
  | children =>
    obtain ⟨⟨item, i⟩, hx, rfl⟩ := List.mem_map.1 hp
    have hi : i < (given.getD l.name).items.length := by
      simpa using List.snd_lt_of_mem_zipIdx hx
    exact Nat.lt_of_lt_of_le hi hm

/-- What is nested as the items of a list is repeated. -/
theorem isRepeated_of_children_mem (hg : s.graph.IsForest) {l : Link}
    (hm : Member.children l ∈ s.graph.members a) : s.graph.isRepeated l.terminal = true := by
  have hl := AggregateGraph.mem_ownedLinks_of_mem_links hm (List.mem_singleton_self l)
  obtain ⟨he, -, ho⟩ := AggregateGraph.mem_ownedLinks.1 hl
  rw [AggregateGraph.isRepeated, hg.ownerLink?_eq_some he ho]
  exact congrArg Relation.isRepeated (AggregateGraph.relation_of_children_mem hm)

/-- Only the items of a list are more than one. -/
theorem PartsOf.length_le (hg : s.graph.IsForest) {given : Json} {m : Member}
    (hm : m ∈ s.graph.members a) {l : Link} {ps : List Part} (h : PartsOf given m l ps) :
    ps.length ≤ 1 ∨ s.graph.isRepeated l.terminal = true := by
  cases h with
  | child => exact Or.inl (Nat.le_refl 1)
  | variant => exact Or.inl (Nat.le_refl 1)
  | children => exact Or.inr (isRepeated_of_children_mem hg hm)

theorem mem_ancestors_of_owner? (hg : s.graph.IsForest) {b c : Aggregate} (hb : b ∈ s.graph.nodes)
    (hc : s.graph.owner? c = some a) (h : b = c ∨ c ∈ s.graph.ancestors b) :
    a ∈ s.graph.ancestors b := by
  induction hb using hg.induction with
  | root b hb hr =>
    rw [AggregateGraph.ancestors_of_root hr] at h
    rcases h with rfl | h
    · rw [hr] at hc
      cases hc
    · cases h
  | owned b hb o ho hbo ih =>
    rw [hg.ancestors_of_owner? hbo, List.mem_append, List.mem_singleton] at h ⊢
    rcases h with rfl | h | rfl
    · rw [hbo] at hc
      exact Or.inr (Option.some.inj hc).symm
    · exact Or.inl (ih (Or.inr h))
    · exact Or.inl (ih (Or.inl rfl))

/-- Every reference has a field of its name. -/
theorem names_sublist_detailFields (s : Schema) (a : Aggregate) :
    ((s.graph.referenceLinks a).map (·.name)).Sublist
      ((s.graph.detailFields a).map ViewField.name) := by
  rw [← AggregateGraph.flatMap_references, AggregateGraph.detailFields, List.map_flatMap,
    List.map_flatMap]
  apply List.Sublist.flatMap_right
  intro m _
  cases m with
  | reference l => exact List.Sublist.refl _
  | _ => exact List.nil_sublist _

theorem DistinctReferences.of_owner? (hg : s.graph.IsForest) {c : Aggregate}
    (hc : s.graph.owner? c = some a) (h : s.DistinctReferences a) : s.DistinctReferences c :=
  fun b hb hbc => h b hb (Or.inr (mem_ancestors_of_owner? hg hb hc hbc))

theorem Sequenced.of_owner? (hg : s.graph.IsForest) {c : Aggregate}
    (hc : s.graph.owner? c = some a) (h : s.Sequenced a) : s.Sequenced c :=
  fun b hb hbc => h b hb (mem_ancestors_of_owner? hg hb hc (Or.inr hbc))

theorem Sequenced.exists_column (hg : s.graph.IsForest) (ha : a ∈ s.graph.nodes)
    (h : s.Sequenced a) {m : Member} (hm : m ∈ s.graph.members a) {l : Link} (hl : l ∈ m.links)
    (hr : s.graph.isRepeated l.terminal = true) {f : Entity}
    (hf : s.entity? l.terminal.path = some f) : ∃ c, f.sequenceColumn? = some c := by
  have hb := AggregateGraph.terminal_mem_of_mem_links hm hl
  have hbo := hg.owner?_of_mem_links ha hm hl
  have hsome := h l.terminal hb (mem_ancestors_of_owner? hg hb hbo (Or.inl rfl)) hr
  rw [hf, Option.bind_some] at hsome
  exact Option.isSome_iff_exists.1 hsome

end Schema

end AggregateSchema
