import AggregateSchema.Proofs.DistinctKeys
import AggregateSchema.Proofs.Reading

/-! The order in which the rows of an instance are stored: it only matters for the order of the items of
lists that have no positions. -/
namespace AggregateSchema

theorem Entity.nestedRows_perm (f e : Entity) (rows : List Row) (row : Row) :
    (f.nestedRows rows e row).Perm
      (rows.filter fun r => r.path = f.path && f.isNestedIn r e row) := by
  rw [nestedRows]
  cases f.sequenceColumn? with
  | none => exact List.Perm.refl _
  | some c => exact List.mergeSort_perm _ _

namespace Schema

/-- The items of a list of the aggregate have a position each. -/
def HasSequence (s : Schema) (b : Aggregate) : Prop :=
  ((s.entity? b.path).bind (·.sequenceColumn?)).isSome = true

/-- The rows of an aggregate that are nested in one row of its owner come in the same order in two lists
of rows, if they have no positions. -/
def KeepsOrder (s : Schema) (rows rows' : List Row) (b : Aggregate) : Prop :=
  ∀ f ∈ s.entity? b.path, f.sequenceColumn? = none → ∀ o ∈ s.graph.owner? b,
    ∀ e ∈ s.entity? o.path, ∀ q ∈ rows, q.path = o.path →
      (rows.filter fun r => r.path = f.path && f.isNestedIn r e q) =
        rows'.filter fun r => r.path = f.path && f.isNestedIn r e q

/-- The rows of every list that has no positions come in the same order. -/
def SameListOrder (s : Schema) (rows rows' : List Row) : Prop :=
  ∀ b ∈ s.graph.nodes, s.graph.isRepeated b = true → s.KeepsOrder rows rows' b

/-- Two values of a field that differ at most in the order of items: those of a list may come in
another order, unless `keeps` says that they do not, and what is nested is alike by `alike`. -/
def AlikeField (s : Schema) (keeps : Aggregate → Prop) (alike : Aggregate → Json → Json → Prop)
    (f : ViewField) (v w : Json) : Prop :=
  match f.kind with
  | .nested path => ∃ b, s.node? path = some b ∧ alike b v w
  | .nestedList path => ∃ b xs ys zs, s.node? path = some b ∧ v = .array xs ∧ w = .array ys ∧
    List.Forall₂ (alike b) xs zs ∧ zs.Perm ys ∧ (keeps b → zs = ys)
  | _ => v = w

/-- Two instances, by the fields of their detail, that differ at most in the order of items. -/
def AlikeWithin (s : Schema) (keeps : Aggregate → Prop) : Nat → Aggregate → Json → Json → Prop
  | 0, _, v, w => v = w
  | levels + 1, a, v, w => ∃ x y : ViewField → Json,
    v = .ofFields ((s.graph.detailFields a).map fun f => (f.name, x f)) ∧
    w = .ofFields ((s.graph.detailFields a).map fun f => (f.name, y f)) ∧
    ∀ f ∈ s.graph.detailFields a, s.AlikeField keeps (AlikeWithin s keeps levels) f (x f) (y f)

/-- Two instances that differ at most in the order of the items of lists that have no positions. -/
def Alike (s : Schema) (a : Aggregate) (v w : Json) : Prop :=
  s.AlikeWithin s.HasSequence s.graph.nodes.length a v w

variable {s : Schema} {a : Aggregate} {e : Entity} {keeps : Aggregate → Prop}

section
variable {alike : Aggregate → Json → Json → Prop} {name : String} {path : Path}
  {default? : Option String} {b : Aggregate} (h : s.node? path = some b)
include h

theorem alikeField_nested {v w : Json} (hv : alike b v w) :
    s.AlikeField keeps alike ⟨name, .nested path, default?⟩ v w := ⟨b, h, hv⟩

theorem alikeField_nestedList {within within' : Row → Json} {ts us : List Row} (hp : ts.Perm us)
    (hk : keeps b → ts = us) (ht : ∀ t ∈ ts, alike b (within t) (within' t)) :
    s.AlikeField keeps alike ⟨name, .nestedList path, default?⟩ (.array (ts.map within))
      (.array (us.map within')) := by
  refine ⟨b, ts.map within, us.map within', ts.map within', h, rfl, rfl, ?_, hp.map _, fun hb => ?_⟩
  · rw [List.forall₂_map_left_iff, List.forall₂_map_right_iff, List.forall₂_same]
    exact ht
  · rw [hk hb]

end

theorem AlikeField.eq {alike : Aggregate → Json → Json → Prop} (hk : ∀ b, keeps b)
    (ha : ∀ b v w, alike b v w → v = w) {f : ViewField} {v w : Json}
    (h : s.AlikeField keeps alike f v w) : v = w := by
  obtain ⟨name, kind, default?⟩ := f
  cases kind with
  | nested path =>
    obtain ⟨b, -, hb⟩ := h
    exact ha b v w hb
  | nestedList path =>
    obtain ⟨b, xs, ys, zs, -, rfl, rfl, hb, -, hys⟩ := h
    obtain rfl := hys (hk b)
    have hxs : xs = zs := by
      rw [← List.forall₂_eq_eq_eq]
      exact hb.imp (ha b)
    rw [hxs]
  | _ => exact h

/-- Where all lists keep their order, instances that are alike are equal. -/
theorem AlikeWithin.eq (hk : ∀ b, keeps b) {levels : Nat} {v w : Json}
    (h : s.AlikeWithin keeps levels a v w) : v = w := by
  induction levels generalizing a v w with
  | zero => exact h
  | succ levels ih =>
    obtain ⟨x, y, rfl, rfl, hf⟩ := h
    refine congrArg Json.ofFields (List.map_congr_left fun f hmem => ?_)
    rw [(hf f hmem).eq hk fun b v w => ih]

section
variable {levels : Nat} {given : Json} {p : Placement} {row : Row} {nests : List Nest}
  {rows rows' : List Row}

/-- The same rows are found for an edge in both lists, those of a list that keeps its order in the same
order. -/
theorem IsStored.nestedRows_alike (hg : s.graph.IsForest) (ha : a ∈ s.graph.nodes)
    (hst : s.IsStored levels a given p e row nests) (hperm : rows'.Perm rows)
    (hkeep : ∀ b ∈ s.graph.nodes, s.graph.isRepeated b = true → keeps b → s.KeepsOrder rows rows' b)
    (hapart : ∃ others, rows.Perm (row :: nests.flatMap Nest.rows ++ others) ∧
      ∀ t ∈ others, t.path.isBelow a.path = true → s.Apart a row t)
    {m : Member} (hm : m ∈ s.graph.members a) {l : Link} (hl : l ∈ m.links)
    (hfit : m.HasPositions given) {f : Entity} (hf : s.entity? l.terminal.path = some f)
    (hfs : s.IsEntityOf f l.terminal) :
    (f.nestedRows rows e row).Perm
        ((nests.filter (·.part.aggregate.path = l.terminal.path)).map Nest.row) ∧
      (f.nestedRows rows e row).Perm (f.nestedRows rows' e row) ∧
      (s.graph.isRepeated l.terminal = true → keeps l.terminal →
        f.nestedRows rows e row = f.nestedRows rows' e row) := by
  have hb := AggregateGraph.terminal_mem_of_mem_links hm hl
  have hbo := hg.owner?_of_mem_links ha hm hl
  obtain ⟨others, hrows, hothers⟩ := hapart
  have hp := hst.filter_perm hg ha hb hbo hfs hrows hothers
  have hp' := hst.filter_perm hg ha hb hbo hfs (hperm.trans hrows) hothers
  have hn := (f.nestedRows_perm e rows row).trans hp
  have hn' := (f.nestedRows_perm e rows' row).trans hp'
  refine ⟨hn, hn.trans hn'.symm, fun hrep hk => ?_⟩
  cases hc : f.sequenceColumn? with
  | some c =>
    rw [hst.nestedRows_of_sequence hg ha hm hl hf hfs hc hfit hp,
      hst.nestedRows_of_sequence hg ha hm hl hf hfs hc hfit hp']
  | none =>
    have hrow : row ∈ rows := hrows.mem_iff.2 (List.mem_append_left _ List.mem_cons_self)
    have hsame := hkeep l.terminal hb hrep hk f hf hc a hbo e hst.entity row hrow hst.path
    rw [Entity.nestedRows, Entity.nestedRows, hc, hsame]

/-- Each field is restored alike if the rows found for the edges of its member are: as many as there are
parts, in the same order where the list keeps it, and each of them restored alike. -/
theorem alikeField_restoredField (hg : s.graph.IsForest) (given : Json) {m : Member}
    (hm : m ∈ s.graph.members a)
    {within within' : Aggregate → Row → Json} {alike : Aggregate → Json → Json → Prop}
    (h : ∀ l ∈ m.links, ∃ k parts, s.entity? l.terminal.path = some k ∧ PartsOf given m l parts ∧
      (k.nestedRows rows e row).length = parts.length ∧
      (k.nestedRows rows e row).Perm (k.nestedRows rows' e row) ∧
      (s.graph.isRepeated l.terminal = true → keeps l.terminal →
        k.nestedRows rows e row = k.nestedRows rows' e row) ∧
      ∀ t ∈ k.nestedRows rows e row, alike l.terminal (within l.terminal t) (within' l.terminal t))
    {f : ViewField} (hf : f ∈ AggregateGraph.memberDetailFields m) :
    s.AlikeField keeps alike f (s.restoredField rows within e row f)
      (s.restoredField rows' within' e row f) := by
  have hsingle : ∀ l ∈ m.links, (∀ parts, PartsOf given m l parts → parts.length = 1) →
      ∀ name, s.AlikeField keeps alike ⟨name, .nested l.terminal.path, none⟩
        (s.restoredField rows within e row ⟨name, .nested l.terminal.path, none⟩)
        (s.restoredField rows' within' e row ⟨name, .nested l.terminal.path, none⟩) := by
    intro l hl hone name
    obtain ⟨k, parts, hk, hparts, hlen, hsame, -, halike⟩ := h l hl
    have hnode := node?_terminal hm hl
    obtain ⟨t, ht⟩ := List.length_eq_one_iff.1 (hlen.trans (hone parts hparts))
    rw [ht] at hsame halike
    rw [restoredField_nested hnode hk, restoredField_nested hnode hk, ht, hsame.symm.eq_singleton]
    exact alikeField_nested hnode (halike t (List.mem_singleton_self t))
  cases m with
  | scalar m =>
    obtain rfl := List.mem_singleton.1 hf
    rfl
  | reference l =>
    obtain rfl := List.mem_singleton.1 hf
    rfl
  | child l =>
    obtain rfl := List.mem_singleton.1 hf
    refine hsingle l (List.mem_singleton_self l) (fun parts hparts => ?_) _
    cases hparts
    rfl
  | children l =>
    obtain rfl := List.mem_singleton.1 hf
    have hl : l ∈ (Member.children l).links := List.mem_singleton_self l
    have hnode := node?_terminal hm hl
    obtain ⟨k, parts, hk, -, -, hsame, hkept, halike⟩ := h l hl
    rw [restoredField_nestedList hnode hk, restoredField_nestedList hnode hk]
    exact alikeField_nestedList hnode hsame (hkept (isRepeated_of_children_mem hg hm)) halike
  | variation v =>
    rcases List.mem_cons.1 hf with rfl | hf
    · rfl
    · obtain ⟨x, hx, rfl⟩ := List.mem_map.1 hf
      refine hsingle x.2 (List.mem_map_of_mem hx) (fun parts hparts => ?_) _
      cases hparts
      rfl

/-- From two lists of the same rows an instance is restored alike. -/
theorem alikeWithin_restored (hg : s.graph.IsForest) (hperm : rows'.Perm rows)
    (hkeep : ∀ b ∈ s.graph.nodes, s.graph.isRepeated b = true → keeps b → s.KeepsOrder rows rows' b)
    (ha : a ∈ s.graph.nodes) (hlt : s.graph.height a < levels) {field : String} {rest : List Row}
    (h : s.rowsOf levels a given p field = .ok (row :: rest))
    (hd : s.Everywhere (fun b v => ∀ m ∈ s.graph.members b, m.ItemsDiffer s v) levels a given)
    (hfit : s.Everywhere (fun b v => ∀ m ∈ s.graph.members b, m.HasPositions v) levels a given)
    (hapart : ∃ others, rows.Perm (row :: rest ++ others) ∧
      ∀ t ∈ others, t.path.isBelow a.path = true → s.Apart a row t) :
    s.AlikeWithin keeps levels a (s.restored rows levels a row) (s.restored rows' levels a row) := by
  induction levels generalizing a given p field row rest with
  | zero => cases h
  | succ levels ih =>
    obtain ⟨e, row', nests, hrows, hst⟩ := rowsOf_eq_ok ha h
    obtain ⟨rfl, rfl⟩ := List.cons.inj hrows
    have hnest : ∀ n ∈ nests, s.AlikeWithin keeps levels n.part.aggregate
        (s.restored rows levels n.part.aggregate n.row)
        (s.restored rows' levels n.part.aggregate n.row) := by
      intro n hn
      obtain ⟨hb, hbo⟩ := hst.owner? hg ha hn
      obtain ⟨field', hf⟩ := hst.stored n hn
      have hpart : n.part ∈ (s.graph.members a).flatMap (Member.parts given) :=
        hst.parts ▸ List.mem_map_of_mem hn
      have hheight := hg.height_lt_of_owner? hb hbo
      exact ih hb (by omega) hf (hd.2 _ hpart) (hfit.2 _ hpart)
        (hst.exists_others hg ha hd.1 hapart hn)
    refine ⟨_, _, restored_succ hg ha hlt hst.entity row, restored_succ hg ha hlt hst.entity row,
      fun f hf => ?_⟩
    obtain ⟨m, hm, hf⟩ := List.mem_flatMap.1 hf
    refine alikeField_restoredField hg given hm (fun l hl => ?_) hf
    have hb := AggregateGraph.terminal_mem_of_mem_links hm hl
    obtain ⟨k, hk, hks⟩ := exists_entity hb
    obtain ⟨hown, hsame, hkept⟩ :=
      hst.nestedRows_alike hg ha hperm hkeep hapart hm hl (hfit.1 m hm) hk hks
    refine ⟨k, _, hk, hst.partsOf hg hm hl, ?_, hsame, hkept, fun t ht => ?_⟩
    · rw [hown.length_eq, List.length_map, List.length_map]
    · obtain ⟨n, hn, rfl⟩ := List.mem_map.1 (hown.mem_iff.1 ht)
      obtain ⟨hn, he⟩ := List.mem_filter.1 hn
      have hnb : n.part.aggregate = l.terminal :=
        s.graph.eq_of_id_eq (hst.owner? hg ha hn).1 hb (of_decide_eq_true he)
      exact hnb ▸ hnest n hn

end

/-- Rows of which one is of the root can be read. -/
theorem fromRows_eq_restored (hg : s.graph.IsForest) {root : Path} (hroot : s.rootAt root = .ok a)
    {rows : List Row} {row : Row} (h : rows.filter (·.path = root) = [row]) :
    s.fromRows root rows = .ok (s.restored rows s.graph.nodes.length a row) := by
  have ha : a ∈ s.graph.nodes := Graph.mem_of_find? (rootAt_eq_ok hroot).1
  refine bind_eq_ok_iff.2 ⟨a, hroot, ?_⟩
  rw [h]
  exact instanceOf_eq_restored hg ha (AggregateGraph.height_lt_length ha) row

end Schema

namespace Draft
variable {d : Draft} {base : TypeRegistry} {s : Schema}

/-- Rows with distinct keys can be read in every order in which they are stored. Two orders give
instances that differ at most in the order of the items of lists that have no positions, and equal ones
if the rows of each such list come in the same order. -/
theorem fromRows_perm (h : d.resolve base = .ok s) {root : Path} {a : Aggregate}
    (ha : s.node? root = some a) {given : Json} {rows : List Row}
    (hw : s.toRows root given = .ok rows) (hk : s.HaveDistinctKeys rows)
    (hfit : s.ListsFit a given) {rows₁ rows₂ : List Row} (h₁ : rows₁.Perm rows)
    (h₂ : rows₂.Perm rows) : ∃ v w, s.fromRows root rows₁ = .ok v ∧
      s.fromRows root rows₂ = .ok w ∧ s.Alike a v w ∧ (s.SameListOrder rows₁ rows₂ → v = w) := by
  have hg := isForest h
  have hnode : a ∈ s.graph.nodes := Graph.mem_of_find? ha
  obtain ⟨hroot, field, row, rest, rfl, hrows, hrow⟩ := Schema.rowsOf_of_toRows hg ha hw
  have hread : ∀ rows', rows'.Perm (row :: rest) →
      s.fromRows root rows' = .ok (s.restored rows' s.graph.nodes.length a row) := by
    intro rows' hp
    have hone := hp.filter (·.path = root)
    rw [hrow] at hone
    exact Schema.fromRows_eq_restored hg hroot hone.eq_singleton
  have halike : ∀ keeps : Aggregate → Prop,
      (∀ b ∈ s.graph.nodes, s.graph.isRepeated b = true → keeps b → s.KeepsOrder rows₁ rows₂ b) →
        s.AlikeWithin keeps s.graph.nodes.length a
          (s.restored rows₁ s.graph.nodes.length a row)
          (s.restored rows₂ s.graph.nodes.length a row) := by
    intro keeps hkeep
    refine Schema.alikeWithin_restored hg (h₂.trans h₁.symm) hkeep hnode
      (AggregateGraph.height_lt_length hnode) hrows
      ((Schema.haveDistinctKeys_iff hg hnode hrows).1 hk) hfit ⟨[], ?_, fun t ht => (nomatch ht)⟩
    rwa [List.append_nil]
  refine ⟨_, _, hread rows₁ h₁, hread rows₂ h₂, halike _ ?_, fun hsame => ?_⟩
  · intro b _ _ hseq f hf hnone
    rw [Schema.HasSequence, Option.mem_def.1 hf, Option.bind_some, hnone] at hseq
    cases hseq
  · have hall := halike (fun _ => True) fun b hb hrep _ => hsame b hb hrep
    exact hall.eq fun _ => trivial

/-- The lines of an order have no positions, and their entries do. -/
theorem fromRows_perm_codedEntries : ∃ s a rows v w, codedEntries.resolve .standard = .ok s ∧
    s.node? a.path = some a ∧ s.toRows a.path entriesOrder = .ok rows ∧ rows.length = 5 ∧
      s.fromRows a.path rows = .ok v ∧ s.fromRows a.path rows.reverse = .ok w ∧ s.Alike a v w := by
  obtain ⟨s, hs, h⟩ := exists_ok_of_any (codedEntries.resolve .standard) (fun s =>
    s.graph.nodes.any fun a => s.ListsFit a entriesOrder ∧
      (s.toRows a.path entriesOrder).toOption.any fun rows =>
        rows.length = 5 ∧ s.HaveDistinctKeys rows) (by decide +kernel)
  obtain ⟨a, ha, h⟩ := List.any_eq_true.1 h
  obtain ⟨hfit, hrows⟩ := of_decide_eq_true h
  obtain ⟨rows, hw, h⟩ := exists_ok_of_any _ _ hrows
  obtain ⟨hlen, hk⟩ := of_decide_eq_true h
  have hnode := Schema.node?_path ha
  obtain ⟨v, w, hv, hw', halike, -⟩ :=
    fromRows_perm hs hnode hw hk hfit (List.Perm.refl rows) (List.reverse_perm rows)
  exact ⟨s, a, rows, v, w, hs, hnode, hw, hlen, hv, hw', halike⟩

/-- Two lines of different codes are restored in the order in which they are stored. -/
theorem not_fromRows_perm_of_draft : ∃ s a rows, codedLines.resolve .standard = .ok s ∧
    s.node? a.path = some a ∧ s.toRows a.path (codedOrder "a" "b") = .ok rows ∧
      s.HaveDistinctKeys rows ∧ s.fromRows a.path rows ≠ s.fromRows a.path rows.reverse := by
  obtain ⟨s, hs, h⟩ := exists_ok_of_any (codedLines.resolve .standard) (fun s => s.graph.nodes.any
    fun a => (s.toRows a.path (codedOrder "a" "b")).toOption.any fun rows =>
      s.HaveDistinctKeys rows ∧ (s.fromRows a.path rows).toOption.any fun v =>
        (s.fromRows a.path rows.reverse).toOption.any fun w => v.same w = false) (by decide +kernel)
  obtain ⟨a, ha, h⟩ := List.any_eq_true.1 h
  obtain ⟨rows, hw, h⟩ := exists_ok_of_any _ _ h
  obtain ⟨hk, h⟩ := of_decide_eq_true h
  obtain ⟨v, hv, h⟩ := exists_ok_of_any _ _ h
  obtain ⟨w, hw', h⟩ := exists_ok_of_any _ _ h
  refine ⟨s, a, rows, hs, Schema.node?_path ha, hw, hk, fun he => ?_⟩
  obtain rfl : v = w := Except.ok.inj (hv.symm.trans (he.trans hw'))
  rw [Json.same_refl] at h
  cases h

end Draft

end AggregateSchema
