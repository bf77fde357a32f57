import AggregateSchema.Proofs.Nested

/-! An instance is restored from its rows, be there others or not. -/
namespace AggregateSchema

/-- A list in strict order is what sorting a permutation of it gives. -/
theorem mergeSort_eq_of_perm {α : Type} {key : α → Int} {xs ys : List α} (hp : xs.Perm ys)
    (hy : ys.Pairwise fun x y => key x < key y) :
    xs.mergeSort (fun x y => key x ≤ key y) = ys := by
  have hle : ys.Pairwise fun x y => decide (key x ≤ key y) = true :=
    hy.imp fun h => decide_eq_true (Int.le_of_lt h)
  have hsorted : (xs.mergeSort (fun x y => key x ≤ key y)).Pairwise
      fun x y => decide (key x ≤ key y) = true := by
    refine List.pairwise_mergeSort (fun x y z h k => ?_) (fun x y => ?_) xs
    · exact decide_eq_true (Int.le_trans (of_decide_eq_true h) (of_decide_eq_true k))
    · simpa using Int.le_total (key x) (key y)
  refine List.Perm.eq_of_pairwise (fun x y hx hyy h k => ?_) hsorted hle
    ((List.mergeSort_perm _ _).trans hp)
  have hx' : x ∈ ys := hp.mem_iff.1 ((List.mergeSort_perm _ _).mem_iff.1 hx)
  have heq : key x = key y := Int.le_antisymm (of_decide_eq_true h) (of_decide_eq_true k)
  have hinj : (ys.map key).Nodup := (List.pairwise_map.2 hy).imp Int.ne_of_lt
  exact List.inj_on_of_nodup_map hinj hx' hyy heq

theorem pairwise_of_length_le_one {α : Type} {R : α → α → Prop} :
    ∀ {xs : List α}, xs.length ≤ 1 → xs.Pairwise R
  | [], _ => List.Pairwise.nil
  | [x], _ => List.pairwise_singleton R x

theorem eq_of_perm_of_length_le_one {α : Type} {xs : List α} :
    ∀ {ys : List α}, xs.Perm ys → ys.length ≤ 1 → xs = ys
  | [], h, _ => h.eq_nil
  | [_], h, _ => h.eq_singleton

namespace Row

theorem position_eq {r : Row} {column : String} {i : Nat} (h : r.get column = .ofNat i) :
    r.position column = min (i : Int) (int64Bound - 1) := by
  have hin : Text.inInt64 i = decide (i < int64Bound) := by
    have hle : -(int64Bound : Int) ≤ i := by omega
    simp [Text.inInt64, hle]
  rw [position, h, Json.ofNat, Json.int64?, hin]
  by_cases hi : i < int64Bound
  · rw [if_pos (decide_eq_true hi), Option.getD_some]
    omega
  · rw [if_neg (by simpa using hi), Option.getD_none]
    omega

end Row

namespace Entity
variable {f e : Entity} {row : Row} {rows ys : List Row}

theorem nestedRows_of_filter_eq
    (h : (rows.filter fun r => r.path = f.path && f.isNestedIn r e row) = ys)
    (hs : ∀ c, f.sequenceColumn? = some c →
      ys.Pairwise fun r t => r.position c.name ≤ t.position c.name) :
    f.nestedRows rows e row = ys := by
  rw [nestedRows, h]
  cases hc : f.sequenceColumn? with
  | none => rfl
  | some c => exact List.mergeSort_of_pairwise ((hs c hc).imp decide_eq_true)

theorem nestedRows_of_perm
    (h : (rows.filter fun r => r.path = f.path && f.isNestedIn r e row).Perm ys) {c : Column}
    (hc : f.sequenceColumn? = some c)
    (hs : ys.Pairwise fun r t => r.position c.name < t.position c.name) :
    f.nestedRows rows e row = ys := by
  rw [nestedRows, hc]
  exact mergeSort_eq_of_perm h hs

end Entity

namespace Schema
variable {s : Schema} {a : Aggregate} {e : Entity} {levels : Nat} {given : Json} {p : Placement}
  {row : Row} {nests : List Nest}

/-- The rows of an instance among others, from which they can be told apart. -/
structure IsAmong (s : Schema) (levels : Nat) (a : Aggregate) (given : Json) (row : Row)
    (own rows : List Row) : Prop where
  references : s.DistinctReferences a
  items : s.Everywhere (fun b v => ∀ m ∈ s.graph.members b, m.ItemsDiffer s v) levels a given
  apart : ∃ others, rows.Perm (own ++ others) ∧
    ∀ t ∈ others, t.path.isBelow a.path = true → s.Apart a row t
  order : own.Sublist rows ∨ s.Sequenced a ∧
    s.Everywhere (fun b v => ∀ m ∈ s.graph.members b, m.HasPositions v) levels a given

/-- The parts to which an edge leads, by the rows in which they are stored. -/
theorem IsStored.partsOf (hg : s.graph.IsForest)
    (hst : s.IsStored levels a given p e row nests) {m : Member} (hm : m ∈ s.graph.members a)
    {l : Link} (hl : l ∈ m.links) :
    PartsOf given m l
      ((nests.filter (·.part.aggregate.path = l.terminal.path)).map Nest.part) := by
  have h := partsOf_filter hg given hm hl
  rw [← hst.parts, List.filter_map] at h
  exact h

/-- A position column holds the position. -/
theorem IsStored.get_sequence (hg : s.graph.IsForest) (ha : a ∈ s.graph.nodes)
    (hst : s.IsStored levels a given p e row nests) {n : Nest} (hn : n ∈ nests) {f : Entity}
    (hf : s.entity? n.part.aggregate.path = some f) (hfs : s.IsEntityOf f n.part.aggregate)
    {c : Column} (hc : f.sequenceColumn? = some c) : n.row.get c.name = .ofNat n.part.index := by
  obtain ⟨hb, -⟩ := hst.owner? hg ha hn
  obtain ⟨field, hrows⟩ := hst.stored n hn
  obtain ⟨-, -, rfl⟩ := hfs.eq_sequence hc
  exact (rowsOf_cons hb hrows).2 f hf _
    (List.mem_append_left _ (List.mem_of_find?_eq_some hc))

theorem IsStored.position_eq (hg : s.graph.IsForest) (ha : a ∈ s.graph.nodes)
    (hst : s.IsStored levels a given p e row nests) {n : Nest} (hn : n ∈ nests) {b : Aggregate}
    (hb : b ∈ s.graph.nodes) (hnb : n.part.aggregate.path = b.path) {f : Entity}
    (hf : s.entity? b.path = some f) (hfs : s.IsEntityOf f b) {c : Column}
    (hc : f.sequenceColumn? = some c) :
    n.row.position c.name = min (n.part.index : Int) (int64Bound - 1) := by
  have he : n.part.aggregate = b := s.graph.eq_of_id_eq (hst.owner? hg ha hn).1 hb hnb
  exact Row.position_eq (hst.get_sequence hg ha hn (he ▸ hf) (he ▸ hfs) hc)

section
variable {rows : List Row} {m : Member} {l : Link} {f : Entity}

/-- The positions of the rows of a list are those of its items, as far as there are any. -/
theorem IsStored.position_of_mem (hg : s.graph.IsForest) (ha : a ∈ s.graph.nodes)
    (hst : s.IsStored levels a given p e row nests) (hm : m ∈ s.graph.members a) (hl : l ∈ m.links)
    (hf : s.entity? l.terminal.path = some f) (hfs : s.IsEntityOf f l.terminal) {c : Column}
    (hc : f.sequenceColumn? = some c) :
    ∀ n ∈ nests.filter (·.part.aggregate.path = l.terminal.path),
      n.row.position c.name = min (n.part.index : Int) (int64Bound - 1) := by
  intro n hn
  obtain ⟨hn, hnb⟩ := List.mem_filter.1 hn
  exact hst.position_eq hg ha hn (AggregateGraph.terminal_mem_of_mem_links hm hl)
    (of_decide_eq_true hnb) hf hfs hc

/-- Where a list has positions its rows are found in order, in whatever order they are stored. -/
theorem IsStored.nestedRows_of_sequence (hg : s.graph.IsForest) (ha : a ∈ s.graph.nodes)
    (hst : s.IsStored levels a given p e row nests) (hm : m ∈ s.graph.members a) (hl : l ∈ m.links)
    (hf : s.entity? l.terminal.path = some f) (hfs : s.IsEntityOf f l.terminal) {c : Column}
    (hc : f.sequenceColumn? = some c) (hfit : m.HasPositions given)
    (hp : (rows.filter fun r => r.path = f.path && f.isNestedIn r e row).Perm
      ((nests.filter (·.part.aggregate.path = l.terminal.path)).map Nest.row)) :
    f.nestedRows rows e row =
      (nests.filter (·.part.aggregate.path = l.terminal.path)).map Nest.row := by
  have hparts := hst.partsOf hg hm hl
  have hposition := hst.position_of_mem hg ha hm hl hf hfs hc
  refine Entity.nestedRows_of_perm hp hc (List.pairwise_map.2 ?_)
  refine (List.pairwise_map.1 hparts.pairwise_index).imp_of_mem fun {n n'} hn hn' hlt => ?_
  rw [hposition n hn, hposition n' hn']
  have hfits := hparts.index_lt hfit _ (List.mem_map_of_mem hn')
  omega

/-- The rows found for an edge are those of its parts, in order. -/
theorem IsStored.nestedRows_eq (hg : s.graph.IsForest) (ha : a ∈ s.graph.nodes)
    (hst : s.IsStored levels a given p e row nests)
    (h : s.IsAmong (levels + 1) a given row (row :: nests.flatMap Nest.rows) rows)
    (hm : m ∈ s.graph.members a) (hl : l ∈ m.links)
    (hf : s.entity? l.terminal.path = some f) (hfs : s.IsEntityOf f l.terminal) :
    f.nestedRows rows e row =
      (nests.filter (·.part.aggregate.path = l.terminal.path)).map Nest.row := by
  have hb := AggregateGraph.terminal_mem_of_mem_links hm hl
  have hbo := hg.owner?_of_mem_links ha hm hl
  have hparts := hst.partsOf hg hm hl
  obtain ⟨others, hperm, hothers⟩ := h.apart
  have hp := hst.filter_perm hg ha hb hbo hfs hperm hothers
  rcases h.order with hsub | ⟨hseq, hfit⟩
  · -- The rows are in order from the start.
    have hs := hst.filter_sublist hg ha hb hbo hfs hsub
    apply Entity.nestedRows_of_filter_eq (hs.eq_of_length hp.length_eq.symm).symm
    intro c hc
    have hposition := hst.position_of_mem hg ha hm hl hf hfs hc
    refine List.pairwise_map.2 ?_
    refine (List.pairwise_map.1 hparts.pairwise_index).imp_of_mem fun {n n'} hn hn' hlt => ?_
    rw [hposition n hn, hposition n' hn']
    omega
  · rcases hparts.length_le hg hm with hlen | hrep
    · -- A single row needs no order.
      rw [List.length_map, ← List.length_map (f := Nest.row)] at hlen
      exact Entity.nestedRows_of_filter_eq (eq_of_perm_of_length_le_one hp hlen) fun c _ =>
        pairwise_of_length_le_one hlen
    · obtain ⟨c, hc⟩ := hseq.exists_column hg ha hm hl hrep hf
      exact hst.nestedRows_of_sequence hg ha hm hl hf hfs hc (hfit.1 m hm) hp

end

/-- A part has the values of its own key columns. -/
theorem IsStored.valueAt_ownKey (hg : s.graph.IsForest) (ha : a ∈ s.graph.nodes)
    (hst : s.IsStored levels a given p e row nests) {n : Nest} (hn : n ∈ nests) {c : Column}
    (hc : c ∈ s.ownKeys n.part.aggregate) :
    s.valueAt n.row c.origin = c.givenValue n.part.given n.part.index := by
  obtain ⟨hb, -⟩ := hst.owner? hg ha hn
  obtain ⟨field, hrows⟩ := hst.stored n hn
  obtain ⟨hpath, hvalue⟩ := rowsOf_cons hb hrows
  obtain ⟨f, hf, hfs⟩ := exists_entity hb
  have hk := mem_keysOf_of_mem_ownKeys hb hc
  rw [valueAt_of_mem_keysOf hg hb hpath hk, hvalue f hf c (hfs.mem_allColumns hb hk)]
  exact Placement.value_of_not_inherited (isOwnColumn_of_mem_ownKeys hc).inherited

/-- Two parts of one aggregate differ, in one order or the other. -/
theorem IsStored.differs (hg : s.graph.IsForest)
    (hst : s.IsStored levels a given p e row nests)
    (hd : ∀ m ∈ s.graph.members a, m.ItemsDiffer s given) {before after : List Nest} {n : Nest}
    (hn : nests = before ++ n :: after) {n' : Nest} (hn' : n' ∈ before ++ after)
    (he : n'.part.aggregate.path = n.part.aggregate.path) :
    n.part.Differs s n'.part ∨ n'.part.Differs s n.part := by
  have hmem : n.part ∈ (s.graph.members a).flatMap (Member.parts given) := by
    rw [← hst.parts, hn]
    exact List.mem_map_of_mem (List.mem_append_right _ List.mem_cons_self)
  obtain ⟨m, hm, hp⟩ := List.mem_flatMap.1 hmem
  obtain ⟨l, hl, hnl⟩ := exists_link_of_mem_parts hp
  have hpairs := (hst.partsOf hg hm hl).pairwise_differs (hd m hm)
  rw [List.pairwise_map, hn, List.filter_append, List.filter_cons_of_pos (by simp [hnl]),
    List.pairwise_append, List.pairwise_cons] at hpairs
  obtain ⟨-, ⟨hafter, -⟩, hbefore⟩ := hpairs
  have hne : decide (n'.part.aggregate.path = l.terminal.path) = true :=
    decide_eq_true (he.trans (congrArg _ hnl))
  rcases List.mem_append.1 hn' with h | h
  · exact Or.inr (hbefore n' (List.mem_filter.2 ⟨h, hne⟩) n List.mem_cons_self)
  · exact Or.inl (hafter n' (List.mem_filter.2 ⟨h, hne⟩))

/-- The rows of the other parts are apart from the row of a part. -/
theorem IsStored.apart_of_mem (hg : s.graph.IsForest) (ha : a ∈ s.graph.nodes)
    (hst : s.IsStored levels a given p e row nests)
    (hd : ∀ m ∈ s.graph.members a, m.ItemsDiffer s given) {before after : List Nest} {n : Nest}
    (hn : nests = before ++ n :: after) {n' : Nest} (hn' : n' ∈ before ++ after) {t : Row}
    (ht : t ∈ n'.rows) (hbelow : t.path.isBelow n.part.aggregate.path = true) :
    s.Apart n.part.aggregate n.row t := by
  have hmem : n ∈ nests := by simp [hn]
  have hmem' : n' ∈ nests := by
    rw [hn]
    rcases List.mem_append.1 hn' with h | h
    · exact List.mem_append_left _ h
    · exact List.mem_append_right _ (List.mem_cons_of_mem _ h)
  obtain ⟨hb, hbo⟩ := hst.owner? hg ha hmem
  obtain ⟨hb', hbo'⟩ := hst.owner? hg ha hmem'
  obtain ⟨hpath, hkeys⟩ := hst.path_of_mem_rows hg ha hmem' ht
  have he : n'.part.aggregate.path = n.part.aggregate.path :=
    Path.eq_of_isBelow (hg.parent?_of_owner? hbo') (hg.parent?_of_owner? hbo) hpath
      (Or.inr hbelow)
  have hagg : n'.part.aggregate = n.part.aggregate := s.graph.eq_of_id_eq hb' hb he
  rw [hagg] at hkeys
  rcases hst.differs hg hd hn hn' he with ⟨c, hc, hsame⟩ | ⟨c, hc, hsame⟩
  · have hk := mem_keysOf_of_mem_ownKeys hb hc
    refine ⟨c, hk, ?_⟩
    rw [hkeys c hk, hst.valueAt_ownKey hg ha hmem hc,
      hst.valueAt_ownKey hg ha hmem' (hagg ▸ hc)]
    exact hsame
  · rw [hagg] at hc
    have hk := mem_keysOf_of_mem_ownKeys hb hc
    refine ⟨c, hk, ?_⟩
    rw [hkeys c hk, hst.valueAt_ownKey hg ha hmem hc,
      hst.valueAt_ownKey hg ha hmem' (hagg ▸ hc), Json.same_comm]
    exact hsame

/-- If the rows of an instance are told from others by its key, so are those of its parts. -/
theorem IsStored.exists_others (hg : s.graph.IsForest) (ha : a ∈ s.graph.nodes)
    (hst : s.IsStored levels a given p e row nests)
    (hd : ∀ m ∈ s.graph.members a, m.ItemsDiffer s given) {rows : List Row}
    (h : ∃ others, rows.Perm (row :: nests.flatMap Nest.rows ++ others) ∧
      ∀ t ∈ others, t.path.isBelow a.path = true → s.Apart a row t) {n : Nest} (hn : n ∈ nests) :
    ∃ others, rows.Perm (n.rows ++ others) ∧
      ∀ t ∈ others, t.path.isBelow n.part.aggregate.path = true →
        s.Apart n.part.aggregate n.row t := by
  obtain ⟨hb, hbo⟩ := hst.owner? hg ha hn
  have hbelow := Path.isBelow_of_parent? (hg.parent?_of_owner? hbo)
  obtain ⟨before, after, hsplit⟩ := List.append_of_mem hn
  obtain ⟨others, hperm, hothers⟩ := h
  -- The row of the owner and the rows of the other parts join those from elsewhere.
  refine ⟨row :: ((before ++ after).flatMap Nest.rows ++ others), hperm.trans ?_, ?_⟩
  · have hmove := List.perm_append_comm_assoc (row :: before.flatMap Nest.rows) n.rows
      (after.flatMap Nest.rows ++ others)
    simpa [hsplit] using hmove
  · intro t ht htb
    rcases List.mem_cons.1 ht with rfl | ht
    · -- The row of the owner is above the part.
      rw [hst.path] at htb
      have := Path.length_lt_of_isBelow htb
      have := Path.length_lt_of_isBelow hbelow
      omega
    · rcases List.mem_append.1 ht with ht | ht
      · obtain ⟨n', hn', ht⟩ := List.mem_flatMap.1 ht
        exact hst.apart_of_mem hg ha hd hsplit hn' ht htb
      · obtain ⟨k, hk, hsame⟩ := hothers t ht (Path.isBelow_trans htb hbelow)
        have hkey := Nest.valueAt_eq hg ha hst.path hst.isEntity (hst.stored n hn) hb hbo hk
        refine ⟨_, inherit_mem_keysOf hb hbo hk, ?_⟩
        rw [Column.origin_inherit, hkey]
        exact hsame

/-- If the rows of an instance are among others, so are those of its parts. -/
theorem IsStored.isAmong (hg : s.graph.IsForest) (ha : a ∈ s.graph.nodes)
    (hst : s.IsStored levels a given p e row nests) {rows : List Row}
    (h : s.IsAmong (levels + 1) a given row (row :: nests.flatMap Nest.rows) rows) {n : Nest}
    (hn : n ∈ nests) :
    s.IsAmong levels n.part.aggregate n.part.given n.row n.rows rows := by
  obtain ⟨hb, hbo⟩ := hst.owner? hg ha hn
  have hpart : n.part ∈ (s.graph.members a).flatMap (Member.parts given) :=
    hst.parts ▸ List.mem_map_of_mem hn
  refine ⟨h.references.of_owner? hg hbo, h.items.2 _ hpart,
    hst.exists_others hg ha h.items.1 h.apart hn, ?_⟩
  rcases h.order with hsub | ⟨hseq, hfit⟩
  · refine Or.inl (List.Sublist.trans ?_ hsub)
    exact (List.sublist_flatten_of_mem (List.mem_map_of_mem hn)).trans
      (List.sublist_cons_self _ _)
  · exact Or.inr ⟨hseq.of_owner? hg hbo, hfit.2 _ hpart⟩

end Schema

end AggregateSchema
