import AggregateSchema.Proofs.Depth
import AggregateSchema.Proofs.Nested

/-! What rows are restored to, whatever rows they are. -/
namespace AggregateSchema

/-- The rows found for an edge are rows of its aggregate that are nested in the row of the owner. -/
theorem Entity.mem_nestedRows {f e : Entity} {rows : List Row} {row t : Row} :
    t ∈ f.nestedRows rows e row ↔ t ∈ rows ∧ t.path = f.path ∧ f.isNestedIn t e row = true := by
  have hmem : t ∈ rows.filter (fun r => r.path = f.path && f.isNestedIn r e row) ↔
      t ∈ rows ∧ t.path = f.path ∧ f.isNestedIn t e row = true := by
    rw [List.mem_filter, Bool.and_eq_true, decide_eq_true_eq]
  rw [nestedRows, ← hmem]
  cases f.sequenceColumn? with
  | none => rfl
  | some c => exact List.mem_mergeSort

namespace Schema
variable {s : Schema} {a : Aggregate} {e : Entity} {rows rows' : List Row} {row : Row}

theorem nestedRows_eq {b : Aggregate} {f : Entity} (hf : s.entity? b.path = some f) :
    s.nestedRows rows e row b = .ok (f.nestedRows rows e row) :=
  bind_eq_ok_iff.2 ⟨f, by rw [entityOf, hf], rfl⟩

section
variable {restore restore' : Aggregate → Row → Except Failure Json}

theorem restoreFirst_congr {f g : Row → Except Failure Json} {ts : List Row}
    (h : ∀ t ∈ ts, f t = g t) : restoreFirst f ts = restoreFirst g ts := by
  cases ts with
  | nil => rfl
  | cons t ts => exact h t List.mem_cons_self

/-- What a member is restored to depends on the rows that are found for its edges, and on what they
are restored to. -/
theorem restoreMember_congr {m : Member}
    (hn : ∀ l ∈ m.links,
      s.nestedRows rows e row l.terminal = s.nestedRows rows' e row l.terminal)
    (hr : ∀ l ∈ m.links, ∀ ts, s.nestedRows rows e row l.terminal = .ok ts →
      ∀ t ∈ ts, restore l.terminal t = restore' l.terminal t) :
    s.restoreMember rows restore e row m = s.restoreMember rows' restore' e row m := by
  cases m with
  | child l =>
    have hl : l ∈ (Member.child l).links := List.mem_singleton_self l
    rw [restoreMember, restoreMember, ← hn l hl]
    refine bind_congr_of_ok fun ts hts => ?_
    rw [restoreFirst_congr (hr l hl ts hts)]
  | children l =>
    have hl : l ∈ (Member.children l).links := List.mem_singleton_self l
    rw [restoreMember, restoreMember, ← hn l hl]
    refine bind_congr_of_ok fun ts hts => ?_
    rw [mapM_congr (hr l hl ts hts)]
  | variation v =>
    rw [restoreMember, restoreMember]
    refine congrArg (· >>= _) (mapM_congr fun x hx => ?_)
    have hl : x.2 ∈ (Member.variation v).links := List.mem_map_of_mem hx
    dsimp only
    rw [← hn x.2 hl]
    refine bind_congr_of_ok fun ts hts => ?_
    rw [restoreFirst_congr (hr x.2 hl ts hts)]
  | _ => rfl

end

theorem instanceOf_succ (he : s.entity? a.path = some e) (levels : Nat) :
    s.instanceOf rows (levels + 1) a row =
      (s.graph.members a).mapM (s.restoreMember rows (s.instanceOf rows levels) e row) >>=
        fun fields => .ok (.ofFields fields.flatten) := by
  rw [instanceOf, entityOf, he]
  rfl

/-- Two lists of rows give one instance if the same rows are found for every edge, and these are
restored alike. -/
theorem instanceOf_congr {levels levels' : Nat} (he : s.entity? a.path = some e)
    (h : ∀ m ∈ s.graph.members a, ∀ l ∈ m.links, ∃ f, s.entity? l.terminal.path = some f ∧
      f.nestedRows rows e row = f.nestedRows rows' e row ∧
      ∀ t ∈ f.nestedRows rows e row,
        s.instanceOf rows levels l.terminal t = s.instanceOf rows' levels' l.terminal t) :
    s.instanceOf rows (levels + 1) a row = s.instanceOf rows' (levels' + 1) a row := by
  rw [instanceOf_succ he, instanceOf_succ he]
  refine congrArg (· >>= _) (mapM_congr fun m hm => restoreMember_congr ?_ ?_)
  · intro l hl
    obtain ⟨f, hf, hn, -⟩ := h m hm l hl
    rw [nestedRows_eq hf, nestedRows_eq hf, hn]
  · intro l hl ts hts
    obtain ⟨f, hf, -, hr⟩ := h m hm l hl
    rw [nestedRows_eq hf, Except.ok.injEq] at hts
    exact hts ▸ hr

/-- What the instance of an aggregate that a row stands for is restored to. -/
def restored (s : Schema) (rows : List Row) (levels : Nat) (a : Aggregate) (row : Row) : Json :=
  (s.instanceOf rows levels a row).toOption.getD .null

/-- What a field of the detail is restored to from a row; `within` gives what a nested row is restored
to. -/
def restoredField (s : Schema) (rows : List Row) (within : Aggregate → Row → Json) (e : Entity)
    (row : Row) (f : ViewField) : Json :=
  let nested (b : Aggregate) := (s.nestedRows rows e row b).toOption.getD []
  match f.kind with
  | .nested path => match s.node? path with
    | some b => ((nested b).head?.map (within b)).getD .null
    | none => .null
  | .nestedList path => match s.node? path with
    | some b => .array ((nested b).map (within b))
    | none => .array []
  | .keyAndText _ => e.restoreReference row f.name
  | _ => row.get f.name

section
variable {within : Aggregate → Row → Json} {name : String} {path : Path}
  {default? : Option String} {b : Aggregate} {f : Entity} (h : s.node? path = some b)
  (hf : s.entity? b.path = some f)
include h hf

theorem restoredField_nested :
    s.restoredField rows within e row ⟨name, .nested path, default?⟩ =
      ((f.nestedRows rows e row).head?.map (within b)).getD .null := by
  simp [restoredField, h, nestedRows_eq hf, Except.toOption]

theorem restoredField_nestedList :
    s.restoredField rows within e row ⟨name, .nestedList path, default?⟩ =
      .array ((f.nestedRows rows e row).map (within b)) := by
  simp [restoredField, h, nestedRows_eq hf, Except.toOption]

end

theorem restoreFirst_eq {restore : Row → Except Failure Json} {within : Row → Json}
    (h : ∀ t, restore t = .ok (within t)) (ts : List Row) :
    restoreFirst restore ts = .ok ((ts.head?.map within).getD .null) := by
  cases ts with
  | nil => rfl
  | cons t ts => exact h t

/-- Each member is restored to its fields of the detail, whatever the rows are. -/
theorem restoreMember_eq {restore : Aggregate → Row → Except Failure Json}
    {within : Aggregate → Row → Json} {m : Member} (hm : m ∈ s.graph.members a)
    (h : ∀ l ∈ m.links, ∀ t, restore l.terminal t = .ok (within l.terminal t)) :
    s.restoreMember rows restore e row m =
      .ok ((AggregateGraph.memberDetailFields m).map fun f =>
        (f.name, s.restoredField rows within e row f)) := by
  have hentity : ∀ l ∈ m.links, ∃ f, s.entity? l.terminal.path = some f := fun l hl =>
    (exists_entity (AggregateGraph.terminal_mem_of_mem_links hm hl)).imp fun _ => And.left
  cases m with
  | child l =>
    have hl : l ∈ (Member.child l).links := List.mem_singleton_self l
    obtain ⟨f, hf⟩ := hentity l hl
    rw [restoreMember, nestedRows_eq hf]
    refine bind_eq_ok_iff.2 ⟨_, rfl, bind_eq_ok_iff.2 ⟨_, restoreFirst_eq (h l hl) _, ?_⟩⟩
    rw [AggregateGraph.memberDetailFields, List.map_singleton,
      restoredField_nested (node?_terminal hm hl) hf]
    rfl
  | children l =>
    have hl : l ∈ (Member.children l).links := List.mem_singleton_self l
    obtain ⟨f, hf⟩ := hentity l hl
    rw [restoreMember, nestedRows_eq hf]
    refine bind_eq_ok_iff.2 ⟨_, rfl, bind_eq_ok_iff.2 ⟨_, mapM_eq_ok_map fun t _ => h l hl t, ?_⟩⟩
    rw [AggregateGraph.memberDetailFields, List.map_singleton,
      restoredField_nestedList (node?_terminal hm hl) hf]
    rfl
  | variation v =>
    let field (l : Link) : ViewField :=
      ⟨variantFieldName v.name l.terminal.path, .nested l.terminal.path, none⟩
    refine bind_eq_ok_iff.2 ⟨v.variants.map fun x =>
      ((field x.2).name, s.restoredField rows within e row (field x.2)),
      mapM_eq_ok_map fun x hx => ?_, ?_⟩
    · have hl : x.2 ∈ (Member.variation v).links := List.mem_map_of_mem hx
      obtain ⟨f, hf⟩ := hentity x.2 hl
      dsimp only
      rw [nestedRows_eq hf, restoredField_nested (node?_terminal hm hl) hf]
      exact bind_eq_ok_iff.2 ⟨_, rfl, bind_eq_ok_iff.2 ⟨_, restoreFirst_eq (h x.2 hl) _, rfl⟩⟩
    · rw [AggregateGraph.memberDetailFields, List.map_cons, List.map_map]
      rfl
  | _ => rfl

theorem restored_eq {levels : Nat} {v : Json} (h : s.instanceOf rows levels a row = .ok v) :
    s.restored rows levels a row = v := by
  rw [restored, h]
  rfl

theorem instanceOf_eq_ofFields (he : s.entity? a.path = some e) {levels : Nat}
    {within : Aggregate → Row → Json} (h : ∀ m ∈ s.graph.members a, ∀ l ∈ m.links, ∀ t,
      s.instanceOf rows levels l.terminal t = .ok (within l.terminal t)) :
    s.instanceOf rows (levels + 1) a row = .ok (.ofFields ((s.graph.detailFields a).map fun f =>
      (f.name, s.restoredField rows within e row f))) := by
  rw [instanceOf_succ he]
  refine bind_eq_ok_iff.2 ⟨_, mapM_eq_ok_map fun m hm => restoreMember_eq hm (h m hm), ?_⟩
  rw [AggregateGraph.detailFields, List.map_flatMap, List.flatMap]

/-- Every row stands for an instance, if there are levels enough. -/
theorem instanceOf_eq_restored (hg : s.graph.IsForest) (ha : a ∈ s.graph.nodes) {levels : Nat}
    (h : s.graph.height a < levels) (row : Row) :
    s.instanceOf rows levels a row = .ok (s.restored rows levels a row) := by
  induction levels generalizing a row with
  | zero => cases h
  | succ levels ih =>
    obtain ⟨e, he, -⟩ := exists_entity ha
    have hsucc : s.instanceOf rows (levels + 1) a row = _ :=
      instanceOf_eq_ofFields he fun m hm l hl t =>
        have hb := height_lt_of_mem_links hg ha hm hl
        ih hb.1 (by omega) t
    rw [restored_eq hsucc, hsucc]

/-- The instance is restored field by field. -/
theorem restored_succ (hg : s.graph.IsForest) (ha : a ∈ s.graph.nodes) {levels : Nat}
    (h : s.graph.height a < levels + 1) (he : s.entity? a.path = some e) (row : Row) :
    s.restored rows (levels + 1) a row = .ofFields ((s.graph.detailFields a).map fun f =>
      (f.name, s.restoredField rows (s.restored rows levels) e row f)) := by
  refine restored_eq (instanceOf_eq_ofFields he fun m hm l hl t => ?_)
  have hb := height_lt_of_mem_links hg ha hm hl
  exact instanceOf_eq_restored hg hb.1 (by omega) t

end Schema

end AggregateSchema
