import AggregateSchema.Proofs.CallHistory
import AggregateSchema.Proofs.Descendants
import AggregateSchema.Proofs.Joins
import AggregateSchema.Proofs.ResultColumns

/-! What a search selects and joins, against the published form of its results. A member that is shown
is followed from both sides: to the field of the view, and to the column of the table that was joined
for it. -/
namespace AggregateSchema

/-- A member with the walk that finds it. -/
structure Shown where
  visit : Visit Aggregate Relation
  member : Member

namespace Shown

/-- The field in a row of results, after the names of the edges walked. -/
def field (x : Shown) : ViewField where
  name := Query.resultFront x.visit.names ++ x.member.name
  kind := match x.member with
    | .scalar m => .value m.kind m.nullable
    | _ => .displayText
  default? := none

/-- Whether a reference contributes the field. -/
def isReference (x : Shown) : Bool :=
  match x.member with
  | .reference _ => true
  | _ => false

end Shown

namespace AggregateGraph

/-- The members that are shown of an aggregate, and of its children to at most `levels` levels. -/
def shownWithin (g : AggregateGraph) : Nat → Visit Aggregate Relation → List Shown
  | 0, _ => []
  | levels + 1, v => (members g v.node).flatMap fun
    | .child l => shownWithin g levels (v.toTerminal l)
    | .children _ => []
    | m => [⟨v, m⟩]

def shown (g : AggregateGraph) (v : Visit Aggregate Relation) : List Shown :=
  shownWithin g g.nodes.length v

/-- Whether the second aggregate is the single child of the first under some name. -/
def HasChild (g : AggregateGraph) (a b : Aggregate) : Prop := ∃ l ∈ childLinks g a, l.terminal = b

variable {g : AggregateGraph} {a b : Aggregate}

theorem mem_childLinks {l : Link} : l ∈ childLinks g a ↔ l ∈ g.outgoing a ∧ l.relation = .child := by
  simp [childLinks]

theorem child_mem_members {l : Link} : Member.child l ∈ members g a ↔ l ∈ childLinks g a := by
  have hlinks : ∀ groups links, Member.child l ∈ Member.ofLinks groups links ↔
      l ∈ links ∧ l.relation = .child := by
    intro groups links
    induction links generalizing groups with
    | nil => simp [Member.ofLinks]
    | cons k ks ih =>
      rw [Member.ofLinks]
      cases hr : k.relation with
      | variant tag =>
        have hne : l.relation = .child → l ≠ k := fun hl he => by simp [← he, hl] at hr
        dsimp only
        split <;> simp only [List.mem_cons, ih, reduceCtorEq, false_or] <;> grind
      | _ => simp only [List.mem_cons, ih, reduceCtorEq, false_or, Member.child.injEq]; grind
  rw [members, List.mem_append, hlinks, mem_childLinks]
  simp

/-- The field of a member nested in a child stands under the name of the child. -/
theorem map_field_shownWithin (hg : g.IsForest) (levels : Nat) (v : Visit Aggregate Relation) :
    (shownWithin g levels v).map Shown.field = (resultFieldsWithin g levels v.node).map fun f =>
      { f with name := Query.resultFront v.names ++ f.name } := by
  induction levels generalizing v with
  | zero => rfl
  | succ n ih =>
    rw [shownWithin, resultFieldsWithin, List.map_flatMap, List.map_flatMap]
    refine List.flatMap_congr fun m hm => ?_
    cases m with
    | child l =>
      have hl := mem_ownedLinks_of_mem_links hm (List.mem_singleton_self l)
      have hnames : (v.toTerminal l).names = v.names ++ [l.name] := by
        rw [hg.toTerminal_eq hl, Visit.names, List.map_append]
        rfl
      rw [ih, List.map_map, hnames, Query.resultFront_append, Query.resultFront_cons,
        Visit.toTerminal, Visit.node_moveTo]
      refine List.map_congr_left fun f _ => ?_
      simp [Query.resultFront, String.append_assoc]
    | _ => rfl

/-- The fields of a row of results are those of the members shown. -/
theorem searchResult_fields (hg : g.IsForest) (a : Aggregate) :
    (views g a).searchResult.fields = (shown g (.start a)).map Shown.field := by
  have hfront : ∀ f : ViewField, { f with name := Query.resultFront [] ++ f.name } = f := fun f => by
    simp [Query.resultFront]
  refine ((map_field_shownWithin hg _ (.start a)).trans ?_).symm
  exact (List.map_congr_left fun f _ => hfront f).trans (List.map_id _)

end AggregateGraph

namespace Schema
variable {s : Schema} {a : Aggregate}

theorem countsLevels_shownWithin :
    s.CountsLevels fun levels a trail => s.graph.shownWithin levels ⟨a, trail⟩ := by
  intro n n' a _ h
  funext trail
  dsimp only
  rw [AggregateGraph.shownWithin, AggregateGraph.shownWithin]
  refine List.flatMap_congr fun m hm => ?_
  cases m with
  | child l =>
    have hl := congrFun (h _ hm l (List.mem_singleton_self l)) ((Visit.mk a trail).toTerminal l).trail
    have hnode : ((Visit.mk a trail).toTerminal l).node = l.terminal := Visit.node_moveTo ..
    rw [← hnode] at hl
    exact hl
  | _ => rfl

/-- The levels counted are always enough for what is shown. -/
theorem shown_eq (hg : s.graph.IsForest) {v : Visit Aggregate Relation}
    (hv : v.node ∈ s.graph.nodes) : s.graph.shown v = (s.graph.members v.node).flatMap fun
      | .child l => s.graph.shown (v.toTerminal l)
      | .children _ => []
      | m => [⟨v, m⟩] :=
  congrFun (countsLevels_shownWithin.eq_succ hg hv) v.trail

end Schema

namespace SearchStep

/-- The table and the column that a step selects, and the name of the result column. -/
def selection : SearchStep → List (Entity × String × String)
  | select table column result => [(table, column, result)]
  | _ => []

theorem results_eq_map (x : SearchStep) : x.results = x.selection.map (·.2.2) := by
  cases x <;> rfl

theorem selected_eq_map (name : Entity → String) (x : SearchStep) :
    x.selected name = x.selection.map fun y => s!"{name y.1}.{y.2.1} AS {y.2.2}" := by
  cases x <;> rfl

/-- Where there is no result column, nothing is selected. -/
theorem selection_eq_nil {steps : List SearchStep} (h : steps.flatMap results = []) :
    steps.flatMap selection = [] := by
  have hmap : steps.flatMap results = (steps.flatMap selection).map (·.2.2) := by
    rw [List.map_flatMap]
    exact List.flatMap_congr fun x _ => x.results_eq_map
  exact List.map_eq_nil_iff.1 (hmap.symm.trans h)

theorem mem_of_mem_selection {steps : List SearchStep} {y : Entity × String × String}
    (h : y ∈ steps.flatMap selection) : select y.1 y.2.1 y.2.2 ∈ steps := by
  obtain ⟨x, hx, hy⟩ := List.mem_flatMap.1 h
  cases x with
  | select table column result =>
    obtain rfl := List.mem_singleton.1 hy
    exact hx
  | _ => cases hy

/-- Steps in order leave a statement in which every one of them is still ready but for the joins. -/
theorem AreOrderly.isReady {tables : List Entity} {steps : List SearchStep}
    (h : AreOrderly tables steps) :
    ∀ x ∈ steps, x.joined = [] → x.IsReady (tables ++ steps.flatMap joined) := by
  have hmore : ∀ {x : SearchStep} {ts : List Entity}, x.IsReady ts → x.joined = [] → ∀ us,
      x.IsReady (ts ++ us) := by
    intro x ts hx hj us
    cases x with
    | join table => cases hj
    | select table column result => exact ⟨List.mem_append_left _ hx.1, hx.2⟩
    | filter p => exact ⟨List.mem_append_left _ hx.1, hx.2⟩
    | reject field problem => trivial
  induction steps generalizing tables with
  | nil => exact List.forall_mem_nil _
  | cons x xs ih =>
    rw [List.flatMap_cons, ← List.append_assoc]
    refine List.forall_mem_cons.2 ⟨fun hj => ?_, ih h.2⟩
    rw [List.append_assoc]
    exact hmore h.1 hj _

/-- Steps in order join no table twice. -/
theorem AreOrderly.nodup_paths {tables : List Entity} {steps : List SearchStep}
    (h : AreOrderly tables steps) (hn : (tables.map Entity.path).Nodup) :
    ((tables ++ steps.flatMap joined).map Entity.path).Nodup := by
  induction steps generalizing tables with
  | nil => simpa using hn
  | cons x xs ih =>
    rw [List.flatMap_cons, ← List.append_assoc]
    refine ih h.2 ?_
    cases x with
    | join table =>
      rw [joined, List.map_append, List.map_singleton]
      refine List.nodup_append.2 ⟨hn, List.nodup_singleton _, fun p hp q hq he => ?_⟩
      obtain ⟨t, ht, rfl⟩ := List.mem_map.1 hp
      exact h.1.2 t ht (he.trans (List.mem_singleton.1 hq))
    | _ => simpa [joined] using hn

end SearchStep

/-- A table of the statement is at the place that its alias says. -/
theorem Statement.exists_aliasIn_eq {tables : List Entity} (hn : (tables.map Entity.path).Nodup)
    {table : Entity} (h : table ∈ tables) :
    ∃ i, aliasIn tables table = aliasOf i ∧ tables[i]? = some table := by
  obtain ⟨i, t, hi, ht, hp⟩ := aliasFor_eq_ok (aliasFor_of_mem (s := ⟨tables, [], [], [], []⟩) h)
  obtain rfl : t = table := List.inj_on_of_nodup_map hn (List.mem_of_getElem? ht) h hp
  exact ⟨i, hi, ht⟩

namespace Schema
open SearchStep
variable {s : Schema} {a : Aggregate} {p : SearchPlace}

/-- A step selects a member that is shown: its column in the table of its aggregate, under the name of
its field. -/
def IsSelectionOf (s : Schema) (y : Entity × String × String) (x : Shown) : Prop :=
  s.entity? x.visit.node.path = some y.1 ∧ y.2 = (x.member.name, x.field.name)

/-- The steps of a search select what is shown, except for references, from a place that is named as
the walk to it is. -/
theorem forall₂_selection (hg : s.graph.IsForest) {levels : Nat} {v : Visit Aggregate Relation}
    (hnames : p.children = v.names) (he : s.entity? v.node.path = some p.table)
    (h : AreAccepted (s.searchSteps levels v.node p)) :
    List.Forall₂ s.IsSelectionOf ((s.searchSteps levels v.node p).flatMap selection)
      ((s.graph.shownWithin levels v).filter (!·.isReference)) := by
  induction levels generalizing v p with
  | zero => exact .nil
  | succ n ih =>
    rw [searchSteps, areAccepted_flatMap] at h
    rw [searchSteps, AggregateGraph.shownWithin, List.flatMap_assoc, List.filter_flatMap]
    refine forall₂_flatMap fun m hm => ?_
    -- the member itself is selected first, and nothing by the steps for the condition on it
    have hself : ∀ {name : String} {steps : List SearchStep}, m.name = name →
        steps.flatMap results = [] → List.Forall₂ s.IsSelectionOf
          ((select p.table name (p.result name) :: steps).flatMap selection) [⟨v, m⟩] := by
      rintro _ steps rfl hsteps
      rw [List.flatMap_cons, selection_eq_nil hsteps, List.append_nil]
      refine .cons ⟨he, ?_⟩ .nil
      rw [Shown.field, SearchPlace.result, hnames]
    have hm' := h m hm
    cases m with
    | children l => exact .nil
    | scalar m => exact hself rfl (by simp [List.flatMap_assoc])
    | variation w => exact hself rfl (by simp [List.flatMap_assoc])
    | reference l =>
      rw [ofMember, selection_eq_nil (by simp [List.flatMap_assoc])]
      exact .nil
    | child l =>
      have hl : l ∈ (Member.child l).links := List.mem_singleton_self l
      have hown := AggregateGraph.mem_ownedLinks_of_mem_links hm hl
      obtain ⟨target, ht, -⟩ := exists_entity (AggregateGraph.terminal_mem_of_mem_links hm hl)
      rw [ofMember_child ht, areAccepted_cons] at hm'
      have hchild := ofChild_eq hm'.2
      rw [hchild] at hm'
      rw [ofMember_child ht, List.flatMap_cons, hchild]
      dsimp only
      rw [hg.toTerminal_eq hown]
      refine ih (v := ⟨l.terminal, v.trail ++ [l]⟩) ?_ ht hm'.2
      rw [SearchPlace.child, hnames, Visit.names, Visit.names, List.map_append]
      rfl

/-- A search joins what it reaches through single children. -/
theorem mem_joined_iff (hg : s.graph.IsForest) {levels : Nat} (ha : a ∈ s.graph.nodes)
    (hl : s.graph.height a < levels) (hp : s.IsEntityOf p.table a)
    (h : AreAccepted (s.searchSteps levels a p)) {t : Entity} :
    t ∈ (s.searchSteps levels a p).flatMap joined ↔
      ∃ b, Relation.TransGen s.graph.HasChild a b ∧ s.entity? b.path = some t := by
  induction levels generalizing a p with
  | zero => cases hl
  | succ n ih =>
    rw [searchSteps, areAccepted_flatMap] at h
    rw [searchSteps, List.flatMap_assoc, List.mem_flatMap]
    have hmember : ∀ l, (hm : Member.child l ∈ s.graph.members a) →
        (t ∈ (ofMember s (s.searchSteps n) p (.child l)).flatMap joined ↔
          ∃ b, Relation.ReflTransGen s.graph.HasChild l.terminal b ∧ s.entity? b.path = some t) := by
      intro l hm
      have hml : l ∈ (Member.child l).links := List.mem_singleton_self l
      obtain ⟨hb, hlt⟩ := height_lt_of_mem_links hg ha hm hml
      obtain ⟨target, ht, hs⟩ := exists_entity hb
      have hm' := h _ hm
      rw [ofMember_child ht, areAccepted_cons] at hm'
      have hchild := ofChild_eq hm'.2
      rw [hchild] at hm'
      rw [ofMember_child ht, List.flatMap_cons, List.mem_append, joined, List.mem_singleton, hchild,
        ih hb (by omega) hs hm'.2]
      simp only [Relation.reflTransGen_iff_eq_or_transGen]
      constructor
      · rintro (rfl | ⟨b, hab, hbt⟩)
        · exact ⟨l.terminal, Or.inl rfl, ht⟩
        · exact ⟨b, Or.inr hab, hbt⟩
      · rintro ⟨b, rfl | hab, hbt⟩
        · exact Or.inl (Option.some.inj (hbt.symm.trans ht))
        · exact Or.inr ⟨b, hab, hbt⟩
    constructor
    · rintro ⟨m, hm, ht⟩
      by_cases hchild : ∃ l, m = .child l
      · obtain ⟨l, rfl⟩ := hchild
        obtain ⟨b, hlb, hbt⟩ := (hmember l hm).1 ht
        have hstep : s.graph.HasChild a l.terminal :=
          ⟨l, AggregateGraph.child_mem_members.1 hm, rfl⟩
        exact ⟨b, Relation.TransGen.head' hstep hlb, hbt⟩
      · rw [flatMap_joined_eq_nil (isAt_ofMember (fun l he => hchild ⟨l, he⟩) _)] at ht
        cases ht
    · rintro ⟨b, hab, hbt⟩
      obtain ⟨c, ⟨l, hl, rfl⟩, hcb⟩ := Relation.TransGen.head'_iff.1 hab
      have hm := AggregateGraph.child_mem_members.2 hl
      exact ⟨_, hm, (hmember l hm).2 ⟨b, hcb, hbt⟩⟩

end Schema

namespace Statement

/-- An expression after SELECT: the column of a member that is shown, with the alias of the table of
its aggregate, under the name of its field. -/
def Expresses (s : Schema) (tables : List Entity) (text : String) (x : Shown) : Prop :=
  ∃ i table, tables[i]? = some table ∧ s.entity? x.visit.node.path = some table ∧
    (table.column? x.member.name).isSome = true ∧
      text = s!"{aliasOf i}.{x.member.name} AS {x.field.name}"

/-- A predicate on a column of a table of a statement, with the alias of the table. -/
def IsFilter (tables : List Entity) (text : String) : Prop :=
  ∃ (i n : Nat) (p : Predicate), tables[i]? = some p.table ∧
    (p.table.column? p.column).isSome = true ∧ text = p.text (aliasOf i) (placeholder n)

end Statement

open Statement in
/-- What a search gives for an aggregate is what the view of its results has, but for references. -/
structure Query.MatchesView (q : Query) (s : Schema) (a : Aggregate) : Prop where
  fields : (s.graph.views a).searchResult.fields = (s.graph.shown (.start a)).map Shown.field
  columns : q.columns =
    ((s.graph.shown (.start a)).filter (!·.isReference)).map (·.field.name)
  selections : List.Forall₂ (Expresses s q.statement.tables) q.statement.selections
    ((s.graph.shown (.start a)).filter (!·.isReference))
  filters : ∀ text ∈ q.statement.filters, IsFilter q.statement.tables text
  orders : ∀ o ∈ q.statement.orders, ∃ t, q.statement.tables[o.table]? = some t ∧
    (t.column? o.column).isSome = true
  /-- The joins are of everything below the aggregate through single children, each once. -/
  joins : ∃ e joined, q.statement.tables = e :: joined ∧ s.entity? a.path = some e ∧
    ((e :: joined).map Entity.path).Nodup ∧
    (∀ t, t ∈ joined ↔ ∃ b, Relation.TransGen s.graph.HasChild a b ∧ s.entity? b.path = some t) ∧
    ∀ i table, joined[i]? = some table → ∀ text ∈ joinConditions e (i + 1) table,
      ∃ c ∈ table.allColumns, ∃ k ∈ e.keys, text = equation (i + 1) c k

namespace Statement

/-- The texts of predicates on tables of a statement. -/
theorem isFilter_of_mem_texts {tables : List Entity} (hn : (tables.map Entity.path).Nodup)
    {first : Nat} {ps : List Predicate}
    (hp : ∀ p ∈ ps, p.table ∈ tables ∧ (p.table.column? p.column).isSome = true) :
    ∀ text ∈ Predicate.texts (aliasIn tables) first ps, IsFilter tables text := by
  induction ps generalizing first with
  | nil => exact List.forall_mem_nil _
  | cons p ps ih =>
    obtain ⟨⟨ht, hc⟩, hps⟩ := List.forall_mem_cons.1 hp
    obtain ⟨i, hi, hti⟩ := exists_aliasIn_eq hn ht
    exact List.forall_mem_cons.2 ⟨⟨i, first, p, hti, hc, by rw [hi]⟩, ih hps⟩

/-- The equations of a join are between columns of its tables. -/
theorem exists_equation_of_mem {base table : Entity} {index : Nat} {text : String}
    (h : text ∈ joinConditions base index table) :
    ∃ c ∈ table.allColumns, ∃ k ∈ base.keys, text = equation index c k := by
  obtain ⟨k, hk, hc⟩ := List.mem_filterMap.1 h
  obtain ⟨c, hfound, rfl⟩ := Option.map_eq_some_iff.1 hc
  exact ⟨c, List.mem_of_find?_eq_some hfound, k, hk, rfl⟩

end Statement

namespace Query
open SearchStep Statement
variable {s : Schema} {a : Aggregate} {e : Entity} {steps : List SearchStep}

/-- The query of steps in order that select what is shown matches the view. -/
theorem matchesView_ofSteps (hg : s.graph.IsForest) (he : s.entity? a.path = some e)
    (ho : AreOrderly [e] steps) (hselects : List.Forall₂ s.IsSelectionOf (steps.flatMap selection)
      ((s.graph.shown (.start a)).filter (!·.isReference)))
    (hjoins : ∀ t, t ∈ steps.flatMap joined ↔
      ∃ b, Relation.TransGen s.graph.HasChild a b ∧ s.entity? b.path = some t) :
    (ofSteps e steps).MatchesView s a := by
  have hn : ((e :: steps.flatMap joined).map Entity.path).Nodup :=
    ho.nodup_paths (List.nodup_singleton _)
  have hready := ho.isReady
  have hcolumns : (ofSteps e steps).columns = (steps.flatMap selection).map (·.2.2) := by
    rw [List.map_flatMap]
    exact List.flatMap_congr fun x _ => x.results_eq_map
  have hselections : (ofSteps e steps).statement.selections = (steps.flatMap selection).map fun y =>
      s!"{aliasIn (e :: steps.flatMap joined) y.1}.{y.2.1} AS {y.2.2}" := by
    rw [List.map_flatMap]
    exact List.flatMap_congr fun x _ => x.selected_eq_map _
  refine ⟨AggregateGraph.searchResult_fields hg a, ?_, ?_, ?_, ?_,
    e, steps.flatMap joined, rfl, he, hn, hjoins, fun i table _ text => exists_equation_of_mem⟩
  · rw [hcolumns]
    exact map_eq_map_of_forall₂ hselects fun y x hyx => congrArg Prod.snd hyx.2
  · rw [hselections, List.forall₂_map_left_iff]
    refine ((List.forall₂_and_left _ _).2 ⟨fun y hy => mem_of_mem_selection hy, hselects⟩).imp ?_
    rintro ⟨table, column, result⟩ x ⟨hy, ht, hx⟩
    obtain ⟨rfl, rfl⟩ := Prod.mk.inj hx
    obtain ⟨hmem, hcolumn⟩ := hready _ hy rfl
    obtain ⟨i, hi, hti⟩ := exists_aliasIn_eq hn hmem
    exact ⟨i, table, hti, ht, hcolumn, by rw [hi]⟩
  · have hfilters : (ofSteps e steps).statement.filters =
        Predicate.texts (aliasIn (e :: steps.flatMap joined)) 0 (steps.flatMap predicates) := by
      simp [ofSteps, after, start, Statement.empty, Statement.registerAll]
    rw [hfilters]
    refine isFilter_of_mem_texts hn fun p hp => ?_
    exact hready _ (filter_mem_of_mem_predicates hp) rfl
  · intro o ho
    obtain ⟨k, hk, rfl⟩ := List.mem_map.1 ho
    exact ⟨e, rfl, Schema.IsEntityOf.isSome_column? (List.mem_append_left _ hk)⟩

end Query

namespace Draft
open SearchStep
variable {d : Draft} {base : TypeRegistry} {s : Schema} {a : Aggregate}

/-- The result columns of an accepted search are the fields of the results of its aggregate in order,
except for those of references. Each is selected from the table of the aggregate that has the member,
and the tables joined are those of all aggregates reached through single children. -/
theorem matchesView (h : d.resolve base = .ok s) (ha : a ∈ s.graph.nodes) {condition : Json}
    {q : Query} (hq : Query.build s a.path condition = .ok q) : q.MatchesView s a := by
  have hg := isForest h
  obtain ⟨e, he, hs⟩ := Schema.exists_entity ha
  obtain ⟨hsteps, rfl⟩ := Schema.build_eq_ok hg ha he hq
  have hsearch := Schema.search_eq hsteps
  rw [hsearch] at hsteps ⊢
  refine Query.matchesView_ofSteps hg he
    ((Schema.admits_start (p := ⟨e, condition.given?, [], a.typeName⟩) hs).areOrderly hg ha)
    ?_ fun t => ?_
  · exact Schema.forall₂_selection hg (v := .start a) rfl he hsteps
  · exact Schema.mem_joined_iff hg ha (AggregateGraph.height_lt_length ha) hs hsteps

/-- The customer of an order is a field of its results, and no column of a search for orders. -/
theorem matchesView_orders : ∃ s a q, orders.resolve .standard = .ok s ∧ a ∈ s.graph.nodes ∧
    Query.build s a.path (ordersWanted (.string "Main")) = .ok q ∧
    (s.graph.views a).searchResult.names = ["number", "customer", "Address_street", "payment"] ∧
    q.columns = ["number", "Address_street", "payment"] ∧ q.MatchesView s a := by
  obtain ⟨s, hs, h⟩ := exists_ok_of_any (orders.resolve .standard) (fun s => s.graph.nodes.any
    fun a => (s.graph.views a).searchResult.names = ["number", "customer", "Address_street", "payment"] ∧
      (Query.build s a.path (ordersWanted (.string "Main"))).toOption.any fun q =>
        q.columns = ["number", "Address_street", "payment"]) (by decide +kernel)
  obtain ⟨a, ha, h⟩ := List.any_eq_true.1 h
  obtain ⟨hnames, hquery⟩ := of_decide_eq_true h
  obtain ⟨q, hq, hcolumns⟩ := exists_ok_of_any _ _ hquery
  exact ⟨s, a, q, hs, ha, hq, hnames, of_decide_eq_true hcolumns, matchesView hs ha hq⟩

end Draft

end AggregateSchema
