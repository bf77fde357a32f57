import AggregateSchema.Proofs.SearchResults

/-! What a search filters by in one column: the condition is found on the way to the aggregate that has
the column, and nothing else is about it. -/
namespace AggregateSchema

/-- An aggregate that is reached through single children, with what a condition on the first aggregate
says about it. -/
inductive AggregateGraph.Reaches (g : AggregateGraph) :
    Aggregate → Option Json → Aggregate → Option Json → Prop
  | here (a : Aggregate) (condition : Option Json) : Reaches g a condition a condition
  | child {a b : Aggregate} {condition inner : Option Json} {l : Link} (hl : l ∈ childLinks g a)
    (h : Reaches g l.terminal (conditionField condition l.name) b inner) :
    Reaches g a condition b inner

/-- The column of a member that takes one column in any case. -/
def Member.ownColumn? (table : String) : Member → Option Column
  | scalar m => some (Column.ofScalar table m)
  | variation v => some (Column.discriminator table v)
  | _ => none

/-- Whether a predicate is about a column of the table of the aggregate at a path. -/
def Predicate.isOn (path : Path) (column : String) (x : Predicate) : Bool :=
  x.table.path = path && x.column = column

namespace AggregateGraph.Reaches
variable {g : AggregateGraph} {a b : Aggregate} {condition inner : Option Json}

theorem reflTransGen (h : g.Reaches a condition b inner) :
    Relation.ReflTransGen g.HasChild a b := by
  induction h with
  | here => exact .refl
  | child hl _ ih => exact .head ⟨_, hl, rfl⟩ ih

theorem terminal_mem {l : Link} (hl : l ∈ childLinks g a) : l.terminal ∈ g.nodes :=
  terminal_mem_of_mem_links (child_mem_members.2 hl) (List.mem_singleton_self l)

theorem mem_nodes (h : g.Reaches a condition b inner) (ha : a ∈ g.nodes) : b ∈ g.nodes := by
  induction h with
  | here => exact ha
  | child hl _ ih => exact ih (terminal_mem hl)

/-- What is reached is the aggregate, or lies inside it. -/
theorem path_eq_or_isBelow (hg : g.IsForest) (h : g.Reaches a condition b inner)
    (ha : a ∈ g.nodes) : b.path = a.path ∨ b.path.isBelow a.path = true := by
  induction h with
  | here => exact Or.inl rfl
  | child hl _ ih =>
    have hbelow := Path.isBelow_of_parent?
      (hg.parent?_of_mem_links ha (child_mem_members.2 hl) (List.mem_singleton_self _))
    rcases ih (terminal_mem hl) with heq | hin
    · exact Or.inr (heq ▸ hbelow)
    · exact Or.inr (Path.isBelow_trans hin hbelow)

end AggregateGraph.Reaches

namespace Schema
open SearchStep
variable {s : Schema} {a b : Aggregate} {e : Entity} {p : SearchPlace} {m : Member} {c : Column}

theorem isAbout_iff_of_ownColumn? {table column : String} (hc : m.ownColumn? table = some c) :
    m.IsAbout e column ↔ column = c.name := by
  cases m with
  | scalar m | variation v =>
    obtain rfl := Option.some.inj hc
    rfl
  | _ => cases hc

theorem columns_of_ownColumn? {table : String} (hc : m.ownColumn? table = some c) :
    s.memberKeys table m ++ s.memberColumns table m = [c] := by
  cases m with
  | scalar m =>
    obtain rfl := Option.some.inj hc
    exact columns_of_scalar s table m
  | variation v =>
    obtain rfl := Option.some.inj hc
    rfl
  | _ => cases hc

theorem IsEntityOf.mem_allColumns_of_ownColumn? (hs : s.IsEntityOf e a)
    (hm : m ∈ s.graph.members a) (hc : m.ownColumn? a.typeName = some c) : c ∈ e.allColumns :=
  hs.mem_allColumns_of_member hm (by
    rw [columns_of_ownColumn? hc]
    exact List.mem_singleton_self c)

/-- A member that is searched in a column of this name is the one that has the column. -/
theorem IsEntityOf.mem_columns_of_isAbout (hs : s.IsEntityOf e a) (hm : m ∈ s.graph.members a)
    (hc : m.ownColumn? a.typeName = some c) {k : Member} (hk : k.IsAbout e c.name) :
    c.name ∈ (s.memberKeys a.typeName k ++ s.memberColumns a.typeName k).map Column.name := by
  cases k with
  | scalar k =>
    rw [columns_of_scalar]
    exact List.mem_singleton.2 hk
  | variation v => exact List.mem_singleton.2 hk
  | reference l =>
    -- a column that holds a part of a key has another role
    obtain ⟨y, hy, hname⟩ := hk
    obtain ⟨hmem, -, path, hrole⟩ := Entity.mem_referenceColumns.1 hy
    rw [List.inj_on_of_nodup_map hs.distinct hmem (hs.mem_allColumns_of_ownColumn? hm hc) hname] at hrole
    cases m with
    | scalar m => cases hc; cases hrole
    | variation v => cases hc; cases hrole
    | _ => cases hc
  | _ => cases hk

/-- The predicates of a search are on the table of its aggregate, and on those inside it. -/
theorem path_of_mem_predicates (hg : s.graph.IsForest) (ha : a ∈ s.graph.nodes)
    (hp : s.IsEntityOf p.table a) {levels : Nat} {x : Predicate}
    (hx : x ∈ (s.searchSteps levels a p).flatMap SearchStep.predicates) :
    x.table.path = a.path ∨ x.table.path.isBelow a.path = true := by
  have hready := ((admits_start hp).areOrderly hg ha).isReady _ (filter_mem_of_mem_predicates hx) rfl
  rcases List.mem_cons.1 hready.1 with ht | ht
  · exact Or.inl (ht ▸ hp.path)
  · exact Or.inr (isBelow_of_mem_joined hg ha hp ht)

/-- Where nothing is nested, a search is about the columns of the member. -/
theorem isAbout_of_mem_predicates (hchild : ∀ l, m ≠ .child l)
    {nested : Aggregate → SearchPlace → List SearchStep} {x : Predicate}
    (hx : x ∈ (ofMember s nested p m).flatMap SearchStep.predicates) :
    x.table = p.table ∧ m.IsAbout p.table x.column :=
  isAt_ofMember hchild nested _ (filter_mem_of_mem_predicates hx)

/-- The predicates at a member are on its columns, or on the tables of what it owns and inside that. -/
theorem predicates_of_member (hg : s.graph.IsForest) (hm : m ∈ s.graph.members a) {levels : Nat}
    {x : Predicate}
    (hx : x ∈ (ofMember s (s.searchSteps levels) p m).flatMap SearchStep.predicates) :
    x.table = p.table ∧ m.IsAbout p.table x.column ∨
      ∃ l ∈ m.links, x.table.path = l.terminal.path ∨
        x.table.path.isBelow l.terminal.path = true := by
  by_cases hchild : ∃ l, m = .child l
  · obtain ⟨l, rfl⟩ := hchild
    have hl : l ∈ (Member.child l).links := List.mem_singleton_self l
    have hb := AggregateGraph.terminal_mem_of_mem_links hm hl
    obtain ⟨target, he, hs⟩ := exists_entity hb
    rw [ofMember_child he] at hx
    refine Or.inr ⟨l, hl, ?_⟩
    rcases ofChild_cases (s.searchSteps levels l.terminal) p l target with ⟨condition, hc⟩ | hc
    · rw [hc] at hx
      exact path_of_mem_predicates hg hb (p := p.child l target condition) hs hx
    · rw [hc] at hx
      cases hx
  · exact Or.inl (isAbout_of_mem_predicates (fun l hl => hchild ⟨l, hl⟩) hx)

/-- Nothing that is searched at a member is on a table below another child. -/
theorem filter_isOn_eq_nil (hg : s.graph.IsForest) (ha : a ∈ s.graph.nodes)
    (hp : s.IsEntityOf p.table a) {l : Link} (hl : Member.child l ∈ s.graph.members a)
    {k : Member} (hk : k ∈ s.graph.members a) (hne : l.terminal.path ∉ k.links.map (·.terminal.path))
    {path : Path} (hpath : path = l.terminal.path ∨ path.isBelow l.terminal.path = true)
    (levels : Nat) (column : String) :
    ((ofMember s (s.searchSteps levels) p k).flatMap SearchStep.predicates).filter
      (·.isOn path column) = [] := by
  have hparent := hg.parent?_of_mem_links ha hl (List.mem_singleton_self l)
  have hinside : path.isBelow a.path = true := by
    have hla := Path.isBelow_of_parent? hparent
    rcases hpath with rfl | hpath
    · exact hla
    · exact Path.isBelow_trans hpath hla
  refine List.filter_eq_nil_iff.2 fun x hx hon => ?_
  obtain ⟨rfl, -⟩ := by simpa only [Predicate.isOn, Bool.and_eq_true, decide_eq_true_eq] using hon
  rcases predicates_of_member hg hk hx with ⟨htable, -⟩ | ⟨j, hj, hbelow⟩
  · rw [htable, hp.path] at hinside
    exact Path.not_isBelow_self _ hinside
  · refine hne (List.mem_map.2 ⟨j, hj, ?_⟩)
    exact Path.eq_of_isBelow (hg.parent?_of_mem_links ha hk hj) hparent hbelow hpath

/-- The predicates on the column of a member of the aggregate are those at the member. -/
theorem filter_predicates_here (hg : s.graph.IsForest) (ha : a ∈ s.graph.nodes)
    (hp : s.IsEntityOf p.table a) (hm : m ∈ s.graph.members a)
    (hc : m.ownColumn? a.typeName = some c) (levels : Nat) :
    ((s.searchSteps (levels + 1) a p).flatMap SearchStep.predicates).filter (·.isOn a.path c.name) =
      (ofMember s (s.searchSteps levels) p m).flatMap SearchStep.predicates := by
  have hchild : ∀ l, m ≠ .child l := by
    rintro l rfl
    cases hc
  rw [searchSteps, List.flatMap_assoc, filter_flatMap_of_key hp.nodup_names_members ?_ hm
    (k := c.name) ?_]
  · refine List.filter_eq_self.2 fun x hx => ?_
    obtain ⟨htable, habout⟩ := isAbout_of_mem_predicates hchild hx
    simp [Predicate.isOn, htable, hp.path, (isAbout_iff_of_ownColumn? hc).1 habout]
  · intro k hk hname
    refine List.filter_eq_nil_iff.2 fun x hx hon => ?_
    simp only [Predicate.isOn, Bool.and_eq_true, decide_eq_true_eq] at hon
    rcases predicates_of_member hg hk hx with ⟨-, habout⟩ | ⟨l, hl, hbelow⟩
    · exact hname (hp.mem_columns_of_isAbout hm hc (hon.2 ▸ habout))
    · have hla := Path.isBelow_of_parent? (hg.parent?_of_mem_links ha hk hl)
      rw [hon.1] at hbelow
      rcases hbelow with heq | hbelow
      · exact Path.not_isBelow_self _ (heq ▸ hla)
      · exact Path.not_isBelow_self _ (Path.isBelow_trans hbelow hla)
  · rw [columns_of_ownColumn? hc]
    exact List.mem_singleton_self _

/-- The predicates on a column inside a child are those of the search that is nested there. -/
theorem filter_predicates_child (hg : s.graph.IsForest) (ha : a ∈ s.graph.nodes)
    (hp : s.IsEntityOf p.table a) {l : Link} (hl : Member.child l ∈ s.graph.members a) {levels : Nat}
    (h : AreAccepted (s.searchSteps (levels + 1) a p)) {target : Entity}
    (ht : s.entity? l.terminal.path = some target) {path : Path}
    (hpath : path = l.terminal.path ∨ path.isBelow l.terminal.path = true) (column : String) :
    let q := p.child l target (p.value l.name)
    AreAccepted (s.searchSteps levels l.terminal q) ∧
      ((s.searchSteps (levels + 1) a p).flatMap SearchStep.predicates).filter (·.isOn path column) =
        ((s.searchSteps levels l.terminal q).flatMap SearchStep.predicates).filter
          (·.isOn path column) := by
  rw [searchSteps, areAccepted_flatMap] at h
  have hsteps := h _ hl
  rw [ofMember_child ht, areAccepted_cons] at hsteps
  have hchild := ofChild_eq hsteps.2
  refine ⟨hchild ▸ hsteps.2, ?_⟩
  rw [searchSteps, List.flatMap_assoc, filter_flatMap_of_key (hg.nodup_terminals a)
    (fun k hk hne => filter_isOn_eq_nil hg ha hp hl hk hne hpath levels column) hl
    (List.mem_singleton_self _), ofMember_child ht, hchild]
  rfl

/-- The predicates on the column of a member are those at the member, from the place of its aggregate
in the condition. -/
theorem exists_place (hg : s.graph.IsForest) {levels : Nat} {condition inner : Option Json}
    (hr : s.graph.Reaches a condition b inner) (ha : a ∈ s.graph.nodes)
    (hl : s.graph.height a < levels) (hp : p.condition = condition)
    (he : s.entity? a.path = some p.table) (h : AreAccepted (s.searchSteps levels a p))
    (hm : m ∈ s.graph.members b) (hc : m.ownColumn? b.typeName = some c) :
    ∃ (q : SearchPlace) (nested : Aggregate → SearchPlace → List SearchStep),
      q.condition = inner ∧ s.entity? b.path = some q.table ∧
        ((s.searchSteps levels a p).flatMap SearchStep.predicates).filter (·.isOn b.path c.name) =
          (ofMember s nested q m).flatMap SearchStep.predicates := by
  induction hr generalizing p levels with
  | here a condition =>
    obtain ⟨n, rfl⟩ := Nat.exists_eq_add_one_of_ne_zero (Nat.ne_zero_of_lt hl)
    exact ⟨p, s.searchSteps n, hp, he,
      filter_predicates_here hg ha (isEntityOf_of_entity? ha he) hm hc n⟩
  | @child a b condition inner l hlink hr ih =>
    obtain ⟨n, rfl⟩ := Nat.exists_eq_add_one_of_ne_zero (Nat.ne_zero_of_lt hl)
    have hml := AggregateGraph.child_mem_members.2 hlink
    obtain ⟨hb, hlt⟩ := height_lt_of_mem_links hg ha hml (List.mem_singleton_self l)
    obtain ⟨target, ht, -⟩ := exists_entity hb
    obtain ⟨hnested, hfilter⟩ := filter_predicates_child hg ha (isEntityOf_of_entity? ha he) hml h ht
      (hr.path_eq_or_isBelow hg hb) c.name
    rw [hfilter]
    exact ih hb (by omega) (by rw [← hp]; rfl) ht hnested hm hc

end Schema

namespace Statement

/-- Whether a text is that of a predicate: with the alias of its table, and with the placeholder under
which the statement has its value. -/
def Renders (st : Statement) (text : String) (x : Predicate) : Prop :=
  ∃ i n, st.tables[i]? = some x.table ∧ text = x.text (aliasOf i) (placeholder n) ∧
    ∀ v, x.value? = some v → st.parameters[n]? = some ⟨placeholder n, v⟩

/-- The texts of predicates whose values follow those registered before. -/
theorem forall₂_renders {st : Statement} (hn : (st.tables.map Entity.path).Nodup)
    {ps : List Predicate} (ht : ∀ x ∈ ps, x.table ∈ st.tables) (before : List Json)
    (hv : st.parameters = numbered 0 (before ++ Predicate.values ps)) :
    List.Forall₂ st.Renders (Predicate.texts (aliasIn st.tables) before.length ps) ps := by
  induction ps generalizing before with
  | nil => exact .nil
  | cons x ps ih =>
    obtain ⟨hx, hps⟩ := List.forall_mem_cons.1 ht
    obtain ⟨i, hi, hti⟩ := exists_aliasIn_eq hn hx
    rw [Predicate.values, List.flatMap_cons] at hv
    refine .cons ⟨i, before.length, hti, by rw [hi], fun v hxv => ?_⟩ ?_
    · rw [hv, getElem?_numbered, hxv]
      simp
    · rw [← List.length_append]
      exact ih hps _ (by rw [hv, List.append_assoc]; rfl)

end Statement

/-- Whether a search filters by exactly the given predicates in a column of a joined table: all filters
of the statement are those of the condition. -/
structure Query.FiltersBy (q : Query) (s : Schema) (a : Aggregate) (condition : Json) (e : Entity)
    (c : Column) (ps : List Predicate) : Prop where
  known : e ∈ q.statement.tables
  column : e.column? c.name = some c
  filters : List.Forall₂ q.statement.Renders q.statement.filters (s.predicates a condition)
  predicates : (s.predicates a condition).filter (·.isOn e.path c.name) = ps

namespace Schema
open SearchStep
variable {s : Schema} {a b : Aggregate} {m : Member} {c : Column} {condition : Json} {q : Query}

/-- The filters of an accepted search are the texts of its predicates in order. -/
theorem forall₂_filters (hg : s.graph.IsForest) (ha : a ∈ s.graph.nodes)
    (hq : Query.build s a.path condition = .ok q) :
    List.Forall₂ q.statement.Renders q.statement.filters (s.predicates a condition) := by
  obtain ⟨hfilters, hvalues⟩ := filters_and_parameters hg ha hq
  obtain ⟨e, he, hs⟩ := exists_entity ha
  obtain ⟨-, rfl⟩ := build_eq_ok hg ha he hq
  have horder := areOrderly_search hg ha hs condition
  rw [hfilters]
  refine Statement.forall₂_renders (horder.nodup_paths (List.nodup_singleton _)) (fun x hx => ?_) []
    hvalues
  rw [predicates_eq he] at hx
  exact (horder.isReady _ (filter_mem_of_mem_predicates hx) rfl).1

/-- The tables of an accepted search are those of all that is reached. -/
theorem mem_tables_of_reaches (hg : s.graph.IsForest) (ha : a ∈ s.graph.nodes)
    (hq : Query.build s a.path condition = .ok q) {c inner : Option Json}
    (hr : s.graph.Reaches a c b inner) {f : Entity} (hf : s.entity? b.path = some f) :
    f ∈ q.statement.tables := by
  obtain ⟨e, he, hs⟩ := exists_entity ha
  obtain ⟨hsteps, rfl⟩ := build_eq_ok hg ha he hq
  rcases Relation.reflTransGen_iff_eq_or_transGen.1 hr.reflTransGen with rfl | hbelow
  · obtain rfl := Option.some.inj (hf.symm.trans he)
    exact List.mem_cons_self
  · have hsearch := search_eq hsteps
    refine List.mem_cons_of_mem e (?_ : f ∈ (s.search a e condition).flatMap joined)
    rw [hsearch] at hsteps ⊢
    exact (mem_joined_iff hg ha (AggregateGraph.height_lt_length ha) hs hsteps).2 ⟨b, hbelow, hf⟩

/-- An accepted search filters in the column of a member by the predicates at the member, from the place
of its aggregate in the condition. -/
theorem exists_filtersBy (hg : s.graph.IsForest) (ha : a ∈ s.graph.nodes)
    (hq : Query.build s a.path condition = .ok q) {inner : Option Json}
    (hr : s.graph.Reaches a condition.given? b inner) (hm : m ∈ s.graph.members b)
    (hc : m.ownColumn? b.typeName = some c) :
    ∃ (p : SearchPlace) (nested : Aggregate → SearchPlace → List SearchStep),
      p.condition = inner ∧ s.entity? b.path = some p.table ∧
        q.FiltersBy s a condition p.table c
          ((ofMember s nested p m).flatMap SearchStep.predicates) := by
  obtain ⟨e, he, hs⟩ := exists_entity ha
  obtain ⟨hsteps, -⟩ := build_eq_ok hg ha he hq
  have hsearch := search_eq hsteps
  rw [hsearch] at hsteps
  obtain ⟨p, nested, hp, hpe, hpredicates⟩ :=
    exists_place hg hr ha (AggregateGraph.height_lt_length ha) rfl he hsteps hm hc
  have hb := isEntityOf_of_entity? (hr.mem_nodes ha) hpe
  refine ⟨p, nested, hp, hpe, mem_tables_of_reaches hg ha hq hr hpe, ?_, forall₂_filters hg ha hq, ?_⟩
  · exact (find?_key_eq_some_iff Column.name hb.distinct).2
      ⟨hb.mem_allColumns_of_ownColumn? hm hc, rfl⟩
  · rw [predicates_eq he, hsearch, hb.path]
    exact hpredicates

end Schema

end AggregateSchema
