import AggregateSchema.Proofs.SearchSteps

/-! The steps of a search are in order: each finds its table in the statement. So all of them are
performed, up to the first rejection, and the query can be read off them. -/
namespace AggregateSchema

namespace Statement

/-- The alias of a table among the given ones. -/
def aliasIn (tables : List Entity) (table : Entity) : String :=
  aliasOf (tables.findIdx (·.path = table.path))

theorem findIdx_lt_length {tables : List Entity} {table : Entity} (h : table ∈ tables) :
    tables.findIdx (·.path = table.path) < tables.length :=
  List.findIdx_lt_length_of_exists ⟨table, h, decide_eq_true rfl⟩

theorem aliasFor_of_mem {s : Statement} {table : Entity} (h : table ∈ s.tables) :
    s.aliasFor table = .ok (aliasIn s.tables table) := by
  have hp : s.position? table = some (s.tables.findIdx (·.path = table.path)) :=
    List.findIdx?_eq_some_of_exists ⟨table, h, decide_eq_true rfl⟩
  rw [aliasFor, hp]
  rfl

/-- Further tables do not change the alias. -/
theorem aliasIn_append {tables : List Entity} {table : Entity} (h : table ∈ tables)
    (more : List Entity) : aliasIn (tables ++ more) table = aliasIn tables table := by
  rw [aliasIn, List.findIdx_append, if_pos (findIdx_lt_length h), aliasIn]

theorem leftJoin_eq_ok {s : Statement} {base table : Entity} (hb : s.tables.head? = some base)
    (hbelow : table.path.isBelow base.path = true) (hfresh : ∀ t ∈ s.tables, t.path ≠ table.path) :
    s.leftJoin table = .ok { s with tables := s.tables ++ [table] } := by
  obtain ⟨rest, htables⟩ := List.head?_eq_some_iff.1 hb
  have hne : base.path ≠ table.path := hfresh base (List.mem_of_mem_head? hb)
  have hanc : base.isAncestorOf table = true := hbelow
  rw [leftJoin, htables]
  dsimp only
  rw [if_neg hne, position?_eq_none_iff.2 hfresh, hanc]
  rfl

theorem select_eq_ok {s : Statement} {clause : Clause} {text : String} {values : List Json}
    (h : s.run clause = (.ok text, s.registerAll values)) :
    s.select clause = .ok { s.registerAll values with selections := s.selections ++ [text] } := by
  rw [select, call, perform, runClause, h]
  rfl

theorem filter_eq_ok {s : Statement} {clause : Clause} {text : String} {values : List Json}
    (h : s.run clause = (.ok text, s.registerAll values)) :
    s.filter clause = .ok { s.registerAll values with filters := s.filters ++ [text] } := by
  rw [filter, call, perform, runClause, h]
  rfl

end Statement

namespace Predicate

/-- The values that stand apart from the texts of some predicates. -/
def values (ps : List Predicate) : List Json := ps.flatMap (·.value?.toList)

/-- The texts of some predicates: the first value goes under the placeholder of the given number, and
each further one under the next. -/
def texts (name : Entity → String) (first : Nat) : List Predicate → List String
  | [] => []
  | p :: ps => p.text (name p.table) (Statement.placeholder first) ::
      texts name (first + p.value?.toList.length) ps

end Predicate

namespace SearchStep

/-- The table that a step joins. -/
@[simp] def joined : SearchStep → List Entity
  | join table => [table]
  | _ => []

/-- The text that a step adds after SELECT. -/
@[simp] def selected (name : Entity → String) : SearchStep → List String
  | select table column result => [s!"{name table}.{column} AS {result}"]
  | _ => []

/-- The name of the result column that a step adds. -/
@[simp] def results : SearchStep → List String
  | select _ _ result => [result]
  | _ => []

/-- The predicate that a step adds. -/
@[simp] def predicates : SearchStep → List Predicate
  | filter p => [p]
  | _ => []

theorem filter_mem_of_mem_predicates {steps : List SearchStep} {p : Predicate}
    (h : p ∈ steps.flatMap predicates) : filter p ∈ steps := by
  obtain ⟨x, hx, hp⟩ := List.mem_flatMap.1 h
  cases x with
  | filter q =>
    obtain rfl := List.mem_singleton.1 hp
    exact hx
  | _ => cases hp

def rejection? : SearchStep → Option (String × ConditionProblem)
  | reject field problem => some (field, problem)
  | _ => none

/-- Whether a step fits a statement with the given tables: a join is of a new table inside the first
one, and everything else is about a column of a table that is there. -/
def IsReady (tables : List Entity) : SearchStep → Prop
  | join table => (∃ base, tables.head? = some base ∧ table.path.isBelow base.path = true) ∧
      ∀ t ∈ tables, t.path ≠ table.path
  | select table column _ => table ∈ tables ∧ (table.column? column).isSome = true
  | filter p => p.table ∈ tables ∧ (p.table.column? p.column).isSome = true
  | reject _ _ => True

/-- Steps that fit one after the other. -/
def AreOrderly (tables : List Entity) : List SearchStep → Prop
  | [] => True
  | x :: xs => x.IsReady tables ∧ AreOrderly (tables ++ x.joined) xs

theorem areOrderly_append {tables : List Entity} {xs ys : List SearchStep} :
    AreOrderly tables (xs ++ ys) ↔
      AreOrderly tables xs ∧ AreOrderly (tables ++ xs.flatMap joined) ys := by
  induction xs generalizing tables with
  | nil => simp [AreOrderly]
  | cons x xs ih =>
    rw [List.cons_append, AreOrderly, AreOrderly, ih, List.flatMap_cons, List.append_assoc, and_assoc]

/-- Steps for some items are in order if those for each item are, after those for the items before. -/
theorem areOrderly_flatMap {α : Type} {f : α → List SearchStep} {items : List α}
    {tables : List Entity} (h : ∀ before x after, items = before ++ x :: after →
      AreOrderly (tables ++ (before.flatMap f).flatMap joined) (f x)) :
    AreOrderly tables (items.flatMap f) := by
  induction items generalizing tables with
  | nil => trivial
  | cons y items ih =>
    rw [List.flatMap_cons, areOrderly_append]
    refine ⟨by simpa using h [] y items rfl, ih fun before x after hi => ?_⟩
    have hx := h (y :: before) x after (by rw [hi, List.cons_append])
    rwa [List.flatMap_cons, List.flatMap_append, ← List.append_assoc] at hx

end SearchStep

namespace Query
open SearchStep Statement

/-- The query after some steps, none of which is a rejection. -/
def after (q : Query) (steps : List SearchStep) : Query :=
  let name := aliasIn (q.statement.tables ++ steps.flatMap joined)
  let predicates := steps.flatMap SearchStep.predicates
  { statement := { q.statement.registerAll (Predicate.values predicates) with
      tables := q.statement.tables ++ steps.flatMap joined
      selections := q.statement.selections ++ steps.flatMap (selected name)
      filters := q.statement.filters ++
        Predicate.texts name q.statement.parameters.length predicates }
    columns := q.columns ++ steps.flatMap results }

theorem after_nil (q : Query) : q.after [] = q := by
  simp [after, registerAll, numbered, Predicate.values, Predicate.texts]

/-- What a step does that is ready and no rejection. -/
theorem perform_eq {q : Query} {x : SearchStep} (h : x.IsReady q.statement.tables)
    (hx : x.rejection? = none) : q.perform x = .ok (q.after [x]) := by
  cases x with
  | join table =>
    obtain ⟨⟨base, hbase, hbelow⟩, hfresh⟩ := h
    rw [perform, leftJoin_eq_ok hbase hbelow hfresh]
    simp [after, registerAll, numbered, Predicate.values, Predicate.texts]
    rfl
  | select table column result =>
    have hrun : q.statement.run (.selected table column result) =
        (.ok s!"{aliasIn q.statement.tables table}.{column} AS {result}",
          q.statement.registerAll []) := by
      rw [Clause.selected, Clause.needAlias, Statement.run, aliasFor_of_mem h.1, registerAll,
        numbered, List.append_nil]
      rfl
    rw [perform, Query.select, select_eq_ok hrun]
    simp [after, registerAll, numbered, Predicate.values, Predicate.texts]
    rfl
  | filter p =>
    rw [perform, Query.filter, filter_eq_ok (p.run_clause (aliasFor_of_mem h.1))]
    simp [after, registerAll, Predicate.values, Predicate.texts]
    rfl
  | reject field problem => cases hx

/-- The aliases in what a step adds do not change with the tables joined later. -/
theorem after_cons {q : Query} {x : SearchStep} (h : x.IsReady q.statement.tables)
    (steps : List SearchStep) : (q.after [x]).after steps = q.after (x :: steps) := by
  cases x with
  | join table =>
    simp [after, registerAll, numbered, Predicate.values, Predicate.texts]
  | select table column result =>
    simp [after, registerAll, numbered, Predicate.values, Predicate.texts, aliasIn_append h.1]
  | filter p =>
    simp [after, registerAll, numbered_append, Predicate.values, Predicate.texts, aliasIn_append h.1]
  | reject field problem =>
    simp [after, registerAll, numbered, Predicate.values, Predicate.texts]

/-- Steps in order are performed up to the first rejection, which is the failure. -/
theorem foldlM_perform {q : Query} {steps : List SearchStep}
    (h : AreOrderly q.statement.tables steps) :
    steps.foldlM perform q = match steps.findSome? rejection? with
      | some (field, problem) => .error (.badCondition field problem)
      | none => .ok (q.after steps) := by
  induction steps generalizing q with
  | nil => rw [after_nil]; rfl
  | cons x xs ih =>
    rw [List.foldlM_cons]
    cases hx : x.rejection? with
    | some r =>
      cases x with
      | reject field problem => rfl
      | _ => cases hx
    | none =>
      have hxs : AreOrderly (q.after [x]).statement.tables xs := by
        simpa [after] using h.2
      rw [perform_eq h.1 hx, List.findSome?_cons, hx, ← after_cons h.1 xs]
      exact ih hxs

end Query

namespace SearchStep

/-- A step that is about a given table, and a column of it that is allowed, or a rejection. -/
def IsAt (e : Entity) (allowed : String → Prop) : SearchStep → Prop
  | join _ => False
  | select table column _ => table = e ∧ allowed column
  | filter p => p.table = e ∧ allowed p.column
  | reject _ _ => True

variable {e : Entity} {allowed : String → Prop} {x : SearchStep} {column : String}

theorem IsAt.isReady (h : x.IsAt e allowed)
    (hc : ∀ column, allowed column → (e.column? column).isSome = true) {tables : List Entity}
    (he : e ∈ tables) : x.IsReady tables := by
  cases x with
  | join table => cases h
  | select table column result =>
    obtain ⟨rfl, hallowed⟩ := h
    exact ⟨he, hc column hallowed⟩
  | filter p =>
    obtain ⟨rfl, hallowed⟩ := h
    exact ⟨he, hc p.column hallowed⟩
  | reject field problem => trivial

theorem IsAt.joined_eq_nil (h : x.IsAt e allowed) : x.joined = [] := by
  cases x with
  | join table => cases h
  | _ => rfl

theorem flatMap_joined_eq_nil {steps : List SearchStep} (h : ∀ x ∈ steps, x.IsAt e allowed) :
    steps.flatMap joined = [] :=
  List.flatMap_eq_nil_iff.2 fun x hx => (h x hx).joined_eq_nil

theorem areOrderly_of_isAt (hc : ∀ column, allowed column → (e.column? column).isSome = true)
    {tables : List Entity} (he : e ∈ tables) {steps : List SearchStep}
    (h : ∀ x ∈ steps, x.IsAt e allowed) : AreOrderly tables steps := by
  induction steps with
  | nil => trivial
  | cons x xs ih =>
    have hx := h x List.mem_cons_self
    refine ⟨hx.isReady hc he, ?_⟩
    rw [hx.joined_eq_nil, List.append_nil]
    exact ih fun y hy => h y (List.mem_cons_of_mem x hy)

theorem isAt_comparison (hc : allowed column) (operator : String) (value : Option Json) :
    ∀ x ∈ comparison e column operator value, x.IsAt e allowed := by
  intro x hx
  obtain ⟨v, -, rfl⟩ := List.mem_map.1 hx
  exact ⟨rfl, hc⟩

theorem isAt_ofScalarValue (hc : allowed column) (kind : ScalarKind) (value : Json)
    (field : String) : ∀ x ∈ ofScalarValue e column kind value field, x.IsAt e allowed := by
  unfold ofScalarValue
  cases kind.filterStyle with
  | range =>
    cases value.isObject with
    | true => exact List.forall_mem_append.2 ⟨isAt_comparison hc _ _, isAt_comparison hc _ _⟩
    | false => exact List.forall_mem_singleton.2 trivial
  | select =>
    cases kind with
    | enumeration definition =>
      dsimp only
      cases Query.item? definition value with
      | some n => exact List.forall_mem_singleton.2 ⟨rfl, hc⟩
      | none => exact List.forall_mem_singleton.2 trivial
    | _ => exact List.forall_mem_nil _
  | freeText =>
    cases value with
    | string text =>
      dsimp only
      split
      · exact List.forall_mem_nil _
      · exact List.forall_mem_singleton.2 ⟨rfl, hc⟩
    | _ => exact List.forall_mem_singleton.2 trivial
  | exact =>
    cases value with
    | bool b => exact List.forall_mem_singleton.2 ⟨rfl, hc⟩
    | _ => exact List.forall_mem_singleton.2 trivial

theorem isAt_ofReferenceValue {name : String} (hc : ∀ y ∈ e.referenceColumns name, allowed y.1.name)
    (value : Json) (field : String) :
    ∀ x ∈ ofReferenceValue e name value field, x.IsAt e allowed := by
  unfold ofReferenceValue
  cases value.isObject with
  | false => exact List.forall_mem_singleton.2 trivial
  | true =>
    cases conditionField (some value) "key" with
    | none => exact List.forall_mem_nil _
    | some key =>
      cases key with
      | object key => exact List.forall_mem_flatMap.2 fun y hy => isAt_comparison (hc y hy) _ _
      | _ => exact List.forall_mem_singleton.2 trivial

theorem isAt_ofToggle (e : Entity) (p : SearchPlace) (toggle : String) :
    ∀ x ∈ ofToggle p toggle, x.IsAt e allowed := by
  unfold ofToggle
  split
  · exact List.forall_mem_nil _
  · exact List.forall_mem_nil _
  · exact List.forall_mem_singleton.2 trivial

theorem isAt_choice {v : VariationGroup} (hc : allowed v.name) (tags : List Int) :
    ∀ x ∈ choice e v tags, x.IsAt e allowed := by
  unfold choice
  split
  · exact List.forall_mem_nil _
  · exact List.forall_mem_singleton.2 ⟨rfl, hc⟩

end SearchStep

/-- The columns of a table that a search is about at one member. What it does at a child is about other
tables. -/
def Member.IsAbout (e : Entity) : Member → String → Prop
  | scalar m, column => column = m.name
  | variation v, column => column = v.name
  | reference l, column => ∃ y ∈ e.referenceColumns l.name, y.1.name = column
  | _, _ => False

namespace Schema
open SearchStep
variable {s : Schema} {a : Aggregate} {p : SearchPlace}

theorem IsEntityOf.isSome_column? {e : Entity} {c : Column} (hc : c ∈ e.allColumns) :
    (e.column? c.name).isSome = true :=
  List.find?_isSome.2 ⟨c, hc, decide_eq_true rfl⟩

theorem IsEntityOf.isSome_of_isAbout {e : Entity} (hs : s.IsEntityOf e a) {m : Member}
    (hm : m ∈ s.graph.members a) {column : String} (h : m.IsAbout e column) :
    (e.column? column).isSome = true := by
  cases m with
  | scalar m =>
    obtain rfl : column = m.name := h
    exact IsEntityOf.isSome_column? (hs.mem_allColumns_of_member hm
      (c := Column.ofScalar a.typeName m) (by
        rw [columns_of_scalar]
        exact List.mem_singleton_self _))
  | variation v =>
    obtain rfl : column = v.name := h
    exact IsEntityOf.isSome_column? (hs.mem_allColumns_of_member hm
      (c := Column.discriminator a.typeName v) (List.mem_singleton_self _))
  | reference l =>
    obtain ⟨y, hy, rfl⟩ := h
    exact IsEntityOf.isSome_column? (Entity.mem_referenceColumns.1 hy).1
  | _ => cases h

/-- The steps for a member that is no child are about its columns. -/
theorem isAt_ofMember {m : Member} (hchild : ∀ l, m ≠ .child l)
    (nested : Aggregate → SearchPlace → List SearchStep) :
    ∀ x ∈ ofMember s nested p m, x.IsAt p.table (m.IsAbout p.table) := by
  cases m with
  | child l => exact absurd rfl (hchild l)
  | children l => exact List.forall_mem_nil _
  | scalar m =>
    have hself : (Member.scalar m).IsAbout p.table m.name := rfl
    refine List.forall_mem_cons.2 ⟨⟨rfl, hself⟩, List.forall_mem_flatMap.2 fun v _ => ?_⟩
    exact isAt_ofScalarValue hself m.kind v _
  | variation v =>
    have hself : (Member.variation v).IsAbout p.table v.name := rfl
    refine List.forall_mem_cons.2 ⟨⟨rfl, hself⟩, List.forall_mem_append.2 ⟨?_, isAt_choice hself _⟩⟩
    exact List.forall_mem_flatMap.2 fun x _ => isAt_ofToggle p.table p _
  | reference l =>
    refine List.forall_mem_flatMap.2 fun v _ => isAt_ofReferenceValue (fun y hy => ?_) v _
    exact ⟨y, hy, rfl⟩

/-- A child is joined before anything else is done with it. -/
theorem ofMember_child {l : Link} {target : Entity} (ht : s.entity? l.terminal.path = some target)
    (nested : Aggregate → SearchPlace → List SearchStep) (p : SearchPlace) :
    ofMember s nested p (.child l) = join target :: ofChild (nested l.terminal) p l target := by
  rw [ofMember, ht, Option.toList_some, List.flatMap_singleton]

theorem ofChild_cases (nested : SearchPlace → List SearchStep) (p : SearchPlace) (l : Link)
    (target : Entity) :
    (∃ condition, ofChild nested p l target = nested (p.child l target condition)) ∨
      ofChild nested p l target = [reject (p.inner l.name) .expectedObject] := by
  unfold ofChild
  split
  · exact Or.inl ⟨_, rfl⟩
  · exact Or.inl ⟨_, rfl⟩
  · exact Or.inr rfl

/-- What a member joins is what it owns, or lies inside that. -/
theorem path_of_mem_joined {m : Member} (hm : m ∈ s.graph.members a)
    {nested : Aggregate → SearchPlace → List SearchStep}
    (hn : ∀ l ∈ m.links, ∀ q : SearchPlace, s.IsEntityOf q.table l.terminal →
      ∀ t ∈ (nested l.terminal q).flatMap joined, t.path.isBelow l.terminal.path = true)
    {t : Entity} (ht : t ∈ (ofMember s nested p m).flatMap joined) :
    ∃ l ∈ m.links, t.path = l.terminal.path ∨ t.path.isBelow l.terminal.path = true := by
  by_cases hchild : ∃ l, m = .child l
  · obtain ⟨l, rfl⟩ := hchild
    have hl : l ∈ (Member.child l).links := List.mem_singleton_self l
    obtain ⟨target, he, hs⟩ := exists_entity (AggregateGraph.terminal_mem_of_mem_links hm hl)
    rw [ofMember_child he, List.flatMap_cons, List.mem_append] at ht
    refine ⟨l, hl, ?_⟩
    rcases ht with ht | ht
    · exact Or.inl (List.mem_singleton.1 ht ▸ hs.path)
    · rcases ofChild_cases (nested l.terminal) p l target with ⟨c, hc⟩ | hc
      · rw [hc] at ht
        exact Or.inr (hn l hl (p.child l target c) hs t ht)
      · rw [hc] at ht
        cases ht
  · rw [flatMap_joined_eq_nil (isAt_ofMember (fun l hl => hchild ⟨l, hl⟩) nested)] at ht
    cases ht

/-- A search joins what lies inside its aggregate. -/
theorem isBelow_of_mem_joined (hg : s.graph.IsForest) {levels : Nat} (ha : a ∈ s.graph.nodes)
    (hp : s.IsEntityOf p.table a) {t : Entity}
    (ht : t ∈ (s.searchSteps levels a p).flatMap joined) : t.path.isBelow a.path = true := by
  induction levels generalizing a p t with
  | zero => cases ht
  | succ n ih =>
    rw [searchSteps, List.flatMap_assoc] at ht
    obtain ⟨m, hm, ht⟩ := List.mem_flatMap.1 ht
    obtain ⟨l, hl, hbelow⟩ := path_of_mem_joined hm (fun l hl q hq t ht =>
      ih (AggregateGraph.terminal_mem_of_mem_links hm hl) hq ht) ht
    have hla := Path.isBelow_of_parent? (hg.parent?_of_mem_links ha hm hl)
    rcases hbelow with heq | hbelow
    · exact heq ▸ hla
    · exact Path.isBelow_trans hbelow hla

/-- Whether the members of an aggregate can be searched from a place in a statement. -/
structure Admits (s : Schema) (tables : List Entity) (a : Aggregate) (p : SearchPlace) : Prop where
  entity : s.IsEntityOf p.table a
  known : p.table ∈ tables
  /-- The aggregate is that of the first table, or lies inside it. -/
  inside : ∃ base, tables.head? = some base ∧
    (a.path = base.path ∨ a.path.isBelow base.path = true)
  /-- Nothing inside the aggregate has been joined. -/
  fresh : ∀ t ∈ tables, ¬ t.path.isBelow a.path = true

/-- Among the tables joined for the members before it, none is that of a child or lies inside it. -/
theorem not_isBelow_child (hg : s.graph.IsForest) (ha : a ∈ s.graph.nodes)
    {before after : List Member} {l : Link} {n : Nat}
    (hm : s.graph.members a = before ++ .child l :: after) {t : Entity}
    (ht : t ∈ (before.flatMap (ofMember s (s.searchSteps n) p)).flatMap joined) :
    ¬ (t.path = l.terminal.path ∨ t.path.isBelow l.terminal.path = true) := by
  intro hbelow
  have hml : Member.child l ∈ s.graph.members a := hm ▸ by simp
  rw [List.flatMap_assoc] at ht
  obtain ⟨m, hmb, ht⟩ := List.mem_flatMap.1 ht
  have hma : m ∈ s.graph.members a := hm ▸ List.mem_append_left _ hmb
  obtain ⟨k, hk, hkbelow⟩ := path_of_mem_joined hma (fun k hk q hq t ht =>
    isBelow_of_mem_joined hg (AggregateGraph.terminal_mem_of_mem_links hma hk) hq ht) ht
  have hpath : k.terminal.path = l.terminal.path := Path.eq_of_isBelow
    (hg.parent?_of_mem_links ha hma hk)
    (hg.parent?_of_mem_links ha hml (List.mem_singleton_self l))
    hkbelow hbelow
  -- The child would be owned by two members.
  have hdistinct := hg.nodup_terminals a
  rw [hm, List.flatMap_append, List.nodup_append] at hdistinct
  refine hdistinct.2.2 k.terminal.path (List.mem_flatMap.2 ⟨m, hmb, List.mem_map_of_mem hk⟩)
    l.terminal.path ?_ hpath
  exact List.mem_flatMap.2 ⟨_, List.mem_cons_self, List.mem_singleton_self _⟩

/-- The steps of a search are in order. -/
theorem Admits.areOrderly (hg : s.graph.IsForest) {levels : Nat} {tables : List Entity}
    (ha : a ∈ s.graph.nodes) (h : s.Admits tables a p) :
    AreOrderly tables (s.searchSteps levels a p) := by
  induction levels generalizing a p tables with
  | zero => trivial
  | succ n ih =>
    refine areOrderly_flatMap fun before m after hm => ?_
    have hma : m ∈ s.graph.members a := hm ▸ by simp
    by_cases hchild : ∃ l, m = .child l
    · obtain ⟨l, rfl⟩ := hchild
      have hl : l ∈ (Member.child l).links := List.mem_singleton_self l
      have hb := AggregateGraph.terminal_mem_of_mem_links hma hl
      obtain ⟨target, he, hs⟩ := exists_entity hb
      have hla := Path.isBelow_of_parent? (hg.parent?_of_mem_links ha hma hl)
      have hfresh : ∀ t ∈ tables ++ (before.flatMap (ofMember s (s.searchSteps n) p)).flatMap joined,
          ¬ (t.path = l.terminal.path ∨ t.path.isBelow l.terminal.path = true) := by
        intro t ht
        rcases List.mem_append.1 ht with ht | ht
        · rintro (hta | hta)
          · exact h.fresh t ht (hta ▸ hla)
          · exact h.fresh t ht (Path.isBelow_trans hta hla)
        · exact not_isBelow_child hg ha hm ht
      obtain ⟨base, hbase, hin⟩ := h.inside
      have hinside : l.terminal.path.isBelow base.path = true := by
        rcases hin with hin | hin
        · exact hin ▸ hla
        · exact Path.isBelow_trans hla hin
      have hhead : ∀ more, (tables ++ more).head? = some base := fun more => by
        rw [List.head?_append, hbase]
        rfl
      rw [ofMember_child he]
      refine ⟨⟨⟨base, hhead _, hs.path ▸ hinside⟩, fun t ht heq =>
        hfresh t ht (Or.inl (heq.trans hs.path))⟩, ?_⟩
      rcases ofChild_cases (s.searchSteps n l.terminal) p l target with ⟨c, hc⟩ | hc
      · rw [hc]
        refine ih hb ⟨hs, List.mem_append_right _ (List.mem_singleton_self _), ⟨base, ?_,
          Or.inr hinside⟩, ?_⟩
        · rw [List.append_assoc]
          exact hhead _
        · intro t ht
          rcases List.mem_append.1 ht with ht | ht
          · exact fun hbelow => hfresh t ht (Or.inr hbelow)
          · obtain rfl := List.mem_singleton.1 ht
            rw [hs.path]
            exact Path.not_isBelow_self _
      · rw [hc]
        exact ⟨trivial, trivial⟩
    · refine areOrderly_of_isAt (fun column => h.entity.isSome_of_isAbout hma)
        (List.mem_append_left _ h.known) ?_
      exact isAt_ofMember (fun l hl => hchild ⟨l, hl⟩) _

end Schema

namespace Statement

/-- An order by each of some columns of the first table. -/
theorem foldlM_orderBy {e : Entity} {keys : List Column}
    (hk : ∀ k ∈ keys, (e.column? k.name).isSome = true) {s : Statement}
    (hs : s.tables.head? = some e) :
    keys.foldlM (fun s k => s.orderBy e k.name .ascending) s =
      .ok { s with orders := s.orders ++ keys.map fun k => ⟨0, k.name, .ascending⟩ } := by
  induction keys generalizing s with
  | nil => rw [List.map_nil, List.append_nil]; rfl
  | cons k keys ih =>
    obtain ⟨rest, htables⟩ := List.head?_eq_some_iff.1 hs
    have hposition : s.position? e = some 0 := by
      rw [position?, htables, List.findIdx?_cons, decide_eq_true rfl]
      rfl
    have hcolumn : (e.column? k.name).isNone = false := by
      simpa using hk k List.mem_cons_self
    have horder : s.orderBy e k.name .ascending =
        .ok { s with orders := s.orders ++ [⟨0, k.name, .ascending⟩] } := by
      rw [orderBy, hposition]
      simp only [hcolumn, Bool.false_eq_true, if_false]
    rw [List.foldlM_cons, horder, List.map_cons, List.append_cons s.orders _ (keys.map _)]
    exact ih (fun k hk' => hk k (List.mem_cons_of_mem _ hk'))
      (s := { s with orders := s.orders ++ [⟨0, k.name, .ascending⟩] }) hs

end Statement

namespace Query

/-- The query in which nothing is but the table after FROM. -/
def start (e : Entity) : Query := ⟨{ Statement.empty with tables := [e] }, []⟩

/-- The query that the steps of a search come to, if none is a rejection. -/
def ofSteps (e : Entity) (steps : List SearchStep) : Query :=
  let q := (start e).after steps
  { q with statement :=
    { q.statement with orders := e.keys.map fun k => ⟨0, k.name, .ascending⟩ } }

end Query

namespace Schema
open SearchStep
variable {s : Schema} {a : Aggregate} {e : Entity}

/-- The steps of the search for the instances of an aggregate that meet a condition. -/
def search (s : Schema) (a : Aggregate) (e : Entity) : Json → List SearchStep
  | .null => s.searchSteps s.graph.nodes.length a ⟨e, none, [], a.typeName⟩
  | .object fields =>
    s.searchSteps s.graph.nodes.length a ⟨e, some (.object fields), [], a.typeName⟩
  | _ => [reject a.typeName .expectedObject]

theorem admits_start {p : SearchPlace} (hp : s.IsEntityOf p.table a) :
    s.Admits [p.table] a p := by
  refine ⟨hp, List.mem_singleton_self _, ⟨p.table, rfl, Or.inl hp.path.symm⟩, fun t ht => ?_⟩
  rw [List.mem_singleton.1 ht, hp.path]
  exact Path.not_isBelow_self _

theorem areOrderly_search (hg : s.graph.IsForest) (ha : a ∈ s.graph.nodes) (hs : s.IsEntityOf e a)
    (condition : Json) : AreOrderly [e] (s.search a e condition) := by
  have hsteps : ∀ c, AreOrderly [e] (s.searchSteps s.graph.nodes.length a ⟨e, c, [], a.typeName⟩) :=
    fun c => (admits_start (p := ⟨e, c, [], a.typeName⟩) hs).areOrderly hg ha
  cases condition with
  | null => exact hsteps none
  | object fields => exact hsteps (some (.object fields))
  | _ => exact ⟨trivial, trivial⟩

/-- A search fails with the first rejection among its steps, and with nothing else. -/
theorem build_eq (hg : s.graph.IsForest) (ha : a ∈ s.graph.nodes)
    (he : s.entity? a.path = some e) (condition : Json) :
    Query.build s a.path condition = match (s.search a e condition).findSome? rejection? with
      | some (field, problem) => .error (.badCondition field problem)
      | none => .ok (.ofSteps e (s.search a e condition)) := by
  have hs := isEntityOf_of_entity? ha he
  have hentity : s.entityOf a = .ok e := by rw [entityOf, he]
  have hnode : s.node? a.path = some a := s.graph.node?_id ha
  have hkeys : ∀ k ∈ e.keys, (e.column? k.name).isSome = true := fun k hk =>
    IsEntityOf.isSome_column? (List.mem_append_left _ hk)
  have horders := fun steps => Statement.foldlM_orderBy hkeys
    (s := ((Query.start e).after steps).statement) rfl
  have hsearch : ∀ c, (do
      let q ← Query.contribute s s.graph.nodes.length (.start e) a e c [] a.typeName
      let st ← Query.liftStatement (e.keys.foldlM (fun (st : Statement) (k : Column) =>
        st.orderBy e k.name .ascending) q.statement)
      return { q with statement := st }) =
      match (s.searchSteps s.graph.nodes.length a ⟨e, c, [], a.typeName⟩).findSome? rejection? with
      | some (field, problem) => .error (.badCondition field problem)
      | none => .ok (.ofSteps e (s.searchSteps s.graph.nodes.length a ⟨e, c, [], a.typeName⟩)) := by
    intro c
    have hcontribute := contribute_eq hg ha (AggregateGraph.height_lt_length ha)
      (p := ⟨e, c, [], a.typeName⟩) hs (.start e)
    have horder : AreOrderly [e] (s.searchSteps s.graph.nodes.length a ⟨e, c, [], a.typeName⟩) :=
      (admits_start (p := ⟨e, c, [], a.typeName⟩) hs).areOrderly hg ha
    rw [hcontribute, Query.foldlM_perform horder]
    split
    · rfl
    · change (Query.liftStatement (e.keys.foldlM _ _) >>= _) = _
      rw [horders]
      rfl
  rw [Query.build, hnode]
  change (s.entityOf a >>= _) = _
  rw [hentity]
  cases condition with
  | null => exact hsearch none
  | object fields => exact hsearch (some (.object fields))
  | _ => rfl

end Schema

end AggregateSchema
