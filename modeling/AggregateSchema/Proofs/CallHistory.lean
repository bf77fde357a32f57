import AggregateSchema.Proofs.Clauses
import AggregateSchema.Proofs.Entities

/-! Histories of calls on a statement: what holds after every one of them, and that a rejected call
leaves no trace. -/
namespace AggregateSchema

/-- A call that names tables of a schema. A clause may ask for any table. -/
def Call.IsOver (s : Schema) : Call → Prop
  | .setFrom table | .leftJoin table | .orderBy table _ _ => table ∈ s.entities
  | .select _ | .filter _ => True

namespace Statement

theorem aliasOf_inj {i j : Nat} : aliasOf i = aliasOf j ↔ i = j := by
  refine ⟨fun h => ?_, congrArg aliasOf⟩
  have hdigits : ∀ n, Nat.ofDigitChars 10 (Nat.toDigits 10 n) 0 = n := fun n =>
    Nat.ofDigitChars_toDigits (by decide) (by decide)
  have htext : "t" ++ Nat.repr i = "t" ++ Nat.repr j := h
  rw [String.append_right_inj] at htext
  rw [← hdigits i, String.ofList_inj.1 htext, hdigits]

/-- The table that an alias stands for in the text of a statement. -/
def denoted? (s : Statement) (name : String) : Option Entity :=
  (s.tables.zipIdx.find? fun x => aliasOf x.2 = name).map (·.1)

theorem denoted?_aliasOf (s : Statement) (i : Nat) : s.denoted? (aliasOf i) = s.tables[i]? := by
  have h : ∀ (tables : List Entity) (first i : Nat),
      ((tables.zipIdx first).find? fun x => aliasOf x.2 = aliasOf (first + i)).map (·.1) =
        tables[i]? := by
    intro tables
    induction tables with
    | nil => simp
    | cons table tables ih =>
      intro first i
      cases i with
      | zero => simp
      | succ i =>
        have hne : ¬ aliasOf first = aliasOf (first + (i + 1)) := by
          rw [aliasOf_inj]
          omega
        have hi := ih (first + 1) i
        rw [Nat.add_assoc, Nat.add_comm 1] at hi
        simp [List.zipIdx_cons, hne, hi]
  simpa [denoted?] using h s.tables 0 i

/-- The aliases that a clause is given, with the tables that it asks for. -/
def clauseAliases (s : Statement) : Clause → List (Entity × String)
  | .text _ | .reject _ => []
  | .aliasFor table next =>
    (s.aliasFor table).toOption.toList.map (table, ·) ++ s.clauseAliases (next (s.aliasFor table))
  | .parameter value next => (s.register value).2.clauseAliases (next (s.register value).1)

/-- The aliases that a call is given. -/
def callAliases (s : Statement) : Call → List (Entity × String)
  | .select clause | .filter clause => s.clauseAliases clause
  | .setFrom _ | .leftJoin _ | .orderBy _ _ _ => []

/-- A clause is given the same aliases before and after it registers parameters. -/
theorem aliasFor_of_mem_clauseAliases {s : Statement} {c : Clause} {table : Entity}
    {name : String} (h : (table, name) ∈ s.clauseAliases c) : s.aliasFor table = .ok name := by
  induction c generalizing s with
  | text t => cases h
  | reject problem => cases h
  | aliasFor other next ih =>
    rw [clauseAliases, List.mem_append] at h
    rcases h with h | h
    · cases ha : s.aliasFor other with
      | error p => simp [ha, Except.toOption] at h
      | ok a =>
        simp only [ha, Except.toOption, Option.toList_some, List.map_singleton,
          List.mem_singleton, Prod.mk.injEq] at h
        rw [h.1, h.2, ha]
    · exact ih _ h
  | parameter value next ih => exact ih (s.register value).1 (s := (s.register value).2) h

theorem aliasFor_of_mem_callAliases {s : Statement} {c : Call} {table : Entity} {name : String}
    (h : (table, name) ∈ s.callAliases c) : s.aliasFor table = .ok name := by
  cases c with
  | select clause => exact aliasFor_of_mem_clauseAliases h
  | filter clause => exact aliasFor_of_mem_clauseAliases h
  | _ => cases h

theorem aliasFor_eq_ok {s : Statement} {table : Entity} {name : String}
    (h : s.aliasFor table = .ok name) :
    ∃ i t, name = aliasOf i ∧ s.tables[i]? = some t ∧ t.path = table.path := by
  unfold aliasFor at h
  split at h
  · rename_i i hi
    obtain ⟨hlt, hp, -⟩ := List.findIdx?_eq_some_iff_getElem.1 hi
    exact ⟨i, s.tables[i], (Except.ok.inj h).symm, List.getElem?_eq_getElem hlt,
      of_decide_eq_true hp⟩
  · cases h

/-- What holds of a statement over tables of a schema. -/
structure IsSound (sch : Schema) (s : Statement) : Prop where
  known : ∀ t ∈ s.tables, t ∈ sch.entities
  distinct : (s.tables.map Entity.path).Nodup
  /-- Every table lies inside the one after FROM. -/
  inside : ∀ base joined, s.tables = base :: joined →
    ∀ t ∈ joined, t.path.isBelow base.path = true
  numbered : ∀ i p, s.parameters[i]? = some p → p.name = placeholder i
  /-- Every order is by a column of a table of the statement. -/
  ordered : ∀ o ∈ s.orders, ∃ t, s.tables[o.table]? = some t ∧ (t.column? o.column).isSome = true

variable {sch : Schema} {s t : Statement} {c : Call}

theorem isSound_empty (sch : Schema) : empty.IsSound sch where
  known t ht := by cases ht
  distinct := List.nodup_nil
  inside base joined h := by cases h
  numbered i p h := by cases h
  ordered o ho := by cases ho

theorem IsSound.registerAll (h : s.IsSound sch) (values : List Json) :
    (s.registerAll values).IsSound sch where
  known := h.known
  distinct := h.distinct
  inside := h.inside
  numbered i p hp := by
    rw [Statement.registerAll, List.getElem?_append] at hp
    split at hp
    · exact h.numbered i p hp
    · rw [getElem?_numbered] at hp
      obtain ⟨v, -, rfl⟩ := Option.map_eq_some_iff.1 hp
      dsimp only
      congr 1
      omega
  ordered := h.ordered

/-- More tables do not change the numbers of those that there are. -/
theorem getElem?_of_prefix {tables more : List Entity} (hp : tables <+: more) {i : Nat} {t : Entity}
    (h : tables[i]? = some t) : more[i]? = some t := by
  obtain ⟨rest, rfl⟩ := hp
  rw [List.getElem?_append_left (List.getElem?_eq_some_iff.1 h).1, h]

theorem ordered_of_prefix {tables more : List Entity} (hp : tables <+: more) {o : Order}
    (h : ∃ t, tables[o.table]? = some t ∧ (t.column? o.column).isSome = true) :
    ∃ t, more[o.table]? = some t ∧ (t.column? o.column).isSome = true := by
  obtain ⟨t, ht, hc⟩ := h
  exact ⟨t, getElem?_of_prefix hp ht, hc⟩

theorem Accepts.tables_prefix (h : s.Accepts c t) : s.tables <+: t.tables := by
  cases h with
  | setFrom first => simp [first]
  | leftJoin source fresh below => exact List.prefix_append _ _
  | _ => exact List.prefix_rfl

/-- An accepted call over tables of a schema keeps a statement sound. -/
theorem IsSound.accepts (h : s.IsSound sch) (hc : c.IsOver sch) (ha : s.Accepts c t) :
    t.IsSound sch := by
  cases ha with
  | @setFrom table first =>
    refine ⟨?_, List.nodup_singleton _, ?_, h.numbered, ?_⟩
    · exact fun t ht => List.mem_singleton.1 ht ▸ hc
    · intro base joined hb t ht
      obtain ⟨-, rfl⟩ := List.cons.inj hb
      cases ht
    · exact fun o ho => ordered_of_prefix (by simp [first]) (h.ordered o ho)
  | @leftJoin base table joined source fresh below =>
    refine ⟨?_, ?_, ?_, h.numbered, ?_⟩
    · intro t ht
      rcases List.mem_append.1 ht with ht | ht
      · exact h.known t ht
      · exact List.mem_singleton.1 ht ▸ hc
    · rw [List.map_append, List.map_singleton]
      refine List.nodup_append.2 ⟨h.distinct, List.nodup_singleton _, ?_⟩
      intro p hp q hq he
      obtain ⟨t, ht, rfl⟩ := List.mem_map.1 hp
      exact fresh t ht (he.trans (List.mem_singleton.1 hq))
    · intro base' joined' hb t ht
      rw [source, List.cons_append] at hb
      obtain ⟨rfl, rfl⟩ := List.cons.inj hb
      rcases List.mem_append.1 ht with ht | ht
      · exact h.inside base joined source t ht
      · exact List.mem_singleton.1 ht ▸ below
    · exact fun o ho => ordered_of_prefix (List.prefix_append _ _) (h.ordered o ho)
  | @select clause text values run =>
    have hr := h.registerAll values
    exact ⟨hr.known, hr.distinct, hr.inside, hr.numbered, hr.ordered⟩
  | @filter clause text values run =>
    have hr := h.registerAll values
    exact ⟨hr.known, hr.distinct, hr.inside, hr.numbered, hr.ordered⟩
  | @orderBy table column direction i position known =>
    refine ⟨h.known, h.distinct, h.inside, h.numbered, ?_⟩
    intro o ho
    rcases List.mem_append.1 ho with ho | ho
    · exact h.ordered o ho
    · obtain rfl := List.mem_singleton.1 ho
      obtain ⟨hlt, hp, -⟩ := List.findIdx?_eq_some_iff_getElem.1 position
      -- The table asked for is the one registered, as both are tables of the schema.
      have he : s.tables[i] = table :=
        Schema.eq_of_path_eq (h.known _ (List.getElem_mem hlt)) hc (of_decide_eq_true hp)
      exact ⟨table, by rw [List.getElem?_eq_getElem hlt, he], known⟩

/-- A table is given an alias, on request or in a clause of the next call. -/
def Gives (s : Statement) (next? : Option Call) (table : Entity) (name : String) : Prop :=
  s.aliasFor table = .ok name ∨ ∃ c ∈ next?, (table, name) ∈ s.callAliases c

theorem Gives.aliasFor_eq {next? : Option Call} {table : Entity} {name : String}
    (h : s.Gives next? table name) : s.aliasFor table = .ok name := by
  rcases h with h | ⟨c, -, h⟩
  · exact h
  · exact aliasFor_of_mem_callAliases h

/-- The statement after some calls, accepted or not. -/
def history (s : Statement) (calls : List Call) : Statement :=
  calls.foldl (fun s c => (s.perform c).2) s

/-- Those of some calls that are accepted, one after the other. -/
def accepted (s : Statement) : List Call → List Call
  | [] => []
  | c :: calls => match s.perform c with
    | (.ok _, t) => c :: t.accepted calls
    | (.error _, t) => t.accepted calls

theorem history_append (s : Statement) (calls more : List Call) :
    s.history (calls ++ more) = (s.history calls).history more := List.foldl_append

theorem IsSound.history (h : s.IsSound sch) {calls : List Call}
    (hc : ∀ c ∈ calls, c.IsOver sch) : (s.history calls).IsSound sch := by
  induction calls generalizing s with
  | nil => exact h
  | cons c calls ih =>
    have hcalls := fun x hx => hc x (List.mem_cons_of_mem c hx)
    rcases s.perform_cases c with ⟨t, hp, ha⟩ | ⟨p, hp⟩
    · rw [Statement.history, List.foldl_cons, hp]
      exact ih (h.accepts (hc c List.mem_cons_self) ha) hcalls
    · rw [Statement.history, List.foldl_cons, hp]
      exact ih h hcalls

theorem tables_prefix_history (s : Statement) (calls : List Call) :
    s.tables <+: (s.history calls).tables := by
  induction calls generalizing s with
  | nil => exact List.prefix_rfl
  | cons c calls ih =>
    rcases s.perform_cases c with ⟨t, hp, ha⟩ | ⟨p, hp⟩
    · rw [history, List.foldl_cons, hp]
      exact ha.tables_prefix.trans (ih t)
    · rw [history, List.foldl_cons, hp]
      exact ih s

/-- An alias stands for the table that it was given for, whatever is called later. -/
theorem IsSound.denoted?_history (h : s.IsSound sch) {table : Entity} (ht : table ∈ sch.entities)
    {name : String} (ha : s.aliasFor table = .ok name) (calls : List Call) :
    (s.history calls).denoted? name = some table := by
  obtain ⟨i, t, rfl, hi, hp⟩ := aliasFor_eq_ok ha
  obtain rfl : t = table := Schema.eq_of_path_eq (h.known t (List.mem_of_getElem? hi)) ht hp
  rw [denoted?_aliasOf]
  exact getElem?_of_prefix (tables_prefix_history s calls) hi

/-- The accepted calls alone are all accepted again, and lead to the same statement. -/
theorem history_accepted (s : Statement) (calls : List Call) :
    s.history (s.accepted calls) = s.history calls ∧
      s.accepted (s.accepted calls) = s.accepted calls := by
  induction calls generalizing s with
  | nil => exact ⟨rfl, rfl⟩
  | cons c calls ih =>
    rcases s.perform_cases c with ⟨t, hp, -⟩ | ⟨p, hp⟩
    · have ha : ∀ more, s.accepted (c :: more) = c :: t.accepted more := fun more => by
        rw [accepted, hp]
      have hh : ∀ more, s.history (c :: more) = t.history more := fun more => by
        rw [history, List.foldl_cons, hp, ← history]
      rw [ha, ha, hh, hh, (ih t).1, (ih t).2]
      exact ⟨rfl, rfl⟩
    · have ha : s.accepted (c :: calls) = s.accepted calls := by rw [accepted, hp]
      have hh : s.history (c :: calls) = s.history calls := by
        rw [history, List.foldl_cons, hp, ← history]
      rw [ha, hh]
      exact ih s

end Statement

open Statement in
/-- After any calls over tables of a schema, accepted or rejected, a statement is sound, every alias
that was given stands for its table still, and nothing is left of the rejected calls. -/
theorem Schema.isSound_history (sch : Schema) {calls : List Call}
    (h : ∀ c ∈ calls, c.IsOver sch) :
    (empty.history calls).IsSound sch ∧
    (∀ before after, calls = before ++ after → ∀ table ∈ sch.entities, ∀ name,
      (empty.history before).Gives after.head? table name →
        (empty.history calls).denoted? name = some table) ∧
    empty.history (empty.accepted calls) = empty.history calls ∧
    empty.accepted (empty.accepted calls) = empty.accepted calls := by
  have hempty := isSound_empty sch
  refine ⟨hempty.history h, ?_, history_accepted _ _⟩
  rintro before after rfl table ht name hname
  have hbefore := hempty.history fun c hc => h c (List.mem_append_left _ hc)
  rw [history_append]
  exact hbefore.denoted?_history ht hname.aliasFor_eq after

/-- Tries every table but the first after FROM, every table in a join, in a predicate that registers
a value before it asks for the table, and in an order. -/
def Schema.trials (sch : Schema) : List Call :=
  (sch.entities.drop 1).map .setFrom ++ sch.entities.map .leftJoin ++
    sch.entities.map (fun e => .filter (.parameter (.integer 1) fun p =>
      .needAlias e fun t => .text (t ++ " = " ++ p))) ++
    sch.entities.map fun e => .orderBy e "number" .ascending

open Statement in
theorem Schema.isSound_history_orders : ∃ sch, Draft.orders.resolve .standard = .ok sch ∧
    (∀ c ∈ sch.trials, c.IsOver sch) ∧ sch.trials.length = 23 ∧
    (empty.accepted sch.trials).length = 11 ∧ (empty.history sch.trials).parameters.length = 5 ∧
    (empty.history sch.trials).IsSound sch ∧
    empty.history (empty.accepted sch.trials) = empty.history sch.trials := by
  obtain ⟨sch, hs, h⟩ := exists_ok_of_any (Draft.orders.resolve .standard)
    (fun sch => sch.trials.length = 23 ∧ (empty.accepted sch.trials).length = 11 ∧
      (empty.history sch.trials).parameters.length = 5) (by decide +kernel)
  obtain ⟨hall, haccepted, hparameters⟩ := of_decide_eq_true h
  have hover : ∀ c ∈ sch.trials, c.IsOver sch := by
    intro c hc
    simp only [Schema.trials, List.mem_append, List.mem_map] at hc
    rcases hc with ((⟨e, he, rfl⟩ | ⟨e, he, rfl⟩) | ⟨e, he, rfl⟩) | ⟨e, he, rfl⟩
    · exact List.mem_of_mem_drop he
    · exact he
    · trivial
    · exact he
  obtain ⟨hsound, -, hsame, -⟩ := sch.isSound_history hover
  exact ⟨sch, hs, hover, hall, haccepted, hparameters, hsound, hsame⟩

end AggregateSchema
