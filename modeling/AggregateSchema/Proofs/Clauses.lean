import AggregateSchema.Proofs.Traversal
import AggregateSchema.Statement

/-! What clauses and calls do to a statement. -/
namespace AggregateSchema

namespace Statement

/-- Values under the placeholders from a number on. -/
def numbered (first : Nat) : List Json → List Parameter
  | [] => []
  | v :: vs => ⟨placeholder first, v⟩ :: numbered (first + 1) vs

@[simp] theorem length_numbered (first : Nat) (values : List Json) :
    (numbered first values).length = values.length := by
  induction values generalizing first with
  | nil => rfl
  | cons v vs ih => rw [numbered, List.length_cons, List.length_cons, ih]

theorem numbered_append (first : Nat) (values more : List Json) :
    numbered first (values ++ more) =
      numbered first values ++ numbered (first + values.length) more := by
  induction values generalizing first with
  | nil => rfl
  | cons v vs ih =>
    rw [List.cons_append, numbered, numbered, ih, List.cons_append, List.length_cons,
      Nat.add_comm vs.length, Nat.add_assoc]

theorem getElem?_numbered (first : Nat) (values : List Json) (i : Nat) :
    (numbered first values)[i]? = values[i]?.map (⟨placeholder (first + i), ·⟩) := by
  induction values generalizing first i with
  | nil => rfl
  | cons v vs ih =>
    cases i with
    | zero => rfl
    | succ i =>
      rw [numbered, List.getElem?_cons_succ, List.getElem?_cons_succ, ih, Nat.add_assoc,
        Nat.add_comm 1]

/-- A statement with some more values registered. -/
def registerAll (s : Statement) (values : List Json) : Statement :=
  { s with parameters := s.parameters ++ numbered s.parameters.length values }

/-- A clause registers parameters under the next placeholders, and does nothing else. -/
theorem exists_values_of_run (s : Statement) (c : Clause) :
    ∃ values, (s.run c).2 = s.registerAll values := by
  induction c generalizing s with
  | text t => exact ⟨[], by simp [run, registerAll, numbered]⟩
  | reject problem => exact ⟨[], by simp [run, registerAll, numbered]⟩
  | aliasFor table next ih => exact ih (s.aliasFor table) s
  | parameter value next ih =>
    obtain ⟨values, h⟩ := ih (s.register value).1 (s.register value).2
    refine ⟨value :: values, ?_⟩
    rw [run, h]
    simp [registerAll, register, numbered]

/-- A clause ends with a text, or it is rejected and nothing that it registered is left. -/
theorem runClause_cases (s : Statement) (clause : Clause) :
    (∃ text values, s.run clause = (.ok text, s.registerAll values) ∧
      s.runClause clause = (.ok text, s.registerAll values)) ∨
    ∃ p, s.runClause clause = (.error p, s) := by
  obtain ⟨values, hv⟩ := s.exists_values_of_run clause
  cases hr : (s.run clause).1 with
  | ok text =>
    have hrun : s.run clause = (.ok text, s.registerAll values) := Prod.ext hr hv
    exact Or.inl ⟨text, values, hrun, by rw [runClause, hrun]⟩
  | error p =>
    have hrun : s.run clause = (.error p, s.registerAll values) := Prod.ext hr hv
    refine Or.inr ⟨p, ?_⟩
    rw [runClause, hrun]
    simp [registerAll]

/-- What an accepted call does to a statement. -/
inductive Accepts (s : Statement) : Call → Statement → Prop
  | setFrom {table : Entity} (first : s.tables = []) :
    Accepts s (.setFrom table) { s with tables := [table] }
  | leftJoin {base table : Entity} {joined : List Entity} (source : s.tables = base :: joined)
    (fresh : ∀ t ∈ s.tables, t.path ≠ table.path) (below : table.path.isBelow base.path = true) :
    Accepts s (.leftJoin table) { s with tables := s.tables ++ [table] }
  | select {clause : Clause} {text : String} {values : List Json}
    (run : s.run clause = (.ok text, s.registerAll values)) :
    Accepts s (.select clause)
      { s.registerAll values with selections := s.selections ++ [text] }
  | filter {clause : Clause} {text : String} {values : List Json}
    (run : s.run clause = (.ok text, s.registerAll values)) :
    Accepts s (.filter clause) { s.registerAll values with filters := s.filters ++ [text] }
  | orderBy {table : Entity} {column : String} {direction : Direction} {i : Nat}
    (position : s.position? table = some i) (known : (table.column? column).isSome = true) :
    Accepts s (.orderBy table column direction)
      { s with orders := s.orders ++ [⟨i, column, direction⟩] }

theorem position?_eq_none_iff {s : Statement} {table : Entity} :
    s.position? table = none ↔ ∀ t ∈ s.tables, t.path ≠ table.path := by
  simp [position?, List.findIdx?_eq_none_iff]

theorem accepts_of_setFrom {s t : Statement} {table : Entity} (h : s.setFrom table = .ok t) :
    s.Accepts (.setFrom table) t := by
  unfold setFrom at h
  split at h
  · cases h
  · rename_i hs
    cases h
    exact .setFrom hs

theorem accepts_of_leftJoin {s t : Statement} {table : Entity} (h : s.leftJoin table = .ok t) :
    s.Accepts (.leftJoin table) t := by
  unfold leftJoin at h
  split at h
  · cases h
  · rename_i base joined hs
    by_cases hp : base.path = table.path
    · rw [if_pos hp] at h
      cases h
    by_cases hj : (s.position? table).isSome = true
    · rw [if_neg hp, if_pos hj] at h
      cases h
    cases hb : base.isAncestorOf table with
    | false =>
      rw [if_neg hp, if_neg hj, hb] at h
      cases h
    | true =>
      rw [if_neg hp, if_neg hj, hb] at h
      cases h
      exact .leftJoin hs (position?_eq_none_iff.1 (by simpa using hj)) hb

theorem accepts_of_orderBy {s t : Statement} {table : Entity} {column : String}
    {direction : Direction} (h : s.orderBy table column direction = .ok t) :
    s.Accepts (.orderBy table column direction) t := by
  unfold orderBy at h
  split at h
  · cases h
  · rename_i i hi
    by_cases hc : (table.column? column).isNone = true
    · rw [if_pos hc] at h
      cases h
    · rw [if_neg hc] at h
      cases h
      exact .orderBy hi (Option.isSome_iff_ne_none.2 (by simpa using hc))

/-- A call is accepted, or it leaves the statement as it was. -/
theorem perform_cases (s : Statement) (c : Call) :
    (∃ t, s.perform c = (.ok (), t) ∧ s.Accepts c t) ∨ ∃ p, s.perform c = (.error p, s) := by
  have hchecked : ∀ {r : Except StatementProblem Statement},
      s.perform c = s.checked r → (∀ t, r = .ok t → s.Accepts c t) →
        (∃ t, s.perform c = (.ok (), t) ∧ s.Accepts c t) ∨ ∃ p, s.perform c = (.error p, s) := by
    intro r hr ht
    rw [hr]
    cases r with
    | ok t => exact Or.inl ⟨t, rfl, ht t rfl⟩
    | error p => exact Or.inr ⟨p, rfl⟩
  cases c with
  | setFrom table => exact hchecked rfl fun t => accepts_of_setFrom
  | leftJoin table => exact hchecked rfl fun t => accepts_of_leftJoin
  | orderBy table column direction => exact hchecked rfl fun t => accepts_of_orderBy
  | select clause =>
    rcases s.runClause_cases clause with ⟨text, values, hrun, hc⟩ | ⟨p, hc⟩
    · exact Or.inl ⟨_, by rw [perform, hc]; rfl, .select hrun⟩
    · exact Or.inr ⟨p, by rw [perform, hc]⟩
  | filter clause =>
    rcases s.runClause_cases clause with ⟨text, values, hrun, hc⟩ | ⟨p, hc⟩
    · exact Or.inl ⟨_, by rw [perform, hc]; rfl, .filter hrun⟩
    · exact Or.inr ⟨p, by rw [perform, hc]⟩

end Statement

end AggregateSchema
