import AggregateSchema.Proofs.Ownership
import AggregateSchema.Proofs.Traversal

/-! The keys of all aggregates, found in rounds: in each of them the rules of the aggregates without a
key are tried on the keys that are known. The search for a single key finds the same ones. -/
namespace AggregateSchema

/-- The aggregate that a key reference refers to. -/
def Member.keyTarget? : Member → Option Aggregate
  | reference l => if l.relation.isKeyReference then some l.terminal else none
  | _ => none

namespace KeyRule

/-- The own key columns, once every key that they need is known. -/
def own? (r : KeyRule) (known : Path → Option (List Column)) : Option (List Column) :=
  r.own fun b => known b.path

/-- The key, once every key that it needs is known. -/
def key? (r : KeyRule) (known : Path → Option (List Column)) : Option (List Column) :=
  r.key fun b => known b.path

/-- The aggregates whose keys are needed: those referred to by the key, and the owner. -/
def needs (r : KeyRule) : List Aggregate :=
  r.members.filterMap Member.keyTarget? ++ r.owner?.toList

end KeyRule

/-- The keys found so far, and the rules of the aggregates whose keys were not. -/
structure KeyTable where
  found : List (Path × List Column)
  waiting : List KeyRule

namespace KeyTable

def get? (t : KeyTable) (path : Path) : Option (List Column) := t.found.lookup path

/-- Finds the key of one more aggregate, or puts its rule among those that wait. -/
def add (t : KeyTable) (r : KeyRule) : KeyTable :=
  match r.key? t.get? with
  | some key => { t with found := (r.aggregate.path, key) :: t.found }
  | none => { t with waiting := r :: t.waiting }

/-- Tries each rule that waits once more. -/
def again (t : KeyTable) : KeyTable := t.waiting.foldl add ⟨t.found, []⟩

/-- Tries again, at most `rounds` times, as long as some key is found. -/
def settle : Nat → KeyTable → KeyTable
  | 0, t => t
  | rounds + 1, t =>
    let next := t.again
    if next.waiting.length = t.waiting.length then t else settle rounds next

end KeyTable

namespace AggregateGraph

variable (g : AggregateGraph)

/-- The keys of all aggregates whose key does not depend on itself. Every round but the last finds a
key, so there are no more rounds than aggregates. -/
def keyTable : KeyTable := .settle g.nodes.length ⟨[], g.nodes.map (keyRule g)⟩

/-- Goes from an aggregate without a key to the first one without a key among those that it needs, and
so on, until one is met again. There are `left` aggregates that were not met. -/
def keyCycle (t : KeyTable) : Nat → List Path → Aggregate → Path
  | 0, _, a => a.path
  | left + 1, met, a =>
    if a.path ∈ met then a.path
    else match (keyRule g a).needs.find? fun b => (t.get? b.path).isNone with
      | some b => keyCycle t left (a.path :: met) b
      | none => a.path

/-- The key columns of an aggregate, or an aggregate whose key depends on itself. -/
def key (t : KeyTable) (a : Aggregate) : Except Path (List Column) :=
  match t.get? a.path with
  | some key => .ok key
  | none => .error (keyCycle g t g.nodes.length [] a)

end AggregateGraph

namespace KeyRule

/-- What is known stays known. -/
def Extends (known more : Path → Option (List Column)) : Prop :=
  ∀ p key, known p = some key → more p = some key

variable {known more : Path → Option (List Column)}

/-- A member that refers to no key adds columns that depend on no key. -/
theorem exists_memberKeys_eq_pure {x : Member} (hx : x.keyTarget? = none) (table : String) :
    ∃ cs, ∀ {m : Type → Type} [Monad m] (keyOf : Aggregate → m (List Column)),
      memberKeys keyOf table x = pure cs := by
  cases x with
  | scalar s => exact ⟨_, fun _ => rfl⟩
  | reference l =>
    have hl : ¬ l.relation.isKeyReference = true := by simpa [Member.keyTarget?] using hx
    exact ⟨[], fun _ => if_neg hl⟩
  | _ => exact ⟨[], fun _ => rfl⟩

/-- A member that refers to a key adds columns made from it. -/
theorem exists_memberKeys_eq_map {x : Member} {b : Aggregate} (hx : x.keyTarget? = some b)
    (table : String) : ∃ f : List Column → List Column,
      ∀ {m : Type → Type} [Monad m] (keyOf : Aggregate → m (List Column)),
        memberKeys keyOf table x = f <$> keyOf b := by
  cases x with
  | reference l =>
    by_cases hl : l.relation.isKeyReference = true
    · obtain rfl : l.terminal = b := by simpa [Member.keyTarget?, hl] using hx
      exact ⟨_, fun _ => if_pos hl⟩
    · simp [Member.keyTarget?, hl] at hx
  | _ => cases hx

theorem memberKeys_mono (h : Extends known more) {table : String} {x : Member}
    {cs : List Column} (hx : memberKeys (fun b => known b.path) table x = some cs) :
    memberKeys (fun b => more b.path) table x = some cs := by
  cases hb : x.keyTarget? with
  | none =>
    obtain ⟨own, hown⟩ := exists_memberKeys_eq_pure hb table
    rw [hown] at hx ⊢
    exact hx
  | some b =>
    obtain ⟨f, hf⟩ := exists_memberKeys_eq_map hb table
    rw [hf] at hx ⊢
    obtain ⟨key, hk, rfl⟩ := Option.map_eq_some_iff.1 hx
    rw [h _ _ hk]
    rfl

theorem own?_eq_some_iff {r : KeyRule} {cs : List Column} : r.own? known = some cs ↔
    ∃ parts, r.members.mapM (memberKeys (fun b => known b.path) r.aggregate.typeName) = some parts ∧
      (if r.isRepeated && parts.flatten.isEmpty then [Column.sequence r.aggregate.typeName]
        else parts.flatten) = cs := by
  simp only [own?, own, Option.bind_eq_bind, Option.bind_eq_some_iff, Option.pure_def,
    ← apply_ite Option.some, Option.some.injEq]

theorem own?_mono (h : Extends known more) {r : KeyRule} {cs : List Column}
    (hr : r.own? known = some cs) : r.own? more = some cs := by
  obtain ⟨parts, hp, hcs⟩ := own?_eq_some_iff.1 hr
  exact own?_eq_some_iff.2
    ⟨parts, mapM_eq_some_iff.2 ((mapM_eq_some_iff.1 hp).imp fun _ _ => memberKeys_mono h), hcs⟩

theorem key?_eq_some_iff {r : KeyRule} {key : List Column} :
    r.key? known = some key ↔ ∃ own, r.own? known = some own ∧
      match r.owner? with
      | none => key = own
      | some o => ∃ cs, known o.path = some cs ∧ key = cs.map (Column.inherit o.typeName) ++ own := by
  simp only [key?, own?, KeyRule.key, Option.bind_eq_bind, Option.bind_eq_some_iff]
  cases r.owner? with
  | none => simp [eq_comm]
  | some o => simp [Option.bind_eq_some_iff, eq_comm (a := key)]

/-- A key that was found does not change when more keys are found. -/
theorem key?_mono (h : Extends known more) {r : KeyRule} {key : List Column}
    (hr : r.key? known = some key) : r.key? more = some key := by
  obtain ⟨own, ho, hk⟩ := key?_eq_some_iff.1 hr
  refine key?_eq_some_iff.2 ⟨own, own?_mono h ho, ?_⟩
  cases hown : r.owner? with
  | none => simpa [hown] using hk
  | some o =>
    simp only [hown] at hk
    obtain ⟨cs, hcs, rfl⟩ := hk
    exact ⟨cs, h _ _ hcs, rfl⟩

end KeyRule

namespace KeyTable

/-- Every key in a table is the one that its rule gives, and no aggregate has two rules. -/
structure Sound (rules : List KeyRule) (t : KeyTable) : Prop where
  distinct : (t.found.map Prod.fst ++ t.waiting.map (·.aggregate.path)).Nodup
  waiting : ∀ r ∈ t.waiting, r ∈ rules
  found : ∀ p key, t.get? p = some key →
    ∃ r ∈ rules, r.aggregate.path = p ∧ r.key? t.get? = some key

variable {rules : List KeyRule}

/-- A key that was just found leaves the others alone. -/
theorem extends_cons {found : List (Path × List Column)} {p : Path} (key : List Column)
    (rest : List KeyRule) (h : p ∉ found.map Prod.fst) :
    KeyRule.Extends (get? ⟨found, rest⟩) (get? ⟨(p, key) :: found, rest⟩) := by
  intro q other hq
  have hne : q ≠ p := by
    rintro rfl
    obtain ⟨before, after, rfl, -⟩ := List.lookup_eq_some_iff.1 hq
    simp at h
  rw [get?, List.lookup_cons, beq_eq_false_iff_ne.2 hne]
  exact hq

theorem Sound.add {t : KeyTable} {r : KeyRule} {rs : List KeyRule}
    (h : Sound rules ⟨t.found, r :: rs ++ t.waiting⟩) :
    Sound rules ⟨(t.add r).found, rs ++ (t.add r).waiting⟩ := by
  have hr := h.waiting r (by simp)
  unfold KeyTable.add
  cases hk : r.key? t.get? with
  | none =>
    have hp : (rs ++ r :: t.waiting).Perm (r :: rs ++ t.waiting) := List.perm_middle
    refine ⟨?_, fun x hx => h.waiting x (hp.mem_iff.1 hx), h.found⟩
    exact ((hp.map _).append_left _).nodup_iff.2 h.distinct
  | some key =>
    have hd : (r.aggregate.path :: (t.found.map Prod.fst ++
        (rs ++ t.waiting).map (·.aggregate.path))).Nodup :=
      List.perm_middle.nodup_iff.1 h.distinct
    have hn : r.aggregate.path ∉ t.found.map Prod.fst := fun hm =>
      (List.nodup_cons.1 hd).1 (List.mem_append_left _ hm)
    have hx := extends_cons key t.waiting hn
    refine ⟨hd, fun x hx => h.waiting x (List.mem_cons_of_mem _ hx), fun p other hp => ?_⟩
    by_cases he : p = r.aggregate.path
    · subst he
      obtain rfl : key = other := by simpa [get?] using hp
      exact ⟨r, hr, rfl, KeyRule.key?_mono hx hk⟩
    · have hold : t.get? p = some other := by
        simpa [get?, List.lookup_cons, beq_eq_false_iff_ne.2 he] using hp
      obtain ⟨x, hxr, hxp, hxk⟩ := h.found p other hold
      exact ⟨x, hxr, hxp, KeyRule.key?_mono hx hxk⟩

/-- What trying one rule keeps, trying the rules again and again keeps. -/
theorem settle_induction {P : KeyTable → Prop}
    (hadd : ∀ t r rs, P ⟨found t, r :: rs ++ waiting t⟩ → P ⟨(t.add r).found, rs ++ (t.add r).waiting⟩)
    {t : KeyTable} (h : P t) (rounds : Nat) : P (settle rounds t) := by
  have hfold : ∀ (rs : List KeyRule) (t : KeyTable), P ⟨t.found, rs ++ t.waiting⟩ →
      P (rs.foldl KeyTable.add t) := by
    intro rs
    induction rs with
    | nil => exact fun t h => h
    | cons r rs ih => exact fun t h => ih _ (hadd t r rs h)
  induction rounds generalizing t with
  | zero => exact h
  | succ rounds ih =>
    unfold settle
    by_cases hl : t.again.waiting.length = t.waiting.length
    · exact (if_pos hl).symm ▸ h
    · exact (if_neg hl).symm ▸ ih (hfold t.waiting ⟨t.found, []⟩ (by simpa using h))

end KeyTable

namespace AggregateGraph
variable (g : AggregateGraph)

theorem sound_keyTable : (keyTable g).Sound (g.nodes.map (keyRule g)) := by
  have h : KeyTable.Sound (g.nodes.map (keyRule g)) ⟨[], g.nodes.map (keyRule g)⟩ := by
    refine ⟨?_, fun r hr => hr, fun p key hp => ?_⟩
    · rw [List.map_nil, List.nil_append, List.map_map]
      exact g.distinct
    · simp [KeyTable.get?] at hp
  exact KeyTable.settle_induction (fun _ _ _ h => h.add) h _

variable {g}

/-- The key in the table of an aggregate is the one that its rule gives. -/
theorem key?_of_get?_keyTable {a : Aggregate} (ha : a ∈ g.nodes) {key : List Column}
    (h : (keyTable g).get? a.path = some key) :
    (keyRule g a).key? (keyTable g).get? = some key := by
  obtain ⟨r, hr, hp, hk⟩ := (sound_keyTable g).found _ _ h
  obtain ⟨b, hb, rfl⟩ := List.mem_map.1 hr
  exact g.eq_of_id_eq hb ha hp ▸ hk

end AggregateGraph

end AggregateSchema
