import AggregateSchema.Proofs.Depth
import AggregateSchema.Proofs.KeySearch

/-! Keys that depend on themselves: where there is a cycle of dependencies, the search for keys comes
upon one, and it reports nothing else as one. -/
namespace AggregateSchema

namespace KeyTable

/-- More rounds than there are rules that wait make no difference. -/
theorem settle_succ {rounds : Nat} {t : KeyTable} (h : t.waiting.length ≤ rounds) :
    settle (rounds + 1) t = settle rounds t := by
  induction rounds generalizing t with
  | zero =>
    have hnone : t.waiting = [] := List.length_eq_zero_iff.1 (Nat.le_zero.1 h)
    simp [settle, again, hnone]
  | succ rounds ih =>
    have hle := length_waiting_foldl_add_le t.waiting ⟨t.found, []⟩
    unfold settle
    by_cases hl : t.again.waiting.length = t.waiting.length
    · simp only [hl, if_true]
    · simp only [hl, if_false]
      exact ih (Nat.le_of_lt_succ (Nat.lt_of_lt_of_le (Nat.lt_of_le_of_ne hle hl) h))

end KeyTable

namespace AggregateGraph
variable {g : AggregateGraph} {a b : Aggregate}

theorem keyCycle_eq_of_le (ha : a ∈ g.nodes) (hk : (keyTable g).get? a.path = none) {n : Nat}
    (hn : g.nodes.length ≤ n) :
    keyCycle g (keyTable g) n [] a = keyCycle g (keyTable g) g.nodes.length [] a :=
  eq_of_forall_succ_eq (f := fun n => keyCycle g (keyTable g) n [] a)
    (fun n hn => (IsTrail.start ha).keyCycle_succ hk (by simpa using hn)) hn

/-- More aggregates whose keys may be searched for at once make no difference. -/
theorem yields_findKey_of_le (ha : a ∈ g.nodes) {n : Nat} (hn : g.nodes.length ≤ n) :
    g.Yields (findKey g n [] a) (key g (keyTable g) a) := by
  have hfind : g.Yields (findKey g n [] a) _ := yields_findKey (IsTrail.start ha) (by simpa using hn)
  cases hk : (keyTable g).get? a.path with
  | some key => rwa [keyOr_of_some hk, ← key_eq_ok_iff.2 hk] at hfind
  | none =>
    rwa [keyOr_of_none hk, keyCycle_eq_of_le ha hk hn, ← keyOr_of_none hk, ← key_eq_keyOr] at hfind

theorem key_eq_error_iff {t : KeyTable} {p : Path} : key g t a = .error p ↔
    t.get? a.path = none ∧ keyCycle g t g.nodes.length [] a = p := by
  unfold key
  cases t.get? a.path <;> simp

/-- What is reported for a missing key is an aggregate whose key depends on itself. -/
theorem exists_onKeyCycle_of_key (ha : a ∈ g.nodes) {p : Path}
    (h : key g (keyTable g) a = .error p) : ∃ b ∈ g.nodes, b.path = p ∧ g.OnKeyCycle b := by
  obtain ⟨hk, rfl⟩ := key_eq_error_iff.1 h
  exact (IsTrail.start ha).exists_keyCycle_eq hk (by simp)

/-- Everything that keeps a graph from having entities. -/
def entityProblems (g : AggregateGraph) : List EntityProblem :=
  sharedTables [] (byDepth g) ++ (derivations g).flatMap (·.1)

theorem entities_eq_error_iff {ps : List EntityProblem} :
    g.entities = .error ps ↔ ps = entityProblems g ∧ ps ≠ [] := by
  rw [entities_eq, ← entityProblems]
  by_cases h : entityProblems g = []
  · simp only [h, List.isEmpty_nil, if_true, reduceCtorEq, false_iff, not_and]
    exact fun h h' => h' h
  · simp only [List.isEmpty_iff, h, if_false, Except.error.injEq]
    exact ⟨fun he => ⟨he.symm, he ▸ h⟩, fun he => he.1.symm⟩

theorem mem_entityProblems {p : EntityProblem} : p ∈ entityProblems g ↔
    p ∈ sharedTables [] (byDepth g) ∨ ∃ a ∈ g.nodes, p ∈ (entity g (keyTable g) a).1 := by
  simp [entityProblems, derivations, mem_byDepth]

theorem exists_of_mem_sharedTables {seen : List (String × Path)} {as : List Aggregate}
    {p : EntityProblem} (h : p ∈ sharedTables seen as) :
    ∃ table first second, p = .sharedTable table first second := by
  induction as generalizing seen with
  | nil => cases h
  | cons a as ih =>
    rw [sharedTables, List.mem_append] at h
    rcases h with h | h
    · split at h
      · exact ⟨_, _, _, List.mem_singleton.1 h⟩
      · cases h
    · exact ih h

theorem entity_of_key_eq_error {t : KeyTable} {p : Path} (h : key g t a = .error p) :
    entity g t a = ([.keyCycle p], none) := by
  simp [entity, h]

/-- Outside the key, only the key of a reference's target can be missing. -/
theorem exists_key_of_memberColumns {t : KeyTable} {table : String} {m : Member} {p : Path}
    (h : memberColumns (key g t) table m = .error p) :
    ∃ l, m = .reference l ∧ key g t l.terminal = .error p := by
  cases m with
  | reference l =>
    refine ⟨l, rfl, ?_⟩
    rw [memberColumns] at h
    split at h
    · cases h
    · cases hk : key g t l.terminal with
      | error q => simpa [hk] using h
      | ok keys => simp [hk] at h
  | _ => cases h

/-- A cycle is reported only where a key is missing. -/
theorem exists_key_of_mem_entity (ha : a ∈ g.nodes) {t : KeyTable} {p : Path}
    (h : EntityProblem.keyCycle p ∈ (entity g t a).1) : ∃ b ∈ g.nodes, key g t b = .error p := by
  unfold entity entityWithKey at h
  cases hk : key g t a with
  | error q =>
    simp only [hk, List.mem_singleton, EntityProblem.keyCycle.injEq] at h
    exact ⟨a, ha, h ▸ hk⟩
  | ok keys =>
    have hkeyless : EntityProblem.keyCycle p ∉ keylessRootProblems g a keys := by
      unfold keylessRootProblems
      split <;> simp
    cases hc : (members g a).mapM (memberColumns (key g t) a.typeName) with
    | error q =>
      simp only [hk, hc, List.mem_append, hkeyless, List.mem_singleton, false_or,
        EntityProblem.keyCycle.injEq] at h
      obtain ⟨m, hm, hmq⟩ := exists_of_mapM_eq_error hc
      obtain ⟨l, rfl, hl⟩ := exists_key_of_memberColumns hmq
      exact ⟨l.terminal,
        (g.closed l ((Graph.mem_outgoing _).1 (mem_outgoing_of_reference_mem hm)).1).2, h ▸ hl⟩
    | ok columns =>
      simp [hk, hc, hkeyless, repeatedColumnProblems] at h

/-- One level more than there are aggregates below makes no difference. -/
theorem ownedWithin_succ
    (hp : ∀ l ∈ g.edges, l.relation.isOwnership = true →
      l.terminal.path.parent? = some l.initial.path)
    {levels : Nat} {v : Visit Aggregate Relation} (h : height g v.node ≤ levels) :
    ownedWithin g (levels + 1) v = ownedWithin g levels v := by
  have hlower : ∀ v : Visit Aggregate Relation, ∀ l ∈ ownedLinks g v.node,
      height g (v.toTerminal l).node < height g v.node := by
    intro v l hl
    obtain ⟨hle, hli, hlo⟩ := mem_ownedLinks.1 hl
    rw [Visit.toTerminal, Visit.node_moveTo]
    exact height_lt_of_parent? (g.closed l hle).2 (hli ▸ hp l hle hlo)
  induction levels generalizing v with
  | zero =>
    have hnone : ownedLinks g v.node = [] := List.eq_nil_iff_forall_not_mem.2 fun l hl => by
      have := hlower v l hl
      omega
    simp [ownedWithin, hnone]
  | succ levels ih =>
    unfold ownedWithin
    refine List.flatMap_congr fun l hl => congrArg (_ :: ·) (ih ?_)
    have := hlower v l hl
    omega

/-- How keys that depend on themselves come to light. The search finds a key wherever the rounds find
one, and where there is none it meets an aggregate whose key depends on itself. None of the limits on
how far a search goes is ever felt: on the aggregates whose keys are searched for at once, on the rounds
in which keys are found, on the way to an aggregate whose key depends on itself, and on the levels of
what an aggregate owns. -/
structure FindsKeyCycles (g : AggregateGraph) : Prop where
  found : ∀ a ∈ g.nodes, ∀ n, g.nodes.length ≤ n →
    g.Yields (findKey g n [] a) (key g (keyTable g) a)
  failed : ∀ a ∈ g.nodes, ∀ memo p more, g.IsSound memo →
    (keyOf g a).run.run memo = (.error p, more) → ∃ ps, g.entities = .error ps ∧ .keyCycle p ∈ ps
  rounds : ∀ n, g.nodes.length ≤ n → KeyTable.settle n ⟨[], keyRules g⟩ = keyTable g
  steps : ∀ a ∈ g.nodes, (keyTable g).get? a.path = none → ∀ n, g.nodes.length ≤ n →
    keyCycle g (keyTable g) n [] a = keyCycle g (keyTable g) g.nodes.length [] a
  levels : ∀ a ∈ g.nodes, ∀ n, g.nodes.length ≤ n →
    ownedWithin g n (.start a) = descendants g (.start a)
  reported : (∃ ps p, g.entities = .error ps ∧ .keyCycle p ∈ ps) ↔ ∃ a ∈ g.nodes, g.OnKeyCycle a
  cyclic : ∀ ps p, g.entities = .error ps → .keyCycle p ∈ ps →
    ∃ a ∈ g.nodes, a.path = p ∧ g.OnKeyCycle a
  recorded : ∀ a ∈ g.nodes, ∀ p, key g (keyTable g) a = .error p →
    ∃ ps, g.entities = .error ps ∧ .keyCycle p ∈ ps
  complete : ∀ es, g.entities = .ok es → ∀ a ∈ g.nodes, ∃ e ∈ es, e.path = a.path

theorem exists_entities_eq_error {p : EntityProblem} (h : p ∈ entityProblems g) :
    ∃ ps, g.entities = .error ps ∧ p ∈ ps :=
  ⟨_, entities_eq_error_iff.2 ⟨rfl, List.ne_nil_of_mem h⟩, h⟩

/-- A key that is missing is reported, at the aggregate whose key it is. -/
theorem keyCycle_mem_entityProblems (ha : a ∈ g.nodes) {p : Path}
    (h : key g (keyTable g) a = .error p) : .keyCycle p ∈ entityProblems g :=
  mem_entityProblems.2 (Or.inr ⟨a, ha, by
    rw [entity_of_key_eq_error h]
    exact List.mem_singleton_self _⟩)

/-- A cycle that is reported is one. -/
theorem exists_onKeyCycle {ps : List EntityProblem} {p : Path} (h : g.entities = .error ps)
    (hp : .keyCycle p ∈ ps) : ∃ a ∈ g.nodes, a.path = p ∧ g.OnKeyCycle a := by
  obtain ⟨rfl, -⟩ := entities_eq_error_iff.1 h
  rcases mem_entityProblems.1 hp with hp | ⟨a, ha, hp⟩
  · obtain ⟨_, _, _, hp⟩ := exists_of_mem_sharedTables hp
    cases hp
  · obtain ⟨b, hb, hk⟩ := exists_key_of_mem_entity ha hp
    exact exists_onKeyCycle_of_key hb hk

theorem reported_iff : (∃ ps p, g.entities = .error ps ∧ .keyCycle p ∈ ps) ↔
    ∃ a ∈ g.nodes, g.OnKeyCycle a := by
  constructor
  · rintro ⟨ps, p, hps, hp⟩
    obtain ⟨a, ha, -, hcycle⟩ := exists_onKeyCycle hps hp
    exact ⟨a, ha, hcycle⟩
  · rintro ⟨a, ha, hcycle⟩
    have hk := key_eq_error_iff (g := g).2 ⟨get?_keyTable_of_onKeyCycle ha hcycle, rfl⟩
    obtain ⟨ps, hps, hp⟩ := exists_entities_eq_error (keyCycle_mem_entityProblems ha hk)
    exact ⟨ps, _, hps, hp⟩

theorem findsKeyCycles
    (hp : ∀ l ∈ g.edges, l.relation.isOwnership = true →
      l.terminal.path.parent? = some l.initial.path) : g.FindsKeyCycles where
  found _ ha _ := yields_findKey_of_le ha
  failed _ ha _ _ _ hmemo hrun :=
    exists_entities_eq_error (keyCycle_mem_entityProblems ha ((yields_keyOf ha).eq_of_run hmemo hrun))
  rounds n hn := eq_of_forall_succ_eq (f := fun n => KeyTable.settle n ⟨[], keyRules g⟩)
    (fun n hn => KeyTable.settle_succ (by simpa [keyRules] using hn)) hn
  steps _ ha hk _ := keyCycle_eq_of_le ha hk
  levels a ha n hn := eq_of_forall_succ_eq (f := fun n => ownedWithin g n (.start a))
    (fun n hn => ownedWithin_succ hp (Nat.le_trans (Nat.le_of_lt (height_lt_length ha)) hn)) hn
  reported := reported_iff
  cyclic _ _ := exists_onKeyCycle
  recorded _ ha _ h := exists_entities_eq_error (keyCycle_mem_entityProblems ha h)
  complete es hes a ha := by
    obtain ⟨e, he, hs⟩ := Schema.exists_entity (s := ⟨g, es, hes⟩) ha
    exact ⟨e, List.mem_of_find?_eq_some he, hs.path⟩

end AggregateGraph

namespace Draft
variable {d : Draft} {base : TypeRegistry} {g : AggregateGraph}

theorem parent?_of_graph (h : d.graph base = .ok g) {l : Link} (hl : l ∈ g.edges)
    (ho : l.relation.isOwnership = true) : l.terminal.path.parent? = some l.initial.path :=
  parent?_of_declared_edge (declared_mem_of_graph h hl) ho

/-- Where there is a graph, the declarations are to blame, or if they are not, its entities. -/
theorem resolve_eq_error_iff (h : d.graph base = .ok g) {ps : List SchemaProblem} :
    d.resolve base = .error ps ↔ d.declarationProblems base ≠ [] ∧ ps = d.declarationProblems base ∨
      d.declarationProblems base = [] ∧ ∃ qs, g.entities = .error qs ∧ ps = qs.map .entity := by
  simp only [resolve, h]
  by_cases hd : d.declarationProblems base = []
  · simp only [hd, List.isEmpty_nil, if_true, ne_eq, not_true, false_and, false_or, true_and]
    split
    · rename_i es hes
      simp [hes]
    · rename_i qs hqs
      simp [hqs, eq_comm]
  · simp only [List.isEmpty_iff, hd, if_false, Except.error.injEq, ne_eq, not_false_iff, true_and,
      false_and, or_false]
    exact eq_comm

/-- Of every graph that is built, the keys that depend on themselves are reported, and no others. -/
theorem key_cycles_found (h : d.graph base = .ok g) : g.FindsKeyCycles ∧
    (d.declarationProblems base = [] →
      ((∃ ps p, d.resolve base = .error ps ∧ .entity (.keyCycle p) ∈ ps) ↔
        ∃ a ∈ g.nodes, g.OnKeyCycle a)) := by
  refine ⟨AggregateGraph.findsKeyCycles fun l hl ho => parent?_of_graph h hl ho, fun hd => ?_⟩
  rw [← AggregateGraph.reported_iff]
  simp only [resolve_eq_error_iff h, hd, ne_eq, not_true, false_and, false_or, true_and]
  constructor
  · rintro ⟨_, p, ⟨qs, hqs, rfl⟩, hp⟩
    obtain ⟨q, hq, hqp⟩ := List.mem_map.1 hp
    cases hqp
    exact ⟨qs, p, hqs, hq⟩
  · rintro ⟨qs, p, hqs, hp⟩
    exact ⟨_, p, ⟨qs, hqs, rfl⟩, List.mem_map_of_mem hp⟩

/-- Two aggregates whose keys refer to each other, and one that refers to them. -/
def mutualKeys : Draft where
  declarations := [
    .aggregate "/A" none [⟨"id", "word", true, false, false⟩],
    .aggregate "/B" none [],
    .aggregate "/C" none [⟨"id", "word", true, false, false⟩],
    .reference "b" "/A" "/B" true false,
    .reference "a" "/B" "/A" true false,
    .reference "b" "/C" "/B" true false]
  enumerations := []

/-- Their cycle is reported, and there is one. -/
theorem key_cycles_found_mutualKeys :
    ∃ g, mutualKeys.graph .standard = .ok g ∧ mutualKeys.declarationProblems .standard = [] ∧
      g.FindsKeyCycles ∧ (∃ a ∈ g.nodes, g.OnKeyCycle a) ∧
        ∃ ps p, mutualKeys.resolve .standard = .error ps ∧ .entity (.keyCycle p) ∈ ps := by
  obtain ⟨g, hg, hproblems⟩ := exists_ok_of_any (mutualKeys.graph .standard)
    (fun g => decide (∃ a ∈ g.nodes, .keyCycle a.path ∈ g.entityProblems)) (by decide +kernel)
  have hd : mutualKeys.declarationProblems .standard = [] := by decide +kernel
  obtain ⟨hfinds, hreported⟩ := key_cycles_found hg
  obtain ⟨a, -, ha⟩ := of_decide_eq_true hproblems
  obtain ⟨ps, hps, hp⟩ := AggregateGraph.exists_entities_eq_error ha
  have hcycle := hfinds.reported.1 ⟨ps, a.path, hps, hp⟩
  exact ⟨g, hg, hd, hfinds, hcycle, (hreported hd).2 hcycle⟩

end Draft

end AggregateSchema
