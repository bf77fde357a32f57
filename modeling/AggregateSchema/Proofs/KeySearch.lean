import AggregateSchema.Entity.Derivation
import AggregateSchema.Proofs.KeyDependence
import AggregateSchema.Proofs.Levels

/-! The search for keys, depth first and with a memo, finds the keys of the table, and where there is
none it stops at the aggregate to which the missing keys lead. So the entities that are derived with the
keys of the search are those of the table. -/
namespace AggregateSchema

/-- What comes after a step starts from what the step leaves. -/
theorem run_bind_of_run {σ α β : Type} {x : StateM σ α} {f : α → StateM σ β} {before after : σ} {a : α}
    (h : x.run before = (a, after)) : (x >>= f).run before = (f a).run after := by
  rw [StateT.run_bind, h]
  rfl

/-- The key that is known of an aggregate, or a problem. -/
def keyOr {ε : Type} (known : Path → Option (List Column)) (problem : Aggregate → ε) (a : Aggregate) :
    Except ε (List Column) :=
  match known a.path with
  | some key => .ok key
  | none => .error (problem a)

section
variable {ε : Type} {known : Path → Option (List Column)} {problem : Aggregate → ε} {a : Aggregate}

theorem keyOr_of_some {key : List Column} (h : known a.path = some key) :
    keyOr known problem a = .ok key := by
  simp [keyOr, h]

theorem keyOr_of_none (h : known a.path = none) : keyOr known problem a = .error (problem a) := by
  simp [keyOr, h]

end

namespace KeyRule
variable {ε : Type} {known : Path → Option (List Column)} {problem : Aggregate → ε} {r : KeyRule}

theorem memberKeys_keyOr {table : String} {x : Member} {cs : List Column}
    (h : memberKeys (fun b => known b.path) table x = some cs) :
    memberKeys (keyOr known problem) table x = .ok cs := by
  cases hx : x.keyTarget? with
  | none =>
    obtain ⟨own, hown⟩ := exists_memberKeys_eq_pure hx table
    rw [hown] at h ⊢
    exact congrArg Except.ok (Option.some.inj h)
  | some b =>
    obtain ⟨f, hf⟩ := exists_memberKeys_eq_map hx table
    rw [hf] at h ⊢
    obtain ⟨key, hk, rfl⟩ := Option.map_eq_some_iff.1 h
    rw [keyOr_of_some hk]
    rfl

theorem own_keyOr {own : List Column} (h : r.own? known = some own) :
    r.own (keyOr known problem) = .ok own := by
  obtain ⟨parts, hparts, rfl⟩ := own?_eq_some_iff.1 h
  have hmembers : r.members.mapM (memberKeys (keyOr known problem) r.aggregate.typeName) = .ok parts :=
    mapM_eq_ok_iff.2 ((mapM_eq_some_iff.1 hparts).imp fun _ _ => memberKeys_keyOr)
  rw [KeyRule.own, hmembers, apply_ite Except.ok]
  rfl

/-- If all keys that a rule needs are known, it gives the key. -/
theorem key_keyOr {key : List Column} (h : r.key? known = some key) :
    r.key (keyOr known problem) = .ok key := by
  obtain ⟨own, hown, hkey⟩ := key?_eq_some_iff.1 h
  rw [KeyRule.key, own_keyOr hown]
  cases ho : r.owner? with
  | none =>
    simp only [ho] at hkey
    rw [hkey]
    rfl
  | some o =>
    simp only [ho] at hkey
    obtain ⟨cs, hcs, rfl⟩ := hkey
    simp only [keyOr_of_some hcs]
    rfl

/-- The members are gone through up to the first that refers to a key that is not known. -/
theorem mapM_memberKeys_eq_error {members : List Member} {table : String} {b : Aggregate}
    (h : (members.filterMap Member.keyTarget?).find? (fun b => (known b.path).isNone) = some b) :
    members.mapM (memberKeys (keyOr known problem) table) = .error (problem b) := by
  induction members with
  | nil => cases h
  | cons x members ih =>
    rw [List.mapM_cons]
    cases hx : x.keyTarget? with
    | none =>
      rw [List.filterMap_cons_none hx] at h
      obtain ⟨own, hown⟩ := exists_memberKeys_eq_pure hx table
      rw [hown, ih h]
      rfl
    | some c =>
      rw [List.filterMap_cons_some hx] at h
      obtain ⟨f, hf⟩ := exists_memberKeys_eq_map hx table
      cases hc : known c.path with
      | none =>
        obtain rfl : c = b := by simpa [hc] using h
        rw [hf, keyOr_of_none hc]
        rfl
      | some key =>
        rw [List.find?_cons_of_neg (by simp [hc])] at h
        rw [hf, keyOr_of_some hc, ih h]
        rfl

/-- If a key that a rule needs is not known, the problem is that of the first such one. -/
theorem key_keyOr_eq_error {b : Aggregate}
    (h : r.needs.find? (fun b => (known b.path).isNone) = some b) :
    r.key (keyOr known problem) = .error (problem b) := by
  rw [needs, List.find?_append] at h
  cases hmembers : (r.members.filterMap Member.keyTarget?).find? fun b => (known b.path).isNone with
  | some c =>
    obtain rfl : c = b := by simpa [hmembers] using h
    rw [KeyRule.key, KeyRule.own, mapM_memberKeys_eq_error hmembers]
    rfl
  | none =>
    rw [hmembers, Option.none_or] at h
    obtain ⟨own, hown⟩ := exists_own?_iff.2 fun c hc => by
      simpa [← Option.isSome_iff_exists, Option.isSome_iff_ne_none] using
        List.find?_eq_none.1 hmembers c hc
    have howner : r.owner? = some b ∧ known b.path = none := by
      cases ho : r.owner? with
      | none =>
        rw [ho] at h
        cases h
      | some o =>
        rw [ho, Option.toList_some, List.find?_singleton] at h
        split at h
        · rename_i hmissing
          exact ⟨h, Option.some.inj h ▸ Option.isNone_iff_eq_none.1 hmissing⟩
        · cases h
    rw [KeyRule.key, own_keyOr hown]
    simp only [howner.1, keyOr_of_none howner.2]
    rfl

end KeyRule

namespace AggregateGraph
variable {g : AggregateGraph} {α β : Type}

/-- A memo holds keys of the table only. -/
def IsSound (g : AggregateGraph) (memo : KeyMemo) : Prop :=
  ∀ p key, memo.lookup p = some key → (keyTable g).get? p = some key

theorem isSound_nil : g.IsSound [] := fun _ _ h => by cases h

theorem IsSound.cons {memo : KeyMemo} (h : g.IsSound memo) {p : Path} {key : List Column}
    (hkey : (keyTable g).get? p = some key) : g.IsSound ((p, key) :: memo) := by
  intro q other hq
  rw [List.lookup_cons] at hq
  split at hq
  · rename_i hqp
    rw [← Option.some.inj hq, beq_iff_eq.1 hqp]
    exact hkey
  · exact h q other hq

/-- Whatever keys of the table were found before, a search comes to the given result, and it leaves keys
of the table only. -/
def Yields (g : AggregateGraph) (x : KeySearch α) (r : Except Path α) : Prop :=
  ∀ memo, g.IsSound memo → ∃ more, g.IsSound more ∧ x.run.run memo = (r, more)

namespace Yields

theorem eq_of_run {x : KeySearch α} {r s : Except Path α} {memo more : KeyMemo} (h : g.Yields x r)
    (hmemo : g.IsSound memo) (hrun : x.run.run memo = (s, more)) : r = s := by
  obtain ⟨_, -, hr⟩ := h memo hmemo
  exact congrArg Prod.fst (hr.symm.trans hrun)

theorem pure (a : α) : g.Yields (pure a) (.ok a) := fun memo h => ⟨memo, h, rfl⟩

theorem throw (p : Path) : g.Yields (throw p : KeySearch α) (.error p) := fun memo h => ⟨memo, h, rfl⟩

theorem bind {x : KeySearch α} {r : Except Path α} {f : α → KeySearch β} {s : α → Except Path β}
    (hx : g.Yields x r) (hf : ∀ a, r = .ok a → g.Yields (f a) (s a)) :
    g.Yields (x >>= f) (r >>= s) := by
  intro memo h
  obtain ⟨more, hmore, hrun⟩ := hx memo h
  cases r with
  | error p => exact ⟨more, hmore, by rw [ExceptT.run_bind, run_bind_of_run hrun]; rfl⟩
  | ok a =>
    obtain ⟨most, hmost, hrest⟩ := hf a rfl more hmore
    exact ⟨most, hmost, by rw [ExceptT.run_bind, run_bind_of_run hrun]; exact hrest⟩

theorem bind_of_error {x : KeySearch α} {p : Path} (hx : g.Yields x (.error p))
    (f : α → KeySearch β) : g.Yields (x >>= f) (.error p) :=
  hx.bind (s := fun _ => .error p) fun _ h => by cases h

theorem map {x : KeySearch α} {r : Except Path α} (f : α → β) (hx : g.Yields x r) :
    g.Yields (f <$> x) (f <$> r) := by
  rw [map_eq_pure_bind, map_eq_pure_bind]
  exact hx.bind fun a _ => .pure (f a)

theorem mapM {f : α → KeySearch β} {s : α → Except Path β} {xs : List α}
    (h : ∀ x ∈ xs, g.Yields (f x) (s x)) : g.Yields (xs.mapM f) (xs.mapM s) := by
  induction xs with
  | nil => exact .pure []
  | cons x xs ih =>
    rw [List.mapM_cons, List.mapM_cons]
    refine (h x List.mem_cons_self).bind fun y _ => ?_
    exact (ih fun z hz => h z (List.mem_cons_of_mem x hz)).bind fun ys _ => .pure (y :: ys)

end Yields

/-- The search goes by the memo where it tells a key. -/
theorem yields_lookup {a : Aggregate} {x : KeySearch (List Column)} {r : Except Path (List Column)}
    (hmemo : ∀ key, (keyTable g).get? a.path = some key → r = .ok key) (hx : g.Yields x r) :
    g.Yields (do
      match (← get).lookup a.path with
      | some key => return key
      | none => x) r := by
  intro memo h
  have hget : (get : KeySearch KeyMemo).run.run memo = (.ok memo, memo) := rfl
  rw [ExceptT.run_bind, run_bind_of_run hget]
  cases hkey : memo.lookup a.path with
  | some key =>
    refine ⟨memo, h, ?_⟩
    rw [hmemo key (h _ _ hkey)]
    simp only [hkey]
    rfl
  | none =>
    obtain ⟨more, hmore, hrun⟩ := hx memo h
    refine ⟨more, hmore, ?_⟩
    simp only [hkey]
    exact hrun

/-- A key that was found is kept. -/
theorem yields_insert {a : Aggregate} {key : List Column}
    (hkey : (keyTable g).get? a.path = some key) : g.Yields (do
      modify ((a.path, key) :: ·)
      return key) (.ok key) :=
  fun memo h => ⟨(a.path, key) :: memo, h.cons hkey, rfl⟩

end AggregateGraph

namespace KeyRule
variable {g : AggregateGraph} {r : KeyRule} {f : Aggregate → KeySearch (List Column)}
  {s : Aggregate → Except Path (List Column)}

theorem yields_memberKeys {table : String} {x : Member}
    (h : ∀ b, x.keyTarget? = some b → g.Yields (f b) (s b)) :
    g.Yields (memberKeys f table x) (memberKeys s table x) := by
  cases hx : x.keyTarget? with
  | none =>
    obtain ⟨own, hown⟩ := exists_memberKeys_eq_pure hx table
    rw [hown, hown]
    exact .pure own
  | some b =>
    obtain ⟨make, hmake⟩ := exists_memberKeys_eq_map hx table
    rw [hmake, hmake]
    exact (h b hx).map make

/-- The search for a key is a search for the keys that it needs. -/
theorem yields_key (h : ∀ b ∈ r.needs, g.Yields (f b) (s b)) : g.Yields (r.key f) (r.key s) := by
  have hown : g.Yields (r.own f) (r.own s) := by
    refine (AggregateGraph.Yields.mapM fun x hx => yields_memberKeys fun b hb => ?_).bind
      fun parts _ => ?_
    · exact h b (List.mem_append_left _ (List.mem_filterMap.2 ⟨x, hx, hb⟩))
    · split
      · exact .pure _
      · exact .pure _
  refine hown.bind fun own _ => ?_
  cases ho : r.owner? with
  | none => exact .pure own
  | some o =>
    exact (h o (List.mem_append_right _ (by simp [ho]))).bind fun key _ => .pure _

end KeyRule

namespace AggregateGraph
variable {g : AggregateGraph} {a : Aggregate}

theorem key_eq_keyOr (t : KeyTable) (a : Aggregate) :
    key g t a = keyOr t.get? (keyCycle g t g.nodes.length []) a := by
  unfold key keyOr
  cases t.get? a.path <;> rfl

/-- The search finds the key in the table. If there is none, it meets the aggregate to which the missing
keys lead. -/
theorem yields_findKey {resolving : List Path} {left : Nat} (h : g.IsTrail resolving a)
    (hl : g.nodes.length ≤ resolving.length + left) : g.Yields (findKey g left resolving a)
      (keyOr (keyTable g).get? (keyCycle g (keyTable g) left resolving) a) := by
  induction left generalizing resolving a with
  | zero =>
    have hk := get?_keyTable_of_onKeyCycle h.node (h.onKeyCycle (h.mem_of_length_le hl))
    rw [keyOr_of_none hk]
    exact .throw a.path
  | succ left ih =>
    refine yields_lookup (fun key hk => keyOr_of_some hk) ?_
    by_cases hm : a.path ∈ resolving
    · rw [if_pos hm, keyOr_of_none (get?_keyTable_of_onKeyCycle h.node (h.onKeyCycle hm)), keyCycle,
        if_pos hm]
      exact .throw a.path
    rw [if_neg hm]
    -- What is needed is searched for with one aggregate more on the way.
    have hneeds : g.Yields ((keyRule g a).key (findKey g left (a.path :: resolving))) _ :=
      KeyRule.yields_key fun b hb => ih (h.next hm (mem_needs_keyRule.1 hb))
        (by rw [List.length_cons]; omega)
    cases hk : (keyTable g).get? a.path with
    | some key =>
      rw [KeyRule.key_keyOr (key?_of_get?_keyTable h.node hk)] at hneeds
      rw [keyOr_of_some hk]
      refine hneeds.bind fun found hfound => ?_
      obtain rfl := Except.ok.inj hfound
      exact yields_insert hk
    | none =>
      obtain ⟨b, hb, -⟩ := h.next_keyless hm hk
      rw [KeyRule.key_keyOr_eq_error hb] at hneeds
      rw [keyOr_of_none hk, keyCycle, if_neg hm, hb]
      exact hneeds.bind_of_error _

theorem yields_keyOf (ha : a ∈ g.nodes) : g.Yields (keyOf g a) (key g (keyTable g) a) := by
  rw [key_eq_keyOr]
  exact yields_findKey (IsTrail.start ha) (by simp)

/-- The entity of one aggregate, with the problems found on the way, for the keys of a table. -/
def entity (g : AggregateGraph) (t : KeyTable) (a : Aggregate) : List EntityProblem × Option Entity :=
  match key g t a with
  | .error p => ([.keyCycle p], none)
  | .ok keys => entityWithKey g a keys ((members g a).mapM (memberColumns (key g t) a.typeName))

/-- The entity of each aggregate, level by level. -/
def derivations (g : AggregateGraph) : List (List EntityProblem × Option Entity) :=
  (byDepth g).map (entity g (keyTable g))

theorem yields_memberColumns {m : Member} (hm : m ∈ members g a) (table : String) :
    g.Yields (memberColumns (keyOf g) table m) (memberColumns (key g (keyTable g)) table m) := by
  cases m with
  | reference l =>
    rw [memberColumns, memberColumns]
    split
    · exact .pure []
    · have hl := (Graph.mem_outgoing _).1 (mem_outgoing_of_reference_mem hm)
      exact (yields_keyOf (g.closed l hl.1).2).map _
  | _ => exact .pure _

theorem run_deriveEntity (ha : a ∈ g.nodes) {memo : KeyMemo} (h : g.IsSound memo) :
    ∃ more, g.IsSound more ∧ (deriveEntity g a).run memo = (entity g (keyTable g) a, more) := by
  obtain ⟨more, hmore, hrun⟩ := yields_keyOf ha memo h
  unfold deriveEntity entity
  rw [run_bind_of_run hrun]
  cases hk : key g (keyTable g) a with
  | error p => exact ⟨more, hmore, rfl⟩
  | ok keys =>
    have hcolumns : g.Yields ((members g a).mapM (memberColumns (keyOf g) a.typeName)) _ :=
      .mapM fun m hm => yields_memberColumns hm a.typeName
    obtain ⟨most, hmost, hrest⟩ := hcolumns more hmore
    exact ⟨most, hmost, run_bind_of_run hrest⟩

/-- The memo carries over from one entity to the next without a trace in what is derived. -/
theorem run_mapM_deriveEntity {as : List Aggregate} (has : as ⊆ g.nodes) {memo : KeyMemo}
    (h : g.IsSound memo) : ∃ more, g.IsSound more ∧
      (as.mapM (deriveEntity g)).run memo = (as.map (entity g (keyTable g)), more) := by
  induction as generalizing memo with
  | nil => exact ⟨memo, h, rfl⟩
  | cons a as ih =>
    obtain ⟨ha, has⟩ := List.cons_subset.1 has
    obtain ⟨more, hmore, hrun⟩ := run_deriveEntity ha h
    obtain ⟨most, hmost, hrest⟩ := ih has hmore
    refine ⟨most, hmost, ?_⟩
    rw [List.mapM_cons, run_bind_of_run hrun, run_bind_of_run hrest]
    rfl

/-- The entities are those for the keys of the table. -/
theorem entities_eq (g : AggregateGraph) : g.entities =
    if (sharedTables [] (byDepth g) ++ (derivations g).flatMap (·.1)).isEmpty then
      .ok ((derivations g).filterMap (·.2))
    else .error (sharedTables [] (byDepth g) ++ (derivations g).flatMap (·.1)) := by
  obtain ⟨more, -, hrun⟩ := run_mapM_deriveEntity (fun _ => mem_byDepth.1) (isSound_nil (g := g))
  rw [entities, hrun]
  rfl

end AggregateGraph

end AggregateSchema
