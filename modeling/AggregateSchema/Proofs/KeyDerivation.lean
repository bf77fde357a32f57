import AggregateSchema.Proofs.KeyTable

/-! Which keys are found: those that the rules give, in whatever order they are tried. -/
namespace AggregateSchema

/-- A key that one of the rules gives from keys that the rules give. -/
inductive KeyRule.Derivable (rules : List KeyRule) : Path → List Column → Prop
  | rule {r : KeyRule} {known : Path → Option (List Column)} {key : List Column} (hr : r ∈ rules)
      (hknown : ∀ p k, known p = some k → Derivable rules p k) (hkey : r.key? known = some key) :
      Derivable rules r.aggregate.path key

namespace KeyRule
variable {rules others : List KeyRule}

theorem Derivable.of_subset (h : rules ⊆ others) {p : Path} {key : List Column}
    (hd : Derivable rules p key) : Derivable others p key := by
  induction hd with
  | rule hr _ hkey ih => exact .rule (h hr) ih hkey

/-- The order of the rules does not matter, nor how often one is given. -/
theorem derivable_congr (h : ∀ r, r ∈ rules ↔ r ∈ others) {p : Path} {key : List Column} :
    Derivable rules p key ↔ Derivable others p key :=
  ⟨Derivable.of_subset fun r => (h r).1, Derivable.of_subset fun r => (h r).2⟩

end KeyRule

namespace KeyTable
variable {rules : List KeyRule}

/-- A table holds only keys that the rules give, and loses no rule. -/
structure Tracks (rules : List KeyRule) (t : KeyTable) : Prop where
  derivable : ∀ p key, t.get? p = some key → KeyRule.Derivable rules p key
  waiting : ∀ r ∈ t.waiting, r ∈ rules
  covered : ∀ r ∈ rules, r ∈ t.waiting ∨ ∃ key, t.get? r.aggregate.path = some key

theorem get?_cons_self {found : List (Path × List Column)} {waiting : List KeyRule} {p : Path}
    {key : List Column} : get? ⟨(p, key) :: found, waiting⟩ p = some key := by
  simp [get?]

theorem get?_cons_of_ne {found : List (Path × List Column)} {waiting : List KeyRule} {p q : Path}
    {key : List Column} (h : q ≠ p) :
    get? ⟨(p, key) :: found, waiting⟩ q = get? ⟨found, waiting⟩ q := by
  simp [get?, List.lookup_cons, beq_eq_false_iff_ne.2 h]

theorem Tracks.add {t : KeyTable} {r : KeyRule} {rs : List KeyRule}
    (h : Tracks rules ⟨t.found, r :: rs ++ t.waiting⟩) :
    Tracks rules ⟨(t.add r).found, rs ++ (t.add r).waiting⟩ := by
  unfold KeyTable.add
  cases hk : r.key? t.get? with
  | none =>
    have hp : (rs ++ r :: t.waiting).Perm (r :: rs ++ t.waiting) := List.perm_middle
    refine ⟨h.derivable, fun x hx => h.waiting x (hp.mem_iff.1 hx), fun x hx => ?_⟩
    exact (h.covered x hx).imp_left hp.mem_iff.2
  | some key =>
    have hr := h.waiting r List.mem_cons_self
    refine ⟨fun p other hp => ?_, fun x hx => h.waiting x (List.mem_cons_of_mem r hx),
      fun x hx => ?_⟩
    · by_cases he : p = r.aggregate.path
      · subst he
        obtain rfl := Option.some.inj (get?_cons_self.symm.trans hp)
        exact .rule hr h.derivable hk
      · exact h.derivable p other ((get?_cons_of_ne he).symm.trans hp)
    · by_cases he : x.aggregate.path = r.aggregate.path
      · exact Or.inr ⟨key, he ▸ get?_cons_self⟩
      · rcases h.covered x hx with hx | ⟨other, hx⟩
        · refine Or.inl ((List.mem_cons.1 hx).resolve_left fun e => he (e ▸ rfl))
        · exact Or.inr ⟨other, (get?_cons_of_ne he).trans hx⟩

/-- No rule that waits gives a key. -/
def IsSettled (t : KeyTable) : Prop := ∀ r ∈ t.waiting, r.key? t.get? = none

theorem length_waiting_foldl_add_le (rs : List KeyRule) (t : KeyTable) :
    (rs.foldl add t).waiting.length ≤ rs.length + t.waiting.length := by
  induction rs generalizing t with
  | nil => simp
  | cons r rs ih =>
    refine Nat.le_trans (ih (t.add r)) ?_
    unfold add
    split
    · exact Nat.add_le_add_right (Nat.le_succ _) _
    · simp only [List.length_cons]
      omega

/-- Trying rules shortens the list of those that wait, or none of them gives a key. -/
theorem foldl_add_progress (rs : List KeyRule) (t : KeyTable) :
    (rs.foldl add t).waiting.length < rs.length + t.waiting.length ∨
      ∀ r ∈ rs, r.key? t.get? = none := by
  induction rs generalizing t with
  | nil => simp
  | cons r rs ih =>
    cases hk : r.key? t.get? with
    | some key =>
      have hadd : (t.add r).waiting = t.waiting := by simp [add, hk]
      refine Or.inl (Nat.lt_of_le_of_lt (length_waiting_foldl_add_le rs (t.add r)) ?_)
      rw [hadd, List.length_cons]
      omega
    | none =>
      have hadd : t.add r = ⟨t.found, r :: t.waiting⟩ := by simp [add, hk]
      rw [List.foldl_cons, hadd]
      rcases ih ⟨t.found, r :: t.waiting⟩ with hl | hn
      · refine Or.inl ?_
        simp only [List.length_cons] at hl ⊢
        omega
      · refine Or.inr fun x hx => ?_
        rcases List.mem_cons.1 hx with rfl | hx
        · exact hk
        · exact hn x hx

/-- As many rounds as there are rules that wait are enough. -/
theorem isSettled_settle {rounds : Nat} {t : KeyTable} (h : t.waiting.length ≤ rounds) :
    (settle rounds t).IsSettled := by
  induction rounds generalizing t with
  | zero => simp [settle, IsSettled, List.length_eq_zero_iff.1 (Nat.le_zero.1 h)]
  | succ rounds ih =>
    have hle := length_waiting_foldl_add_le t.waiting ⟨t.found, []⟩
    unfold settle
    by_cases hl : t.again.waiting.length = t.waiting.length
    · rw [if_pos hl]
      rcases foldl_add_progress t.waiting ⟨t.found, []⟩ with hlt | hn
      · exact absurd hl (Nat.ne_of_lt hlt)
      · exact hn
    · rw [if_neg hl]
      exact ih (Nat.le_of_lt_succ (Nat.lt_of_lt_of_le (Nat.lt_of_le_of_ne hle hl) h))

/-- A settled table holds every key that the rules give. -/
theorem get?_of_derivable {t : KeyTable} (hs : t.Sound rules) (ht : t.Tracks rules)
    (hn : t.IsSettled) (hd : ∀ q ∈ rules, ∀ r ∈ rules, q.aggregate.path = r.aggregate.path → q = r)
    {p : Path} {key : List Column} (h : KeyRule.Derivable rules p key) :
    t.get? p = some key := by
  induction h with
  | @rule r known key hr _ hkey ih =>
    have hk : r.key? t.get? = some key := KeyRule.key?_mono ih hkey
    rcases ht.covered r hr with hw | ⟨other, ho⟩
    · rw [hn r hw] at hk
      cases hk
    · obtain ⟨q, hq, hqp, hqk⟩ := hs.found _ _ ho
      obtain rfl := hd q hq r hr hqp
      rw [ho, ← hqk, hk]

end KeyTable

namespace AggregateGraph
variable {g : AggregateGraph}

/-- The rules of all aggregates. -/
def keyRules (g : AggregateGraph) : List KeyRule := g.nodes.map (keyRule g)

/-- The table of keys holds exactly the keys that the rules give. -/
theorem get?_keyTable_iff {p : Path} {key : List Column} :
    (keyTable g).get? p = some key ↔ KeyRule.Derivable (keyRules g) p key := by
  have htracks : (keyTable g).Tracks (keyRules g) := by
    refine KeyTable.settle_induction (fun _ _ _ h => h.add) ⟨fun p key hp => ?_, ?_, ?_⟩ _
    · simp [KeyTable.get?] at hp
    · exact fun r hr => hr
    · exact fun r hr => Or.inl hr
  have hsettled : (keyTable g).IsSettled := by
    refine KeyTable.isSettled_settle ?_
    simp
  refine ⟨htracks.derivable p key,
    KeyTable.get?_of_derivable (sound_keyTable g) htracks hsettled fun q hq r hr he => ?_⟩
  obtain ⟨a, ha, rfl⟩ := List.mem_map.1 hq
  obtain ⟨b, hb, rfl⟩ := List.mem_map.1 hr
  exact congrArg _ (g.eq_of_id_eq ha hb he)

end AggregateGraph

end AggregateSchema
