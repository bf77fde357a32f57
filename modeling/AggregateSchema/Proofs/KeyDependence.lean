import AggregateSchema.Member
import AggregateSchema.Proofs.KeyDerivation
import Mathlib.Data.List.Perm.Subperm
import Mathlib.Logic.Relation

/-! Which keys need which: a key is missing exactly if a cycle of dependencies is in the way, and going
from one missing key to the next leads into such a cycle. -/
namespace AggregateSchema

namespace KeyRule
variable {known : Path → Option (List Column)} {r : KeyRule}

theorem mem_needs {b : Aggregate} : b ∈ r.needs ↔
    (∃ l, Member.reference l ∈ r.members ∧ l.relation.isKeyReference = true ∧ l.terminal = b) ∨
      r.owner? = some b := by
  rw [needs, List.mem_append, Option.mem_toList, List.mem_filterMap]
  refine or_congr_left ⟨?_, ?_⟩
  · rintro ⟨m, hm, hb⟩
    cases m with
    | reference l =>
      by_cases hl : l.relation.isKeyReference = true
      · exact ⟨l, hm, hl, by simpa [Member.keyTarget?, hl] using hb⟩
      · simp [Member.keyTarget?, hl] at hb
    | _ => cases hb
  · rintro ⟨l, hl, hk, rfl⟩
    exact ⟨_, hl, by simp [Member.keyTarget?, hk]⟩

theorem exists_memberKeys_iff {table : String} {x : Member} :
    (∃ cs, memberKeys (fun b => known b.path) table x = some cs) ↔
      ∀ b, x.keyTarget? = some b → ∃ key, known b.path = some key := by
  cases hx : x.keyTarget? with
  | none =>
    obtain ⟨own, hown⟩ := exists_memberKeys_eq_pure hx table
    simp [hown]
  | some b =>
    obtain ⟨f, hf⟩ := exists_memberKeys_eq_map hx table
    simp [hf]

theorem exists_own?_iff : (∃ own, r.own? known = some own) ↔
    ∀ b ∈ r.members.filterMap Member.keyTarget?, ∃ key, known b.path = some key := by
  have hmap : (∃ own, r.own? known = some own) ↔ ∃ parts,
      r.members.mapM (memberKeys (fun b => known b.path) r.aggregate.typeName) = some parts := by
    simp only [own?_eq_some_iff, exists_comm (α := List Column), exists_and_left, exists_eq',
      and_true]
  rw [hmap, exists_mapM_option_iff]
  simp only [exists_memberKeys_iff, List.mem_filterMap, forall_exists_index, and_imp]
  exact ⟨fun h b x hx => h x hx b, fun h x hx b => h b x hx⟩

/-- A rule gives a key exactly if all keys that it needs are known. -/
theorem exists_key?_iff :
    (∃ key, r.key? known = some key) ↔ ∀ b ∈ r.needs, ∃ key, known b.path = some key := by
  simp only [needs, List.mem_append, or_imp, forall_and, ← exists_own?_iff, Option.mem_toList,
    key?_eq_some_iff]
  cases r.owner? with
  | none => simp
  | some o => simp [exists_comm (α := List Column)]

end KeyRule

namespace AggregateGraph
variable {g : AggregateGraph} {a b : Aggregate}

/-- The key of one aggregate needs that of another: of its owner, or of the target of a key
reference. -/
def KeyDependsOn (g : AggregateGraph) (a b : Aggregate) : Prop :=
  g.owner? a = some b ∨
    ∃ l ∈ g.referenceLinks a, l.relation.isKeyReference = true ∧ l.terminal = b

/-- The key of an aggregate depends on itself. -/
def OnKeyCycle (g : AggregateGraph) (a : Aggregate) : Prop :=
  Relation.TransGen g.KeyDependsOn a a

theorem mem_needs_keyRule : b ∈ (keyRule g a).needs ↔ g.KeyDependsOn a b := by
  rw [KeyRule.mem_needs, or_comm]
  simp only [keyRule, reference_mem_members, KeyDependsOn]

theorem KeyDependsOn.mem_nodes (h : g.KeyDependsOn a b) : b ∈ g.nodes := by
  rcases h with h | ⟨l, hl, -, rfl⟩
  · exact mem_nodes_of_owner? h
  · exact (g.closed l ((Graph.mem_outgoing _).1 (List.mem_filter.1 hl).1).1).2

/-- What holds of an aggregate whenever it holds of all whose keys it needs, holds wherever the rules
give a key. -/
theorem induction_of_derivable {P : Aggregate → Prop}
    (step : ∀ a ∈ g.nodes, (∀ b, g.KeyDependsOn a b → P b) → P a) {p : Path} {key : List Column}
    (h : KeyRule.Derivable (keyRules g) p key) (ha : a ∈ g.nodes) (hp : a.path = p) : P a := by
  induction h generalizing a with
  | rule hr _ hkey ih =>
    obtain ⟨b, hb, rfl⟩ := List.mem_map.1 hr
    obtain rfl : a = b := g.eq_of_id_eq ha hb hp
    refine step a ha fun c hac => ?_
    obtain ⟨k, hk⟩ := KeyRule.exists_key?_iff.1 ⟨_, hkey⟩ c (mem_needs_keyRule.2 hac)
    exact ih _ _ hk hac.mem_nodes rfl

/-- A key that the rules give does not depend on itself. -/
theorem not_onKeyCycle_of_derivable {p : Path} {key : List Column}
    (h : KeyRule.Derivable (keyRules g) p key) (ha : a ∈ g.nodes) (hp : a.path = p) :
    ¬ g.OnKeyCycle a := by
  refine induction_of_derivable (P := fun a => ¬ g.OnKeyCycle a) (fun a _ ih hcycle => ?_) h ha hp
  obtain ⟨c, hac, hca⟩ := Relation.TransGen.head'_iff.1 hcycle
  exact ih c hac (Relation.TransGen.tail' hca hac)

/-- An aggregate without a key needs one that has none either. -/
theorem exists_keyless_need (ha : a ∈ g.nodes) (hk : (keyTable g).get? a.path = none) :
    ∃ b, (keyRule g a).needs.find? (fun b => ((keyTable g).get? b.path).isNone) = some b ∧
      g.KeyDependsOn a b ∧ (keyTable g).get? b.path = none := by
  have hrule : ¬ ∃ key, (keyRule g a).key? (keyTable g).get? = some key := by
    rintro ⟨key, hkey⟩
    have hd := KeyRule.Derivable.rule (List.mem_map_of_mem (f := keyRule g) ha)
      (fun p k => get?_keyTable_iff.1) hkey
    exact absurd (get?_keyTable_iff.2 hd) (by simp [keyRule, hk])
  rw [KeyRule.exists_key?_iff] at hrule
  simp only [not_forall, not_exists] at hrule
  obtain ⟨c, hc, hn⟩ := hrule
  have hsome : ((keyRule g a).needs.find? fun b => ((keyTable g).get? b.path).isNone).isSome :=
    List.find?_isSome.2 ⟨c, hc, by simpa [Option.eq_none_iff_forall_ne_some] using hn⟩
  obtain ⟨b, hb⟩ := Option.isSome_iff_exists.1 hsome
  exact ⟨b, hb, mem_needs_keyRule.1 (List.mem_of_find?_eq_some hb), by simpa using List.find?_some hb⟩

/-- Distinct aggregates from each of which dependencies lead to the current one. -/
structure IsTrail (g : AggregateGraph) (met : List Path) (a : Aggregate) : Prop where
  node : a ∈ g.nodes
  distinct : met.Nodup
  leads : ∀ p ∈ met, ∃ b ∈ g.nodes, b.path = p ∧ Relation.TransGen g.KeyDependsOn b a

namespace IsTrail
variable {met : List Path} {left : Nat}

theorem start (ha : a ∈ g.nodes) : g.IsTrail [] a := ⟨ha, List.nodup_nil, by simp⟩

/-- From an aggregate that was not met before, the trail goes on to each that it needs. -/
theorem next (h : g.IsTrail met a) (hm : a.path ∉ met) (hab : g.KeyDependsOn a b) :
    g.IsTrail (a.path :: met) b := by
  refine ⟨hab.mem_nodes, List.nodup_cons.2 ⟨hm, h.distinct⟩, fun p hp => ?_⟩
  rcases List.mem_cons.1 hp with rfl | hp
  · exact ⟨a, h.node, rfl, .single hab⟩
  · obtain ⟨c, hc, hcp, hca⟩ := h.leads p hp
    exact ⟨c, hc, hcp, hca.tail hab⟩

/-- An aggregate that was met before lies on a cycle. -/
theorem onKeyCycle (h : g.IsTrail met a) (hm : a.path ∈ met) : g.OnKeyCycle a := by
  obtain ⟨b, hb, hp, hba⟩ := h.leads a.path hm
  rwa [g.eq_of_id_eq hb h.node hp] at hba

/-- Once as many are met as there are aggregates, the current one is among them. -/
theorem mem_of_length_le (h : g.IsTrail met a) (hl : g.nodes.length ≤ met.length) :
    a.path ∈ met := by
  by_contra hm
  have hsub : a.path :: met ⊆ g.nodes.map Aggregate.path := by
    refine List.cons_subset.2 ⟨List.mem_map_of_mem h.node, fun p hp => ?_⟩
    obtain ⟨b, hb, rfl, -⟩ := h.leads p hp
    exact List.mem_map_of_mem hb
  have hlength := ((List.nodup_cons.2 ⟨hm, h.distinct⟩).subperm hsub).length_le
  rw [List.length_cons, List.length_map] at hlength
  omega

/-- Going on from an aggregate without a key, one without a key is met. -/
theorem next_keyless (h : g.IsTrail met a) (hm : a.path ∉ met)
    (hk : (keyTable g).get? a.path = none) :
    ∃ b, (keyRule g a).needs.find? (fun b => ((keyTable g).get? b.path).isNone) = some b ∧
      (keyTable g).get? b.path = none ∧ g.IsTrail (a.path :: met) b := by
  obtain ⟨b, hb, hab, hbk⟩ := exists_keyless_need h.node hk
  exact ⟨b, hb, hbk, h.next hm hab⟩

/-- The way ends at an aggregate whose key depends on itself. -/
theorem exists_keyCycle_eq (h : g.IsTrail met a) (hk : (keyTable g).get? a.path = none)
    (hl : g.nodes.length ≤ met.length + left) :
    ∃ b ∈ g.nodes, b.path = keyCycle g (keyTable g) left met a ∧ g.OnKeyCycle b := by
  induction left generalizing met a with
  | zero => exact ⟨a, h.node, rfl, h.onKeyCycle (h.mem_of_length_le hl)⟩
  | succ left ih =>
    rw [keyCycle]
    by_cases hm : a.path ∈ met
    · rw [if_pos hm]
      exact ⟨a, h.node, rfl, h.onKeyCycle hm⟩
    · obtain ⟨b, hb, hbk, hnext⟩ := h.next_keyless hm hk
      rw [if_neg hm, hb]
      exact ih hnext hbk (by rw [List.length_cons]; omega)

/-- More steps than there are aggregates make no difference. -/
theorem keyCycle_succ (h : g.IsTrail met a) (hk : (keyTable g).get? a.path = none)
    (hl : g.nodes.length ≤ met.length + left) :
    keyCycle g (keyTable g) (left + 1) met a = keyCycle g (keyTable g) left met a := by
  induction left generalizing met a with
  | zero => simp only [keyCycle, h.mem_of_length_le hl, if_true]
  | succ left ih =>
    unfold keyCycle
    by_cases hm : a.path ∈ met
    · simp only [hm, if_true]
    · obtain ⟨b, hb, hbk, hnext⟩ := h.next_keyless hm hk
      simp only [hm, if_false, hb]
      exact ih hnext hbk (by rw [List.length_cons]; omega)

end IsTrail

theorem get?_keyTable_of_onKeyCycle (ha : a ∈ g.nodes) (h : g.OnKeyCycle a) :
    (keyTable g).get? a.path = none := by
  cases hk : (keyTable g).get? a.path with
  | none => rfl
  | some key => exact absurd h (not_onKeyCycle_of_derivable (get?_keyTable_iff.1 hk) ha rfl)

end AggregateGraph

end AggregateSchema
