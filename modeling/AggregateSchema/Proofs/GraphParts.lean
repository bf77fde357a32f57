import AggregateSchema.Proofs.KeyCycles
import Mathlib.Data.List.Find

/-! A part of a graph that no edge leaves or enters. What is derived from its aggregates, and what is
reported of them, is the same in the part and in the whole. -/
namespace AggregateSchema

namespace AggregateGraph
variable {g h : AggregateGraph} {a : Aggregate}

theorem descendants_eq_nil_iff (ha : a ∈ g.nodes) :
    descendants g (.start a) = [] ↔ ownedLinks g a = [] := by
  obtain ⟨n, hn⟩ := Nat.exists_eq_add_one.2 (List.length_pos_of_mem ha)
  rw [descendants, hn, ownedWithin, List.flatMap_eq_nil_iff]
  simp only [reduceCtorEq, imp_false]
  exact List.eq_nil_iff_forall_not_mem.symm

/-- Some of the aggregates of a graph, with all edges that leave or enter them. -/
structure IsPart (g h : AggregateGraph) : Prop where
  nodes : g.nodes ⊆ h.nodes
  outgoing : ∀ a ∈ g.nodes, h.outgoing a = g.outgoing a
  incoming : ∀ a ∈ g.nodes, h.incoming a = g.incoming a

namespace IsPart
variable (hp : g.IsPart h)
include hp

theorem length_le : g.nodes.length ≤ h.nodes.length :=
  (List.subperm_of_subset g.distinct.of_map hp.nodes).length_le

theorem ownerLink?_eq (ha : a ∈ g.nodes) : h.ownerLink? a = g.ownerLink? a := by
  rw [ownerLink?, ownerLink?, hp.incoming a ha]

theorem owner?_eq (ha : a ∈ g.nodes) : h.owner? a = g.owner? a := by
  rw [owner?, owner?, hp.ownerLink?_eq ha]

theorem members_eq (ha : a ∈ g.nodes) : h.members a = g.members a := by
  rw [members, members, variationGroups, variationGroups, hp.outgoing a ha]

theorem keyRule_eq (ha : a ∈ g.nodes) : h.keyRule a = g.keyRule a := by
  rw [keyRule, keyRule, isRepeated, isRepeated, hp.owner?_eq ha, hp.ownerLink?_eq ha,
    hp.members_eq ha]

theorem keyRules_subset : keyRules g ⊆ keyRules h := by
  intro r hr
  obtain ⟨a, ha, rfl⟩ := List.mem_map.1 hr
  rw [← hp.keyRule_eq ha]
  exact List.mem_map_of_mem (hp.nodes ha)

/-- A key that the whole gives needs keys of the same part only. -/
theorem exists_get?_keyTable {p : Path} {key : List Column}
    (hd : KeyRule.Derivable (keyRules h) p key) (ha : a ∈ g.nodes) (hap : a.path = p) :
    ∃ key, (keyTable g).get? a.path = some key := by
  induction hd generalizing a with
  | rule hr _ hkey ih =>
    obtain ⟨b, hb, rfl⟩ := List.mem_map.1 hr
    obtain rfl : a = b := h.eq_of_id_eq (hp.nodes ha) hb hap
    rw [hp.keyRule_eq ha] at hkey
    have hneeds : ∀ c ∈ (keyRule g a).needs, ∃ key, (keyTable g).get? c.path = some key := by
      intro c hc
      obtain ⟨k, hk⟩ := KeyRule.exists_key?_iff.1 ⟨_, hkey⟩ c hc
      exact ih _ _ hk (mem_needs_keyRule.1 hc).mem_nodes rfl
    obtain ⟨key, hfound⟩ := KeyRule.exists_key?_iff.2 hneeds
    exact ⟨key, get?_keyTable_iff.2 (.rule (List.mem_map_of_mem ha)
      (fun _ _ => get?_keyTable_iff.1) hfound)⟩

theorem get?_keyTable_eq (ha : a ∈ g.nodes) :
    (keyTable h).get? a.path = (keyTable g).get? a.path := by
  have hmono : ∀ key, (keyTable g).get? a.path = some key → (keyTable h).get? a.path = some key :=
    fun key hk => get?_keyTable_iff.2 ((get?_keyTable_iff.1 hk).of_subset hp.keyRules_subset)
  refine Option.ext fun key => ⟨fun hk => ?_, hmono key⟩
  obtain ⟨other, ho⟩ := hp.exists_get?_keyTable (get?_keyTable_iff.1 hk) ha rfl
  rw [ho, ← hmono other ho]
  exact hk

/-- The search for a cycle stays in the part. -/
theorem keyCycle_eq (ha : a ∈ g.nodes) (left : Nat) (met : List Path) :
    keyCycle h (keyTable h) left met a = keyCycle g (keyTable g) left met a := by
  induction left generalizing met a with
  | zero => rfl
  | succ left ih =>
    have hfind : (keyRule h a).needs.find? (fun b => ((keyTable h).get? b.path).isNone) =
        (keyRule g a).needs.find? fun b => ((keyTable g).get? b.path).isNone := by
      rw [hp.keyRule_eq ha]
      refine List.find?_congr fun b hb => ?_
      rw [hp.get?_keyTable_eq (mem_needs_keyRule.1 hb).mem_nodes]
    rw [keyCycle, keyCycle, hfind]
    cases hb : (keyRule g a).needs.find? fun b => ((keyTable g).get? b.path).isNone with
    | none => rfl
    | some b =>
      have hbg := (mem_needs_keyRule.1 (List.mem_of_find?_eq_some hb)).mem_nodes
      simp only [ih hbg]

theorem key_eq (ha : a ∈ g.nodes) : key h (keyTable h) a = key g (keyTable g) a := by
  rw [key, key, hp.get?_keyTable_eq ha]
  cases hk : (keyTable g).get? a.path with
  | some key => rfl
  | none =>
    have hpath := (hp.keyCycle_eq ha h.nodes.length []).trans (keyCycle_eq_of_le ha hk hp.length_le)
    simp only [hpath]

theorem memberColumns_eq {m : Member} (hm : m ∈ members g a) (table : String) :
    memberColumns (key h (keyTable h)) table m = memberColumns (key g (keyTable g)) table m := by
  cases m with
  | reference l =>
    have hl := (g.closed l ((Graph.mem_outgoing _).1 (mem_outgoing_of_reference_mem hm)).1).2
    rw [memberColumns, memberColumns, hp.key_eq hl]
  | _ => rfl

theorem keylessRootProblems_eq (ha : a ∈ g.nodes) (keys : List Column) :
    keylessRootProblems h a keys = keylessRootProblems g a keys := by
  have hempty : (descendants h (.start a)).isEmpty = (descendants g (.start a)).isEmpty := by
    rw [Bool.eq_iff_iff, List.isEmpty_iff, List.isEmpty_iff,
      descendants_eq_nil_iff (hp.nodes ha), descendants_eq_nil_iff ha, ownedLinks, ownedLinks,
      hp.outgoing a ha]
  rw [keylessRootProblems, keylessRootProblems, isRoot, isRoot, hp.ownerLink?_eq ha, hempty]

theorem entity_eq (ha : a ∈ g.nodes) :
    entity h (keyTable h) a = entity g (keyTable g) a := by
  have hcolumns : (members h a).mapM (memberColumns (key h (keyTable h)) a.typeName) =
      (members g a).mapM (memberColumns (key g (keyTable g)) a.typeName) := by
    rw [hp.members_eq ha]
    exact mapM_congr fun m hm => hp.memberColumns_eq hm a.typeName
  have hnavigations : navigations h a = navigations g a := by
    rw [navigations, navigations, hp.owner?_eq ha, hp.members_eq ha]
  simp only [entity, entityWithKey, hp.key_eq ha, hcolumns, hnavigations, hp.owner?_eq ha,
    hp.keylessRootProblems_eq ha]

end IsPart

/-- Aggregates whose tables no other one has share them with each other only. -/
theorem sharedTables_filter_subset {own : String → Bool} {seen others : List (String × Path)}
    {as : List Aggregate} (hs : ∀ t, own t = true → others.lookup t = seen.lookup t) :
    sharedTables others (as.filter fun a => own a.typeName) ⊆ sharedTables seen as := by
  induction as generalizing seen others with
  | nil => exact List.Subset.refl _
  | cons a as ih =>
    by_cases ha : own a.typeName = true
    · rw [List.filter_cons_of_pos (by exact ha), sharedTables, sharedTables, hs a.typeName ha]
      refine List.append_subset.2 ⟨List.subset_append_left _ _,
        List.subset_append_of_subset_right _ (ih fun t ht => ?_)⟩
      rw [List.lookup_cons, List.lookup_cons, hs t ht]
    · rw [List.filter_cons_of_neg (by exact ha), sharedTables]
      refine List.subset_append_of_subset_right _ (ih fun t ht => ?_)
      have hne : t ≠ a.typeName := fun he => ha (he ▸ ht)
      rw [List.lookup_cons, beq_eq_false_iff_ne.2 hne, hs t ht]

/-- What is reported of a part is reported of the whole, if no table of the part is one of the
rest. -/
theorem IsPart.entityProblems_subset (hp : g.IsPart h) (own : String → Bool)
    (hn : g.nodes = h.nodes.filter fun a => own a.typeName) :
    entityProblems g ⊆ entityProblems h := by
  intro p hpg
  rw [mem_entityProblems] at hpg ⊢
  rcases hpg with hshared | ⟨a, ha, hpa⟩
  · rw [← byDepth_filter hn] at hshared
    exact Or.inl (sharedTables_filter_subset (fun _ _ => rfl) hshared)
  · exact Or.inr ⟨a, hp.nodes ha, hp.entity_eq ha ▸ hpa⟩

end AggregateGraph

end AggregateSchema
