import AggregateSchema.Entity.Derivation
import AggregateSchema.Proofs.Traversal
import Mathlib.Data.List.Perm.Basic

/-! The levels of a graph: its aggregates in ascending order of depth, and those of one depth as they
were declared. -/
namespace AggregateSchema

/-- What no further step changes stays as it is. -/
theorem eq_of_forall_succ_eq {γ : Type} {f : Nat → γ} {start n : Nat}
    (h : ∀ n, start ≤ n → f (n + 1) = f n) (hn : start ≤ n) : f n = f start := by
  induction hn with
  | refl => rfl
  | step hn ih => exact (h _ hn).trans ih

/-- Of two items of an ascending list the lesser one comes first. -/
theorem pair_sublist_of_lt {α : Type} {f : α → Nat} {xs : List α}
    (h : xs.Pairwise fun x y => f x ≤ f y) {x y : α} (hx : x ∈ xs) (hy : y ∈ xs)
    (hlt : f x < f y) : [x, y].Sublist xs := by
  obtain ⟨before, after, rfl⟩ := List.append_of_mem hx
  obtain ⟨-, -, hcross⟩ := List.pairwise_append.1 h
  rcases List.mem_append.1 hy with hy | hy
  · have := hcross y hy x List.mem_cons_self
    omega
  · rcases List.mem_cons.1 hy with rfl | hy
    · exact absurd hlt (Nat.lt_irrefl _)
    · exact ((List.singleton_sublist.2 hy).cons_cons x).trans (List.sublist_append_right ..)

theorem le_foldl_max {xs : List Nat} {x m : Nat} (h : x ≤ m ∨ x ∈ xs) : x ≤ xs.foldl max m := by
  induction xs generalizing m with
  | nil => simpa using h
  | cons y ys ih =>
    apply ih
    rcases h with h | h
    · exact Or.inl (by omega)
    · rcases List.mem_cons.1 h with rfl | h
      · exact Or.inl (by omega)
      · exact Or.inr h

theorem foldl_max_le {xs : List Nat} {m bound : Nat} (hm : m ≤ bound) (h : ∀ x ∈ xs, x ≤ bound) :
    xs.foldl max m ≤ bound := by
  induction xs generalizing m with
  | nil => exact hm
  | cons x xs ih =>
    exact ih (Nat.max_le.2 ⟨hm, h x List.mem_cons_self⟩) fun y hy => h y (List.mem_cons_of_mem x hy)

namespace AggregateGraph
variable {g h : AggregateGraph} {a : Aggregate}

theorem depth_le_greatestDepth (ha : a ∈ g.nodes) : a.path.depth ≤ greatestDepth g :=
  le_foldl_max (Or.inr (List.mem_map_of_mem (f := fun a : Aggregate => a.path.depth) ha))

/-- Levels below the deepest one are empty. -/
theorem byDepth_eq {levels : Nat} (hl : greatestDepth g + 1 ≤ levels) :
    (List.range levels).flatMap (fun d => g.nodes.filter (·.path.depth = d)) = byDepth g := by
  refine eq_of_forall_succ_eq
    (f := fun n => (List.range n).flatMap fun d => g.nodes.filter (·.path.depth = d))
    (fun n hn => ?_) hl
  have hnone : g.nodes.filter (·.path.depth = n) = [] := by
    refine List.filter_eq_nil_iff.2 fun a ha he => ?_
    have := depth_le_greatestDepth ha
    have : a.path.depth = n := of_decide_eq_true he
    omega
  rw [List.range_succ, List.flatMap_append, List.flatMap_singleton, hnone, List.append_nil]

/-- The levels of a part are those of the whole without the other aggregates. -/
theorem byDepth_filter {p : Aggregate → Bool} (hn : g.nodes = h.nodes.filter p) :
    (byDepth h).filter p = byDepth g := by
  have hdepth : greatestDepth g ≤ greatestDepth h := by
    refine foldl_max_le (Nat.zero_le _) fun depth hd => ?_
    obtain ⟨a, ha, rfl⟩ := List.mem_map.1 hd
    rw [hn] at ha
    exact depth_le_greatestDepth (List.mem_filter.1 ha).1
  rw [← byDepth_eq (Nat.succ_le_succ hdepth), byDepth, List.filter_flatMap]
  refine List.flatMap_congr fun d _ => ?_
  rw [hn, List.filter_filter, List.filter_filter]
  exact List.filter_congr fun a _ => Bool.and_comm _ _

theorem pairwise_byDepth (g : AggregateGraph) :
    (byDepth g).Pairwise fun a b => a.path.depth ≤ b.path.depth := by
  have hdepth : ∀ d, ∀ a ∈ g.nodes.filter (·.path.depth = d), a.path.depth = d :=
    fun d a ha => of_decide_eq_true (List.mem_filter.1 ha).2
  rw [byDepth, List.pairwise_flatMap]
  constructor
  · intro d _
    refine List.pairwise_of_forall_mem_list fun a ha b hb => Nat.le_of_eq ?_
    rw [hdepth d a ha, hdepth d b hb]
  · refine List.pairwise_lt_range.imp fun {c d} hcd a ha b hb => ?_
    rw [hdepth c a ha, hdepth d b hb]
    exact Nat.le_of_lt hcd

/-- Within a level the aggregates stand in order of declaration. -/
theorem filter_byDepth (g : AggregateGraph) (n : Nat) :
    (byDepth g).filter (·.path.depth = n) = g.nodes.filter (·.path.depth = n) := by
  have hlevel : ∀ d, (g.nodes.filter (·.path.depth = d)).filter (·.path.depth = n) =
      if decide (d = n) then g.nodes.filter (·.path.depth = n) else [] := by
    intro d
    rw [List.filter_filter]
    by_cases hd : d = n
    · simp [hd]
    · rw [decide_eq_false hd, if_neg Bool.false_ne_true, List.filter_eq_nil_iff]
      intro a _ ha
      rw [Bool.and_eq_true, decide_eq_true_iff, decide_eq_true_iff] at ha
      omega
  -- level `n` may lie below the deepest one, so as many levels are taken as reach both
  have hlevels : greatestDepth g + 1 ≤ greatestDepth g + n + 1 := by omega
  rw [← byDepth_eq hlevels, List.filter_flatMap, List.flatMap_congr fun d _ => hlevel d,
    flatMap_ite_nil]
  have hn : (List.range (greatestDepth g + n + 1)).filter (· = n) = [n] :=
    filter_key_eq_singleton id (by simpa using List.nodup_range) (List.mem_range.2 (by omega))
  rw [hn, List.flatMap_singleton]

theorem byDepth_perm_nodes (g : AggregateGraph) : (byDepth g).Perm g.nodes := by
  refine List.perm_iff_count.2 fun a => ?_
  have hlevel : ∀ as : List Aggregate,
      (as.filter (·.path.depth = a.path.depth)).count a = as.count a :=
    fun _ => List.count_filter (decide_eq_true rfl)
  rw [← hlevel, filter_byDepth, hlevel]

/-- The levels miss no aggregate. -/
theorem mem_byDepth : a ∈ byDepth g ↔ a ∈ g.nodes := (byDepth_perm_nodes g).mem_iff

end AggregateGraph

end AggregateSchema
