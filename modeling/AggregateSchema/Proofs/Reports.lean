import AggregateSchema.Distinct
import AggregateSchema.Report

/-! Reports as the first occurrences of what was reported. -/
namespace AggregateSchema

/-- Items that a function tells apart are repeated where their values are. -/
theorem firsts_map {α β : Type} [DecidableEq α] [DecidableEq β] {f : α → β} {xs : List α}
    (h : ∀ x ∈ xs, ∀ y ∈ xs, f x = f y → x = y) : firsts id (xs.map f) = (firsts id xs).map f := by
  suffices ∀ seen ⊆ xs, ∀ ys ⊆ xs,
      firstsAfter id (seen.map f) (ys.map f) = (firstsAfter id seen ys).map f from
    this [] (List.nil_subset _) xs (List.Subset.refl _)
  intro seen hseen ys hys
  induction ys generalizing seen with
  | nil => rfl
  | cons y ys ih =>
    obtain ⟨hy, hys⟩ := List.cons_subset.1 hys
    have hmem : f y ∈ seen.map f ↔ y ∈ seen := by
      refine ⟨fun hf => ?_, List.mem_map_of_mem⟩
      obtain ⟨x, hx, hf⟩ := List.mem_map.1 hf
      exact h x (hseen hx) y hy hf ▸ hx
    rw [List.map_cons, firstsAfter, firstsAfter, id, id]
    by_cases hseeny : y ∈ seen
    · rw [if_pos hseeny, if_pos (hmem.2 hseeny), ih seen hseen hys]
    · rw [if_neg hseeny, if_neg (mt hmem.1 hseeny), List.map_cons]
      exact congrArg (f y :: ·) (ih (y :: seen) (List.cons_subset.2 ⟨hy, hseen⟩) hys)

namespace Report
variable {α : Type} [DecidableEq α]

theorem extend_cons (r : Report) (message : String) (messages : List String) :
    r.extend (message :: messages) = (r.push message).extend messages := rfl

theorem messages_extend (r : Report) (messages : List String) :
    (r.extend messages).messages = r.messages ++ firstsAfter id r.messages messages := by
  induction messages generalizing r with
  | nil => exact (List.append_nil _).symm
  | cons m ms ih =>
    rw [extend_cons, ih, messages_push, firstsAfter, id]
    by_cases hm : m ∈ r.messages
    · rw [if_pos hm, if_pos hm]
    · have hseen : firstsAfter id (r.messages ++ [m]) ms = firstsAfter id (m :: r.messages) ms :=
        firstsAfter_congr fun x _ => by simp [or_comm]
      rw [if_neg hm, if_neg hm, hseen, List.append_assoc, List.singleton_append]

/-- A report keeps each message where it comes first. -/
theorem messages_ofList (messages : List String) :
    (ofList messages).messages = firsts id messages :=
  messages_extend empty messages

theorem messages_ofList_eq_nil_iff {messages : List String} :
    (ofList messages).messages = [] ↔ messages = [] := by
  simp only [List.eq_nil_iff_forall_not_mem, mem_ofList]

theorem toExcept_eq_ok_iff {β : Type} {r : Report} {value result : β} :
    r.toExcept value = .ok result ↔ r.messages = [] ∧ value = result := by
  rw [toExcept, isEmpty]
  cases r.messages <;> simp

theorem extend_append (r : Report) (xs ys : List String) :
    r.extend (xs ++ ys) = (r.extend xs).extend ys :=
  List.foldl_append

/-- Items that were left out as repetitions do not show in a report on what is left, however it is
worded. -/
theorem extend_map_firstsAfter (f : α → String) {r : Report} {seen : List α} {xs : List α}
    (h : ∀ x ∈ seen, f x ∈ r.messages) :
    r.extend ((firstsAfter id seen xs).map f) = r.extend (xs.map f) := by
  induction xs generalizing r seen with
  | nil => rfl
  | cons x xs ih =>
    rw [firstsAfter, List.map_cons, extend_cons]
    split
    · rename_i hx
      have hpush : r.push (f x) = r := dif_pos (h x hx)
      rw [hpush, ih h]
    · refine ih fun y hy => ?_
      rw [mem_push]
      exact (List.mem_cons.1 hy).symm.imp (h y) fun hy => congrArg f hy

theorem ofList_map_firsts (f : α → String) (xs : List α) :
    ofList ((firsts id xs).map f) = ofList (xs.map f) :=
  extend_map_firstsAfter f (by simp)

theorem ofList_map_messages (f : String → String) (messages : List String) :
    ofList ((ofList messages).messages.map f) = ofList (messages.map f) := by
  rw [messages_ofList, ofList_map_firsts]

theorem merge_ofList (xs ys : List String) :
    (ofList xs).merge (ofList ys) = ofList (xs ++ ys) := by
  have h : (ofList xs).extend ((firstsAfter id [] ys).map id) = (ofList xs).extend (ys.map id) :=
    extend_map_firstsAfter id (by simp)
  rw [List.map_id, List.map_id] at h
  rw [merge, messages_ofList, firsts, h, ofList, ofList, extend_append]

end Report

end AggregateSchema
