import AggregateSchema.Proofs.GraphBuilding
import AggregateSchema.Proofs.Reports

/-! Reports that are made out of messages and of other reports, in any order and at any depth. -/
namespace AggregateSchema

/-- How a report is made. -/
inductive Reporting where
  | nothing
  | message (text : String)
  | push (before : Reporting) (text : String)
  | extend (before : Reporting) (texts : List String)
  | merge (before other : Reporting)

namespace Reporting

/-- Everything that is reported, repetitions included; what a merged report was told comes where it is
merged. -/
def stream : Reporting → List String
  | nothing => []
  | message text => [text]
  | push before text => before.stream ++ [text]
  | extend before texts => before.stream ++ texts
  | merge before other => before.stream ++ other.stream

def report : Reporting → Report
  | nothing => .empty
  | message text => .ofList [text]
  | push before text => before.report.push text
  | extend before texts => before.report.extend texts
  | merge before other => before.report.merge other.report

end Reporting

namespace Report

theorem eq_of_messages_eq {r s : Report} (h : r.messages = s.messages) : r = s := by
  cases r
  cases s
  obtain rfl := h
  rfl

/-- A report is what its own messages come to. -/
theorem ofList_messages (r : Report) : ofList r.messages = r := by
  apply eq_of_messages_eq
  rw [messages_ofList]
  exact firsts_eq_self (by simpa using r.distinct)

theorem extend_ofList (xs ys : List String) : (ofList xs).extend ys = ofList (xs ++ ys) :=
  (extend_append empty xs ys).symm

theorem push_ofList (xs : List String) (message : String) :
    (ofList xs).push message = ofList (xs ++ [message]) :=
  extend_ofList xs [message]

/-- Messages that were all reported before leave a report as it is. -/
theorem extend_of_subset {r : Report} {messages : List String} (h : messages ⊆ r.messages) :
    r.extend messages = r := by
  have hnone : firstsAfter id r.messages messages = [] := by
    rw [List.eq_nil_iff_forall_not_mem]
    intro m hm
    exact not_mem_of_mem_firstsAfter hm (h ((firstsAfter_sublist id _ _).subset hm))
  apply eq_of_messages_eq
  rw [messages_extend, hnone, List.append_nil]

theorem merge_self (r : Report) : r.merge r = r :=
  extend_of_subset (List.Subset.refl _)

theorem merge_empty (r : Report) : r.merge empty = r := rfl

theorem empty_merge (r : Report) : empty.merge r = r := ofList_messages r

theorem merge_assoc (r s t : Report) : (r.merge s).merge t = r.merge (s.merge t) := by
  rw [← ofList_messages r, ← ofList_messages s, ← ofList_messages t]
  simp only [merge_ofList, List.append_assoc]

end Report

namespace Reporting

/-- Repetitions left out inside a merged report are the same ones that are left out of the whole
stream. -/
theorem report_eq (b : Reporting) : b.report = .ofList b.stream := by
  induction b with
  | nothing => rfl
  | message text => rfl
  | push before text ih => rw [report, ih, Report.push_ofList, stream]
  | extend before texts ih => rw [report, ih, Report.extend_ofList, stream]
  | merge before other ih iho => rw [report, ih, iho, Report.merge_ofList, stream]

theorem isEmpty_report (b : Reporting) : b.report.isEmpty = true ↔ b.stream = [] := by
  rw [report_eq, Report.isEmpty, List.isEmpty_iff, Report.messages_ofList_eq_nil_iff]

/-- However it is made, a report holds the messages of the whole stream, each where it comes first, and
is an error exactly if there are any. So merging is associative and idempotent, and the empty report
is neutral. -/
theorem messages_report (b : Reporting) :
    b.report.messages = firstOccurrences id b.stream ∧
    (∀ {α : Type} (value : α), b.report.toExcept value =
      if b.stream = [] then .ok value else .error b.report) ∧
    (∀ r s t : Report, (r.merge s).merge t = r.merge (s.merge t)) ∧
    (∀ r : Report, r.merge r = r ∧ Report.empty.merge r = r ∧ r.merge .empty = r) := by
  refine ⟨?_, fun value => ?_, Report.merge_assoc,
    fun r => ⟨r.merge_self, r.empty_merge, r.merge_empty⟩⟩
  · rw [report_eq, Report.messages_ofList, firsts_eq_firstOccurrences]
  · rw [Report.toExcept]
    exact if_congr b.isEmpty_report rfl rfl

end Reporting

end AggregateSchema
