import AggregateSchema.Distinct
import AggregateSchema.Text.Blank

/-! Enumerations: named items that stand for integers. -/
namespace AggregateSchema

structure EnumerationItem where
  name : String
  value : Int
  deriving DecidableEq, Repr

structure Enumeration where
  name : String
  items : List EnumerationItem
  deriving DecidableEq, Repr

/-- Why a name and items are no enumeration. -/
inductive EnumerationProblem where
  | blankName
  | noItems (name : String)
  | blankItem (name : String)
  | repeatedItem (name item : String)
  | repeatedValue (name : String) (value : Int)
  deriving DecidableEq, Repr

def EnumerationProblem.message : EnumerationProblem → String
  | blankName => "Enumeration name is empty."
  | noItems name => s!"Enumeration '{name}' has no items."
  | blankItem name => s!"Enumeration '{name}' has an item without a name."
  | repeatedItem name item => s!"Enumeration '{name}' declares '{item}' twice."
  | repeatedValue name value => s!"Enumeration '{name}' uses value {value} more than once."

namespace Enumeration

/-- The problems of the items, item by item, given the names and values of the items before. -/
def itemProblems (name : String) (names : List String) (values : List Int) :
    List EnumerationItem → List EnumerationProblem
  | [] => []
  | item :: rest =>
    (if Text.isBlank item.name then [.blankItem name] else []) ++
      (if item.name ∈ names then [.repeatedItem name item.name] else []) ++
      (if item.value ∈ values then [.repeatedValue name item.value] else []) ++
      itemProblems name (item.name :: names) (item.value :: values) rest

def problems (e : Enumeration) : List EnumerationProblem :=
  (if Text.isBlank e.name then [.blankName] else []) ++
    (if e.items.isEmpty then [.noItems e.name] else []) ++
    itemProblems e.name [] [] e.items

/-- Accepts an enumeration without problems. -/
def check (e : Enumeration) : Except (List EnumerationProblem) Enumeration :=
  if e.problems.isEmpty then .ok e else .error e.problems

theorem countP_le_lt {used : List Int} {next : Int} (h : next ∈ used) :
    used.countP (next + 1 ≤ ·) < used.countP (next ≤ ·) := by
  induction used with
  | nil => simp at h
  | cons value used ih =>
    have hle : used.countP (next + 1 ≤ ·) ≤ used.countP (next ≤ ·) :=
      List.countP_mono_left fun v _ hv => by simp only [decide_eq_true_eq] at hv ⊢; omega
    simp only [List.countP_cons, decide_eq_true_eq]
    rcases List.mem_cons.1 h with rfl | hused
    · rw [if_neg (by omega), if_pos (Int.le_refl next)]
      omega
    · have hlt := ih hused
      have hstep : (if next + 1 ≤ value then 1 else 0) ≤ if next ≤ value then 1 else 0 := by grind
      omega

/-- The first number from `next` on that is not in use. -/
def advance (used : List Int) (next : Int) : Int :=
  if next ∈ used then advance used (next + 1) else next
  termination_by used.countP (next ≤ ·)
  decreasing_by exact countP_le_lt ‹_›

/-- Gives the items without a value theirs: a cursor runs on to the next number that is not in use and
stays there, and that number is in use from then on. -/
def assignValues (used : List Int) (next : Int) :
    List (String × Option Int) → List EnumerationItem
  | [] => []
  | (name, some value) :: rest => ⟨name, value⟩ :: assignValues used next rest
  | (name, none) :: rest =>
    let value := advance used next
    ⟨name, value⟩ :: assignValues (value :: used) value rest

/-- The enumeration of the given items. The values that are declared, be it by earlier or by later
items, are in use from the start. -/
def ofItems (name : String) (items : List (String × Option Int)) :
    Except (List EnumerationProblem) Enumeration :=
  check ⟨name, assignValues (items.filterMap (·.2)) 0 items⟩

def valueOf? (e : Enumeration) (item : String) : Option Int :=
  (e.items.find? (·.name = item)).map (·.value)

def nameOf? (e : Enumeration) (value : Int) : Option String :=
  (e.items.find? (·.value = value)).map (·.name)

theorem itemProblems_eq_nil_iff (name : String) (names : List String) (values : List Int)
    (items : List EnumerationItem) :
    itemProblems name names values items = [] ↔
      (∀ i ∈ items, Text.isBlank i.name = false ∧ i.name ∉ names ∧ i.value ∉ values) ∧
        (items.map (·.name)).Nodup ∧ (items.map (·.value)).Nodup := by
  induction items generalizing names values with
  | nil => simp [itemProblems]
  | cons i items ih =>
    simp only [itemProblems, List.append_eq_nil_iff, ite_eq_right_iff, reduceCtorEq, imp_false,
      ih, List.mem_cons, not_or, forall_eq_or_imp, List.map_cons, List.nodup_cons, List.mem_map,
      not_exists, not_and, Bool.not_eq_true]
    constructor
    · rintro ⟨⟨⟨hb, hn⟩, hv⟩, h, dn, dv⟩
      exact ⟨⟨⟨hb, hn, hv⟩, fun j hj => ⟨(h j hj).1, (h j hj).2.1.2, (h j hj).2.2.2⟩⟩,
        ⟨fun j hj => (h j hj).2.1.1, dn⟩, fun j hj => (h j hj).2.2.1, dv⟩
    · rintro ⟨⟨⟨hb, hn, hv⟩, h⟩, ⟨fn, dn⟩, fv, dv⟩
      exact ⟨⟨⟨hb, hn⟩, hv⟩, fun j hj => ⟨(h j hj).1, ⟨fn j hj, (h j hj).2.1⟩,
        fv j hj, (h j hj).2.2⟩, dn, dv⟩

end Enumeration

end AggregateSchema
