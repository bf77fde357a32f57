import AggregateSchema.Text.Occurrence

/-! Problems found in one run: the distinct messages, each where it was first reported. -/
namespace AggregateSchema

structure Report where
  messages : List String
  distinct : messages.Nodup
  deriving DecidableEq

namespace Report

def empty : Report := ⟨[], List.nodup_nil⟩

instance : Inhabited Report := ⟨empty⟩

/-- Reports a message; one that was reported before keeps its place. -/
def push (r : Report) (message : String) : Report :=
  if h : message ∈ r.messages then r
  else ⟨r.messages ++ [message], by
    rw [List.nodup_append]
    exact ⟨r.distinct, by simp, fun a ha b hb => by
      rw [List.mem_singleton.1 hb]
      exact fun e => h (e ▸ ha)⟩⟩

def extend (r : Report) (messages : List String) : Report := messages.foldl push r

/-- The report on one stream of messages. -/
def ofList (messages : List String) : Report := empty.extend messages

def merge (r s : Report) : Report := r.extend s.messages

def isEmpty (r : Report) : Bool := r.messages.isEmpty

def size (r : Report) : Nat := r.messages.length

/-- Whether some message contains the given text. -/
def mentions (r : Report) (needle : String) : Bool :=
  r.messages.any fun m => Text.occursIn needle.toList m.toList

/-- The value, unless something was reported. -/
def toExcept {α : Type} (r : Report) (value : α) : Except Report α :=
  if r.isEmpty then .ok value else .error r

/-- One line a message. -/
def text (r : Report) : String := String.intercalate "\n" (r.messages.map ("- " ++ ·))

theorem messages_push (r : Report) (message : String) :
    (r.push message).messages =
      if message ∈ r.messages then r.messages else r.messages ++ [message] := by
  unfold push
  split <;> simp_all

theorem mem_push (r : Report) (message other : String) :
    other ∈ (r.push message).messages ↔ other ∈ r.messages ∨ other = message := by
  rw [messages_push]
  split <;> simp_all

theorem mem_extend (r : Report) (messages : List String) (other : String) :
    other ∈ (r.extend messages).messages ↔ other ∈ r.messages ∨ other ∈ messages := by
  induction messages generalizing r with
  | nil => simp [extend]
  | cons m ms ih =>
    have h := ih (r.push m)
    rw [mem_push] at h
    simpa [extend, or_assoc] using h

@[simp] theorem mem_ofList (messages : List String) (other : String) :
    other ∈ (ofList messages).messages ↔ other ∈ messages := by
  simp [ofList, mem_extend, empty]

end Report

end AggregateSchema
