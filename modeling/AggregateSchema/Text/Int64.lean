import AggregateSchema.Text.Blank

/-! Integers of 64 signed bits, written in decimal. -/
namespace AggregateSchema

/-- An integer of 64 signed bits is less than this, and no less than its negation. -/
def int64Bound : Nat := 0x8000000000000000

theorem int64Bound_pos : 0 < int64Bound := by decide

namespace Text

def inInt64 (n : Int) : Bool := -int64Bound ≤ n && n < int64Bound

/-- One or more decimal digits. -/
def digits? (cs : List Char) : Option Nat :=
  if !cs.isEmpty && cs.all Char.isDigit then some (Nat.ofDigitChars 10 cs 0) else none

/-- Digits after at most one sign. -/
def int64? (cs : List Char) : Option Int :=
  let n? : Option Int := match cs with
    | '-' :: ds => (digits? ds).map fun n => -(n : Int)
    | '+' :: ds => (digits? ds).map Int.ofNat
    | ds => (digits? ds).map Int.ofNat
  n?.filter inInt64

/-- An integer with blank characters around it. -/
def trimmedInt64? (s : String) : Option Int := int64? (trimChars s.toList)

end Text

end AggregateSchema
