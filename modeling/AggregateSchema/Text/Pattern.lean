/-! Patterns in which a percent sign stands for any text and an underscore for any character. -/
namespace AggregateSchema.Text

/-- Takes the sign after it for itself. -/
def escapeSign : Char := '\\'

def isWildcard (c : Char) : Bool := c == '%' || c == '_'

/-- The pattern that only the text itself matches. -/
def escapePattern : List Char → List Char
  | [] => []
  | c :: cs =>
    if c = escapeSign ∨ isWildcard c then escapeSign :: c :: escapePattern cs
    else c :: escapePattern cs

/-- The pattern that a text matches if `cs` occurs in it. -/
def containsPattern (cs : List Char) : List Char := '%' :: (escapePattern cs ++ ['%'])

end AggregateSchema.Text
