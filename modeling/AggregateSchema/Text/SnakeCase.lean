import AggregateSchema.Text.Alphanumeric
import AggregateSchema.Text.LetterCase

/-! Names in lower case with underscores between their words. -/
namespace AggregateSchema.Text

/-- Whether a capital after this character begins a new word. -/
def endsWord (c : Char) : Bool := isLowercase c || c.isDigit

/-- One character, given the one before it: a capital is put in lower case, and all that is neither
letter nor numeral becomes an underscore. -/
def snakeChar (previous : Option Char) (c : Char) : List Char :=
  if isUppercase c then
    (if previous.any endsWord then ['_'] else []) ++ lowercase c
  else if isAlphanumeric c then [c]
  else ['_']

def snakeChars (previous : Option Char) : List Char → List Char
  | [] => []
  | c :: cs => snakeChar previous c ++ snakeChars (some c) cs

def toSnakeCase (name : String) : String := String.ofList (snakeChars none name.toList)

end AggregateSchema.Text
