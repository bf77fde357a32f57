import AggregateSchema.Text.Quoted
import AggregateSchema.Text.Utf8

/-! The content of a start tag: a name and attributes. -/
namespace AggregateSchema.Xml

def isSpace (c : Char) : Bool := c == ' ' || c == '\t' || c == '\r' || c == '\n'

/-- What is wrong with a reference to a character inside an attribute value. Places are counted in
bytes of the value. -/
inductive EscapeProblem where
  | unterminated (start stop : Nat)
  | unknown (start stop : Nat) (name : String)
  | nullCharacter (start stop : Nat)
  | longHexadecimal
  | longDecimal
  | hexadecimalDigit (byte : Char)
  | decimalDigit (byte : Char)
  | codePoint (n : Nat)
  deriving DecidableEq, Repr

def EscapeProblem.message : EscapeProblem → String
  | unterminated start stop =>
    s!"Error while escaping character at range {start}..{stop}: Cannot find ';' after '&'"
  | unknown start stop name =>
    s!"Error while escaping character at range {start}..{stop}: Unrecognized escape symbol: " ++
      Text.quoted name
  | nullCharacter start stop =>
    s!"Error while escaping character at range {start}..{stop}: Null character entity not allowed"
  | longHexadecimal => "Cannot convert hexadecimal to utf8"
  | longDecimal => "Cannot convert decimal to utf8"
  | hexadecimalDigit byte => s!"'{byte}' is not a valid hexadecimal character"
  | decimalDigit byte => s!"'{byte}' is not a valid decimal character"
  | codePoint n => s!"'{n}' is not a valid codepoint"

/-- What is wrong with the attributes of a tag. Places are counted in bytes of its content. -/
inductive AttributeProblem where
  | noEquals (position : Nat)
  | duplicated (position first : Nat)
  | noValue (position : Nat)
  | unquoted (position : Nat)
  | unclosed (position : Nat) (quote : Char)
  deriving DecidableEq, Repr

def AttributeProblem.message : AttributeProblem → String
  | noEquals position =>
    s!"position {position}: attribute key must be directly followed by `=` or space"
  | duplicated position first =>
    s!"position {position}: duplicated attribute, previous declaration at position {first}"
  | noValue position => s!"position {position}: `=` must be followed by an attribute value"
  | unquoted position =>
    s!"position {position}: attribute value must be enclosed in `\"` or `'`"
  | unclosed position quote =>
    s!"position {position}: missing closing quote `{quote}` in attribute value"

/-- The characters between the brackets of a start tag. -/
structure Tag where
  content : List Char
  deriving DecidableEq, Repr

/-- The name and the attributes of an element. -/
structure Head where
  name : String
  attributes : List (String × String)
  deriving DecidableEq, Repr

inductive TagProblem where
  | attributes (element : String) (problem : AttributeProblem)
  | escape (element key : String) (problem : EscapeProblem)
  deriving DecidableEq, Repr

def TagProblem.message : TagProblem → String
  | attributes element problem => s!"Malformed XML in element '{element}': {problem.message}"
  | escape element key problem =>
    s!"Malformed XML in attribute '{key}' of '{element}': {problem.message}"

/-- The value of a digit up to base 16. -/
def digitValue? (c : Char) : Option Nat :=
  if c.isDigit then some (c.toNat - '0'.toNat)
  else if 'a' ≤ c ∧ c ≤ 'f' then some (c.toNat - 'a'.toNat + 10)
  else if 'A' ≤ c ∧ c ≤ 'F' then some (c.toNat - 'A'.toNat + 10)
  else none

/-- The number of the given digits, or the first character that is none. -/
def readDigits (base : Nat) (n : Nat) : List Char → Except Char Nat
  | [] => .ok n
  | c :: cs => match (digitValue? c).filter (· < base) with
    | some d => readDigits base (n * base + d) cs
    | none => .error (Text.firstByte c)

/-- The character of a code point given in digits. -/
def numericEntity (start stop : Nat) (digits : List Char) : Except EscapeProblem Char := do
  let n ← match digits with
    | 'x' :: ds =>
      if 6 < Text.byteCount ds then .error .longHexadecimal
      else (readDigits 16 0 ds).mapError .hexadecimalDigit
    | ds =>
      if 7 < Text.byteCount ds then .error .longDecimal
      else (readDigits 10 0 ds).mapError .decimalDigit
  if n = 0 then .error (.nullCharacter start stop)
  else if n.isValidChar then .ok (Char.ofNat n)
  else .error (.codePoint n)

/-- The character that a reference between `start` and `stop` stands for. -/
def entity (start stop : Nat) : List Char → Except EscapeProblem Char
  | ['l', 't'] => .ok '<'
  | ['g', 't'] => .ok '>'
  | ['a', 'm', 'p'] => .ok '&'
  | ['a', 'p', 'o', 's'] => .ok '\''
  | ['q', 'u', 'o', 't'] => .ok '"'
  | '#' :: digits => numericEntity start stop digits
  | name => .error (.unknown (start + 1) stop (String.ofList name))

/-- Replaces the references in the rest of a value of `total` bytes, of which `i` were read. The
start and the name, in reverse, of a reference that is being read are `pending`. -/
def unescape (total : Nat) : Nat → Option (Nat × List Char) → List Char →
    Except EscapeProblem (List Char)
  | _, none, [] => .ok []
  | _, some (start, _), [] => .error (.unterminated start total)
  | i, none, c :: cs =>
    if c = '&' then unescape total (i + 1) (some (i, [])) cs
    else (unescape total (i + c.utf8Size) none cs).map (c :: ·)
  | i, some (start, name), c :: cs =>
    if c = ';' then do
      let d ← entity start i name.reverse
      (unescape total (i + 1) none cs).map (d :: ·)
    else if c = '&' then .error (.unterminated start total)
    else unescape total (i + c.utf8Size) (some (start, c :: name)) cs

namespace Tag

def nameChars (t : Tag) : List Char := t.content.takeWhile (!isSpace ·)

def name (t : Tag) : String := String.ofList t.nameChars

/-- A key is at least one character, whatever that is, up to an equals sign or space. -/
def takeKey : List Char → List Char × List Char
  | [] => ([], [])
  | c :: cs =>
    let ends (d : Char) : Bool := d == '=' || isSpace d
    (c :: cs.takeWhile (!ends ·), cs.dropWhile (!ends ·))

/-- The attributes in the rest of a tag, of whose content `i` bytes were read. Keys already read are
in `seen` with their places. Each attribute takes at least one character, so `fuel` may be the
number of characters left. -/
def attributesFrom (element : String) (total : Nat) :
    Nat → Nat → List (String × Nat) → List Char → Except TagProblem (List (String × String))
  | 0, _, _, _ => .ok []
  | fuel + 1, i, seen, cs => do
    let start := i + Text.byteCount (cs.takeWhile isSpace)
    let cs := cs.dropWhile isSpace
    if cs.isEmpty then return []
    let (key, cs) := takeKey cs
    let i := start + Text.byteCount key + Text.byteCount (cs.takeWhile isSpace)
    let key := String.ofList key
    match cs.dropWhile isSpace with
    | '=' :: cs =>
      if let some first := seen.lookup key then
        throw (.attributes element (.duplicated start first))
      let i := i + 1 + Text.byteCount (cs.takeWhile isSpace)
      match cs.dropWhile isSpace with
      | [] => throw (.attributes element (.noValue total))
      | quote :: cs =>
        if quote ≠ '"' ∧ quote ≠ '\'' then throw (.attributes element (.unquoted i))
        let raw := cs.takeWhile (· ≠ quote)
        match cs.dropWhile (· ≠ quote) with
        | [] => throw (.attributes element (.unclosed total quote))
        | _ :: cs =>
          let size := Text.byteCount raw
          let value ← (unescape size 0 none raw).mapError (.escape element key)
          let rest ← attributesFrom element total fuel (i + size + 2) ((key, start) :: seen) cs
          return (key, String.ofList value) :: rest
    | _ => throw (.attributes element (.noEquals i))

/-- Reads the name and the attributes. -/
def head (t : Tag) : Except TagProblem Head := do
  let rest := t.content.dropWhile (!isSpace ·)
  let attributes ← attributesFrom t.name (Text.byteCount t.content) (rest.length + 1)
    (Text.byteCount t.nameChars) [] rest
  return ⟨t.name, attributes⟩

end Tag

end AggregateSchema.Xml
