import AggregateSchema.Json

/-! Reading JSON text. -/
namespace AggregateSchema.Json

namespace Parser

/-- A reader takes a value from the front of the input and leaves the rest. -/
abbrev Reader (α : Type) := List Char → Option (α × List Char)

def isSpace (c : Char) : Bool := c == ' ' || c == '\n' || c == '\t' || c == '\r'

def skipSpace (cs : List Char) : List Char := cs.dropWhile isSpace

def hexValue? (c : Char) : Option Nat :=
  if '0' ≤ c ∧ c ≤ '9' then some (c.toNat - '0'.toNat)
  else if 'a' ≤ c ∧ c ≤ 'f' then some (c.toNat - 'a'.toNat + 10)
  else if 'A' ≤ c ∧ c ≤ 'F' then some (c.toNat - 'A'.toNat + 10)
  else none

/-- The value of four hexadecimal digits. -/
def unit? (a b c d : Char) : Option Nat := do
  return ((← hexValue? a) * 16 + (← hexValue? b)) * 256 + (← hexValue? c) * 16 + (← hexValue? d)

/-- The character after a backslash, for the escapes of one character. -/
def escape? : Char → Option Char
  | '"' => some '"'
  | '\\' => some '\\'
  | '/' => some '/'
  | 'b' => some '\x08'
  | 'f' => some '\x0c'
  | 'n' => some '\n'
  | 'r' => some '\r'
  | 't' => some '\t'
  | _ => none

def isHighSurrogate (n : Nat) : Bool := 0xD800 ≤ n && n < 0xDC00

def isLowSurrogate (n : Nat) : Bool := 0xDC00 ≤ n && n < 0xE000

/-- The rest of a string after its opening quote. Surrogates have to come in pairs, and control
characters have to be escaped. -/
def stringBody (read : List Char) : Reader String
  | '"' :: rest => some (String.ofList read.reverse, rest)
  | '\\' :: 'u' :: a :: b :: c :: d :: rest => do
    let n ← unit? a b c d
    if isLowSurrogate n then none
    else if isHighSurrogate n then
      match rest with
      | '\\' :: 'u' :: a' :: b' :: c' :: d' :: rest' => do
        let m ← unit? a' b' c' d'
        if isLowSurrogate m then
          stringBody (Char.ofNat (0x10000 + (n - 0xD800) * 0x400 + (m - 0xDC00)) :: read) rest'
        else none
      | _ => none
    else stringBody (Char.ofNat n :: read) rest
  | '\\' :: c :: rest => do stringBody ((← escape? c) :: read) rest
  | c :: rest => if c.toNat < 0x20 then none else stringBody (c :: read) rest
  | [] => none

/-- A significand of 64 bits that takes in decimal digits, and the number of digits that no longer
fit into it. -/
structure Significand where
  value : Nat
  dropped : Nat

/-- Takes in digits up to the first that does not fit; it and all later ones are dropped. -/
def Significand.absorb (value : Nat) : List Char → Significand
  | [] => ⟨value, 0⟩
  | c :: cs =>
    let next := value * 10 + (c.toNat - '0'.toNat)
    if next < 2 * int64Bound then absorb next cs else ⟨value, cs.length + 1⟩

def takeDigits (cs : List Char) : List Char × List Char := cs.span Char.isDigit

/-- The exponent after the letter e. -/
def exponent : Reader Int := fun cs =>
  let (negative, cs) := match cs with
    | '-' :: rest => (true, rest)
    | '+' :: rest => (false, rest)
    | _ => (false, cs)
  match takeDigits cs with
  | ([], _) => none
  | (ds, rest) =>
    let n : Int := Nat.ofDigitChars 10 ds 0
    some (if negative then -n else n, rest)

/-- A number after its sign. It is an integer if it is written as one and fits into 64 bits, signed
if it is negative. -/
def unsigned (negative : Bool) : Reader Json := fun cs =>
  let (whole, rest) := takeDigits cs
  if whole.isEmpty || (whole.head? == some '0' && whole.length != 1) then none
  else
    let front := Significand.absorb 0 whole
    let finish (significand : Nat) (power : Int) : Reader Json := fun rest => do
      let (power, rest) ← match rest with
        | 'e' :: rest => (exponent rest).map fun (n, rest) => (power + n, rest)
        | 'E' :: rest => (exponent rest).map fun (n, rest) => (power + n, rest)
        | _ => some (power, rest)
      return (float (← Binary64.ofDecimal? negative significand power), rest)
    match rest with
    | '.' :: rest =>
      let (decimals, rest) := takeDigits rest
      if decimals.isEmpty then none
      else
        let all := Significand.absorb front.value decimals
        finish all.value (front.dropped - (decimals.length - all.dropped : Nat)) rest
    | 'e' :: _ => finish front.value front.dropped rest
    | 'E' :: _ => finish front.value front.dropped rest
    | _ =>
      if front.dropped = 0 ∧ negative = false then some (integer front.value, rest)
      else if front.dropped = 0 ∧ 0 < front.value ∧ front.value ≤ int64Bound then
        some (integer (-front.value), rest)
      else finish front.value front.dropped rest

def scalar : Reader Json
  | 'n' :: 'u' :: 'l' :: 'l' :: rest => some (null, rest)
  | 't' :: 'r' :: 'u' :: 'e' :: rest => some (bool true, rest)
  | 'f' :: 'a' :: 'l' :: 's' :: 'e' :: rest => some (bool false, rest)
  | '"' :: rest => (stringBody [] rest).map fun (s, rest) => (string s, rest)
  | '-' :: rest => unsigned true rest
  | cs => unsigned false cs

/-- The items of a list that has begun, parted by commas, up to the closing character. Each round
takes at least one character, so `fuel` may be the length of the input. -/
def items {α : Type} (item : Reader α) (close : Char) : Nat → Reader (List α)
  | 0, _ => none
  | fuel + 1, cs => do
    let (x, rest) ← item (skipSpace cs)
    match skipSpace rest with
    | ',' :: rest => (items item close fuel rest).map fun (xs, rest) => (x :: xs, rest)
    | c :: rest => if c = close then some ([x], rest) else none
    | [] => none

def list {α : Type} (item : Reader α) (close : Char) : Reader (List α) := fun cs =>
  match skipSpace cs with
  | [] => none
  | c :: rest => if c = close then some ([], rest) else items item close (cs.length + 1) cs

def field (value : Reader Json) : Reader (String × Json)
  | '"' :: rest => do
    let (key, rest) ← stringBody [] rest
    match skipSpace rest with
    | ':' :: rest => (value (skipSpace rest)).map fun (v, rest) => ((key, v), rest)
    | _ => none
  | _ => none

/-- A value with at most `depth` lists and objects inside one another. -/
def value : Nat → Reader Json
  | 0, '[' :: _ => none
  | 0, '\x7b' :: _ => none
  | depth + 1, '[' :: rest =>
    (list (value depth) ']' rest).map fun (xs, rest) => (array xs, rest)
  | depth + 1, '\x7b' :: rest =>
    (list (field (value depth)) '\x7d' rest).map fun (fs, rest) => (ofFields fs, rest)
  | _, cs => scalar cs

end Parser

/-- The deepest nesting that is read. -/
def greatestDepth : Nat := 127

/-- Reads a whole text as one value. -/
def parse? (text : String) : Option Json :=
  match Parser.value greatestDepth (Parser.skipSpace text.toList) with
  | some (v, rest) => if (Parser.skipSpace rest).isEmpty then some v else none
  | none => none

end AggregateSchema.Json
