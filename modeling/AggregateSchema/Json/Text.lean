import AggregateSchema.Json
import AggregateSchema.Binary64.Shortest

/-! The compact and the indented text of a JSON value. -/
namespace AggregateSchema.Json

/-- One character inside a JSON string: quotes, backslashes and control characters are escaped. -/
def escapeChar (c : Char) : List Char :=
  match c with
  | '"' => ['\\', '"']
  | '\\' => ['\\', '\\']
  | '\x08' => ['\\', 'b']
  | '\x0c' => ['\\', 'f']
  | '\n' => ['\\', 'n']
  | '\r' => ['\\', 'r']
  | '\t' => ['\\', 't']
  | c =>
    if c.toNat < 0x10 then ['\\', 'u', '0', '0', '0'] ++ Nat.toDigits 16 c.toNat
    else if c.toNat < 0x20 then ['\\', 'u', '0', '0'] ++ Nat.toDigits 16 c.toNat
    else [c]

def quote (s : String) : String :=
  String.ofList ('"' :: (s.toList.flatMap escapeChar ++ ['"']))

mutual
/-- The text without any space outside strings. -/
def compact : Json → String
  | null => "null"
  | bool b => if b then "true" else "false"
  | integer n => toString n
  | float x => x.render
  | string s => quote s
  | array items => "[" ++ compactItems items ++ "]"
  | object fields => "\x7b" ++ compactFields fields ++ "\x7d"

def compactItems : List Json → String
  | [] => ""
  | [x] => compact x
  | x :: xs => compact x ++ "," ++ compactItems xs

def compactFields : List (String × Json) → String
  | [] => ""
  | [(k, x)] => quote k ++ ":" ++ compact x
  | (k, x) :: xs => quote k ++ ":" ++ compact x ++ "," ++ compactFields xs
end

/-- A new line, indented by two spaces for each level. -/
def newline (level : Nat) : String := "\n" ++ String.ofList (List.replicate (2 * level) ' ')

mutual
/-- The text with one item or field a line, in the order given. -/
def indented (level : Nat) : Json → String
  | null => "null"
  | bool b => if b then "true" else "false"
  | integer n => toString n
  | float x => x.render
  | string s => quote s
  | array [] => "[]"
  | array items => "[" ++ indentedItems (level + 1) items ++ newline level ++ "]"
  | object [] => "\x7b\x7d"
  | object fields => "\x7b" ++ indentedFields (level + 1) fields ++ newline level ++ "\x7d"

def indentedItems (level : Nat) : List Json → String
  | [] => ""
  | [x] => newline level ++ indented level x
  | x :: xs => newline level ++ indented level x ++ "," ++ indentedItems level xs

def indentedFields (level : Nat) : List (String × Json) → String
  | [] => ""
  | [(k, x)] => newline level ++ quote k ++ ": " ++ indented level x
  | (k, x) :: xs =>
    newline level ++ quote k ++ ": " ++ indented level x ++ "," ++ indentedFields level xs
end

/-- The indented text of a whole document. -/
def pretty (v : Json) : String := indented 0 v

end AggregateSchema.Json
