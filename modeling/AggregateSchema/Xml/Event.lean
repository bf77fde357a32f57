import AggregateSchema.Xml.Tag

/-! An XML text as a sequence of events. -/
namespace AggregateSchema.Xml

/-- What follows an opening bracket. -/
inductive Construct where
  | bang
  | comment
  | characterData
  | doctype
  | instruction
  | element
  deriving DecidableEq, Repr

def Construct.name : Construct → String
  | bang => "Bang"
  | comment => "Comment"
  | characterData => "CData"
  | doctype => "DOCTYPE"
  | instruction => "XmlDecl"
  | element => "Element"

/-- Why a text is no sequence of events. -/
inductive ScanProblem where
  | unfinished (construct : Construct)
  | unknownBang (byte : Char)
  | emptyDoctype
  | mismatch (expected found : String)
  deriving DecidableEq, Repr

def ScanProblem.message : ScanProblem → String
  | unfinished construct => s!"Unexpected EOF during reading {construct.name}"
  | unknownBang byte =>
    "Only Comment (`--`), CDATA (`[CDATA[`) and DOCTYPE (`DOCTYPE`) nodes can start with a '!', " ++
      s!"but symbol `{byte}` found"
  | emptyDoctype => "DOCTYPE declaration must not be empty"
  | mismatch expected found => s!"Expecting </{expected}> found </{found}>"

/-- A start tag, an element in one tag, a closing tag, or anything else. -/
inductive Event where
  | start (tag : Tag)
  | empty (tag : Tag)
  | close
  | other
  deriving DecidableEq, Repr

/-- A place in a text: the number of bytes before it, and what comes after. -/
structure Cursor where
  position : Nat
  rest : List Char

/-- A problem at a place in the text. -/
structure Located where
  position : Nat
  problem : ScanProblem

/-- An event and the place after it. -/
abbrev Scanned := Except Located (Event × Cursor)

namespace Cursor

/-- The place after some characters, given what follows them. -/
def after (c : Cursor) (taken rest : List Char) : Cursor :=
  ⟨c.position + Text.byteCount taken, rest⟩

def skip (c : Cursor) (p : Char → Bool) : Cursor :=
  c.after (c.rest.takeWhile p) (c.rest.dropWhile p)

/-- The place after a closing bracket, if there is one. -/
def afterBracket (c : Cursor) : Cursor :=
  match c.rest with
  | [] => c
  | b :: rest => c.after [b] rest

/-- Whether a construct may close after the given characters, which are in reverse. Of the brackets
among them, `depth` more open than close. -/
def mayClose (construct : Construct) (depth : Int) (before : List Char) : Bool :=
  match construct with
  | .comment => ['-', '-'].isPrefixOf before && 4 < Text.byteCount before
  | .characterData => [']', ']'].isPrefixOf before
  | _ => depth == 0

/-- By how much a character adds to the depth of brackets. -/
def depthChange (c : Char) : Int := if c = '<' then 1 else if c = '>' then -1 else 0

/-- What stands before the first bracket that closes a construct, and what stands after it. -/
def splitAtClose (construct : Construct) (depth : Int) (before : List Char) :
    List Char → Option (List Char × List Char)
  | [] => none
  | c :: cs =>
    if c = '>' ∧ mayClose construct depth before then some (before.reverse, cs)
    else splitAtClose construct (depth + depthChange c) (c :: before) cs

/-- How the content of a construct has to begin, in lower case. -/
def opening : Construct → List Char
  | .comment => ['!', '-', '-']
  | .characterData => ['!', '[', 'c', 'd', 'a', 't', 'a', '[']
  | _ => ['!', 'd', 'o', 'c', 't', 'y', 'p', 'e']

/-- A comment, character data or a document type, at its exclamation mark. -/
def bangOf (construct : Construct) (c : Cursor) : Scanned :=
  match splitAtClose construct 0 [] c.rest with
  | none => .error ⟨c.position, .unfinished construct⟩
  | some (content, rest) =>
    let next := (c.after content []).after ['>'] rest
    if !(opening construct).isPrefixOf (content.map Char.toLower) then
      .error ⟨next.position, .unfinished construct⟩
    else if construct = .doctype ∧ (content.drop (opening construct).length).all isSpace then
      .error ⟨next.position, .emptyDoctype⟩
    else .ok (.other, next)

def bang (c : Cursor) : Scanned :=
  match c.rest with
  | _ :: '[' :: _ => bangOf .characterData c
  | _ :: '-' :: _ => bangOf .comment c
  | _ :: 'D' :: _ => bangOf .doctype c
  | _ :: 'd' :: _ => bangOf .doctype c
  | _ :: d :: _ => .error ⟨c.position, .unknownBang (Text.firstByte d)⟩
  | _ => .error ⟨c.position, .unfinished .bang⟩

/-- The name in a closing tag: without the space at its end, unless it is all space. -/
def closingName (cs : List Char) : List Char :=
  if cs.all isSpace then cs else (cs.reverse.dropWhile isSpace).reverse

/-- A closing tag at its slash; it has to bear the name of the innermost open element. The end of the
text may stand for its bracket. -/
def closing (names : List String) (c : Cursor) : Scanned :=
  let next := (c.skip (· ≠ '>')).afterBracket
  let content := c.rest.takeWhile (· ≠ '>')
  let fail (expected : String) (found : List Char) : Scanned :=
    .error ⟨next.position - Text.byteCount content, .mismatch expected (String.ofList found)⟩
  match names with
  | [] => fail "" content.tail
  | name :: _ =>
    let found := closingName content.tail
    if found = name.toList then .ok (.close, next) else fail name found

/-- A declaration or processing instruction at its question mark. -/
def instruction (c : Cursor) : Scanned :=
  let next := (c.skip (· ≠ '>')).afterBracket
  let content := c.rest.takeWhile (· ≠ '>')
  let size := Text.byteCount content
  if 2 < size ∧ content.getLast? = some '?' then .ok (.other, next)
  else .error ⟨next.position - size, .unfinished .instruction⟩

/-- What stands before the first closing bracket outside quotes, and what stands after it. -/
def splitAtBracket (quote : Option Char) (before : List Char) :
    List Char → Option (List Char × List Char)
  | [] => none
  | c :: cs => match quote with
    | some q => splitAtBracket (if c = q then none else some q) (c :: before) cs
    | none =>
      if c = '>' then some (before.reverse, cs)
      else splitAtBracket (if c = '"' ∨ c = '\'' then some c else none) (c :: before) cs

/-- A start tag after its bracket; a slash at the end makes it a whole element. -/
def element (c : Cursor) : Scanned :=
  match splitAtBracket none [] c.rest with
  | none => .error ⟨c.position, .unfinished .element⟩
  | some (content, rest) =>
    let next := (c.after content []).after ['>'] rest
    if content.getLast? = some '/' then .ok (.empty ⟨content.dropLast⟩, next)
    else .ok (.start ⟨content⟩, next)

/-- The event after an opening bracket, given the names of the open elements. -/
def markup (names : List String) (c : Cursor) : Scanned :=
  match c.rest with
  | '!' :: _ => c.bang
  | '/' :: _ => c.closing names
  | '?' :: _ => c.instruction
  | _ => c.element

end Cursor

/-- The names of the open elements after an event. -/
def Event.openNames (names : List String) : Event → List String
  | .start tag => tag.name :: names
  | .close => names.tail
  | _ => names

/-- The events from a place on, and the problem that ends them early. Each takes at least one
character, so `fuel` may be the number of characters left. -/
def eventsFrom : Nat → List String → Cursor → List Event × Option Located
  | 0, _, _ => ([], none)
  | fuel + 1, names, c =>
    let c := c.skip (· ≠ '<')
    match c.rest with
    | [] | [_] => ([], none)
    | b :: rest =>
      match (c.after [b] rest).markup names with
      | .error p => ([], some p)
      | .ok (e, c) =>
        let (es, p) := eventsFrom fuel (e.openNames names) c
        (e :: es, p)

/-- A mark that may stand before a text to show the order of its bytes. -/
def byteOrderMark : Char := Char.ofNat 0xFEFF

/-- The events of a text. A byte order mark before it does not count. -/
def events (text : List Char) : List Event × Option Located :=
  let text := match text with
    | c :: cs => if c = byteOrderMark then cs else c :: cs
    | [] => []
  eventsFrom text.length [] ⟨0, text⟩

end AggregateSchema.Xml
