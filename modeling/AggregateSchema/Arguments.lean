import AggregateSchema.Compilation

/-! The words of a command line, and the command that they spell. -/
namespace AggregateSchema

/-- An option of a command. -/
structure OptionForm where
  long : String
  short? : Option Char
  takesValue : Bool
  /-- Whether an empty value is refused. -/
  needsText : Bool

/-- What a command accepts: options, and values without a name, each of which may have to be there and
may have to hold some text. -/
structure CommandForm where
  options : List OptionForm
  values : List (Bool × Bool)

/-- Why no command is run: a text is asked for instead, or the words make no sense. -/
inductive Stop where
  | version
  | help
  | invalid
  deriving DecidableEq, Repr

/-- The options and values found so far. A flag has an empty value. -/
structure Arguments where
  options : List (String × String)
  values : List String

namespace Arguments

def empty : Arguments := ⟨[], []⟩

def value? (a : Arguments) (long : String) : Option String := a.options.lookup long

def has (a : Arguments) (long : String) : Bool := (a.value? long).isSome

/-- Adds an option, which may be given once only. -/
def setOption (a : Arguments) (form : OptionForm) (value : String) : Except Stop Arguments :=
  if a.has form.long || (form.needsText && value.isEmpty) then .error .invalid
  else .ok { a with options := (form.long, value) :: a.options }

/-- Adds a value without a name. -/
def addValue (form : CommandForm) (a : Arguments) (value : String) : Except Stop Arguments :=
  match form.values[a.values.length]? with
  | none => .error .invalid
  | some (_, needsText) =>
    if needsText && value.isEmpty then .error .invalid
    else .ok { a with values := a.values ++ [value] }

/-- Options that ask for a text, with their letters. -/
def stops : List (OptionForm × Stop) := [(⟨"help", some 'h', false, false⟩, .help)]

/-- A word in letters, of which those after the hyphen are given. The option that it leaves without a
value is the second result. -/
def readLetters (form : CommandForm) (asking : List (OptionForm × Stop)) :
    Arguments → List Char → Except Stop (Arguments × Option OptionForm)
  | a, [] => .ok (a, none)
  | a, c :: rest =>
    match asking.find? fun x => x.1.short? = some c with
    | some (_, stop) => .error stop
    | none => match form.options.find? (·.short? = some c) with
      | none => .error .invalid
      | some o =>
        if !o.takesValue then do readLetters form asking (← a.setOption o "") rest
        else match rest with
          | [] => .ok (a, some o)
          | '=' :: value => return (← a.setOption o (String.ofList value), none)
          | value => return (← a.setOption o (String.ofList value), none)

/-- A word with a name, of which what follows the two hyphens is given. -/
def readName (form : CommandForm) (asking : List (OptionForm × Stop)) (a : Arguments)
    (word : List Char) : Except Stop (Arguments × Option OptionForm) :=
  let name := String.ofList (word.takeWhile (· ≠ '='))
  let value? := match word.dropWhile (· ≠ '=') with
    | _ :: value => some (String.ofList value)
    | [] => none
  match asking.find? (·.1.long = name), value? with
  | some (_, stop), none => .error stop
  | some _, some _ => .error .invalid
  | none, _ => match form.options.find? (·.long = name) with
    | none => .error .invalid
    | some o => match o.takesValue, value? with
      | true, some value => return (← a.setOption o value, none)
      | true, none => .ok (a, some o)
      | false, some _ => .error .invalid
      | false, none => return (← a.setOption o "", none)

/-- The words of a command after its name. A word that begins with a hyphen is never a value, unless
two hyphens stand before it by themselves. -/
def read (form : CommandForm) : Arguments → Option OptionForm → List String → Except Stop Arguments
  | a, none, [] => .ok a
  | _, some _, [] => .error .invalid
  | a, pending, word :: rest =>
    match word.toList, pending with
    | ['-', '-'], none => rest.foldlM (addValue form) a
    | '-' :: '-' :: _ :: _, none => do
      let (a, pending) ← readName form stops a (word.toList.drop 2)
      read form a pending rest
    | '-' :: _ :: _, none => do
      let (a, pending) ← readLetters form stops a (word.toList.drop 1)
      read form a pending rest
    | '-' :: _ :: _, some _ => .error .invalid
    | _, some o => do read form (← a.setOption o word) none rest
    | _, none => do read form (← addValue form a word) none rest

end Arguments

/-- What to do: check the schema, show its document, or show a search in it. -/
inductive Command where
  | check (settings : Settings)
  | model (settings : Settings)
  | query (settings : Settings) (root condition : String)

namespace Command

def verbose : OptionForm := ⟨"verbose", some 'v', false, false⟩

def language : OptionForm := ⟨"language", some 'l', true, false⟩

def skipValidation : OptionForm := ⟨"skip-validation", none, false, false⟩

def output : OptionForm := ⟨"output", some 'o', true, true⟩

def condition : OptionForm := ⟨"condition", some 'c', true, false⟩

def checkForm : CommandForm := ⟨[verbose, language, skipValidation], [(false, true)]⟩

def modelForm : CommandForm := ⟨[verbose, output, language, skipValidation], [(false, true)]⟩

def queryForm : CommandForm := ⟨[verbose, condition, language], [(true, true), (true, false)]⟩

/-- The condition that filters nothing. -/
def openCondition : String := "\x7b\x7d"

def settingsOf (a : Arguments) : Settings where
  directory := a.values.head?.getD Settings.defaultDirectory
  outFile? := a.value? output.long
  language := (a.value? language.long).getD Settings.defaultLanguage
  skipValidation := a.has skipValidation.long

/-- The words after the name of a command. -/
def readNamed (name : String) (words : List String) : Except Stop Command :=
  match name with
  | "check" => do
    return .check (settingsOf (← Arguments.read checkForm .empty none words))
  | "model" => do
    return .model (settingsOf (← Arguments.read modelForm .empty none words))
  | "query" => do
    let a ← Arguments.read queryForm .empty none words
    match a.values with
    | [_, root] => return .query (settingsOf a) root ((a.value? condition.long).getD openCondition)
    | _ => .error .invalid
  | "help" => match words with
    | [] => .error .help
    | [word] => .error (if word ∈ ["check", "model", "query", "help"] then .help else .invalid)
    | _ => .error .invalid
  | _ => .error .invalid

/-- What may stand before the name of a command. -/
def frontForm : CommandForm := ⟨[verbose], []⟩

def frontStops : List (OptionForm × Stop) :=
  (⟨"version", some 'V', false, false⟩, .version) :: Arguments.stops

def readFrom : Arguments → List String → Except Stop Command
  | _, [] => .error .invalid
  | a, word :: rest => match word.toList with
    | ['-', '-'] => .error .invalid
    | '-' :: '-' :: name => do
      readFrom (← Arguments.readName frontForm frontStops a name).1 rest
    | '-' :: c :: letters => do
      readFrom (← Arguments.readLetters frontForm frontStops a (c :: letters)).1 rest
    | _ => readNamed word rest

/-- The command that the words of a command line spell. -/
def read (words : List String) : Except Stop Command := readFrom .empty words

end Command

end AggregateSchema
