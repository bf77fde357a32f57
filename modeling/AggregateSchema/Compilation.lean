import AggregateSchema.Failure
import AggregateSchema.Snapshot
import AggregateSchema.Source
import AggregateSchema.Storage
import AggregateSchema.Validation

/-! From schema files to a schema and the document that describes it. -/
namespace AggregateSchema

/-- What is read, how, and where the result goes. -/
structure Settings where
  directory : String
  outFile? : Option String
  language : String
  skipValidation : Bool
  deriving DecidableEq, Repr

namespace Settings

def defaultDirectory : String := "schema"

def defaultLanguage : String := "xml"

def standard : Settings := ⟨defaultDirectory, none, defaultLanguage, false⟩

end Settings

/-- The languages in which schemas are written. -/
inductive Language where
  | xml
  deriving DecidableEq, Repr

namespace Language

def name : Language → String
  | xml => "xml"

/-- The endings of the files in a language. -/
def extensions : Language → List String
  | xml => ["xml"]

def ofName (name : String) : Except Failure Language :=
  if name = xml.name then .ok xml else .error (.unsupportedLanguage name)

end Language

/-- The name of the file at an address. -/
def fileName (address : String) : String :=
  ((addressParts address).filter fun p => p ≠ "" ∧ p ≠ ".").getLast?.getD ""

/-- The ending of a file's name: what follows its last point, if something precedes that. -/
def extension? (name : String) : Option String :=
  let reversed := name.toList.reverse
  match reversed.dropWhile (· ≠ '.') with
  | '.' :: _ :: _ => some (String.ofList (reversed.takeWhile (· ≠ '.')).reverse)
  | _ => none

def Language.reads (l : Language) (address : String) : Bool :=
  (extension? (fileName address)).any (· ∈ l.extensions)

namespace Source

/-- The same source with the file named before each of its problems. -/
def underFile (s : Source) (file : String) : Source :=
  { s with report := .ofList (s.report.messages.map fun m => file ++ ": " ++ m) }

/-- Reads files in order. One that is no text ends it. -/
def ofFiles : List (String × ByteArray) → Except Failure Source
  | [] => .ok .empty
  | (file, content) :: rest =>
    match String.fromUTF8? content with
    | none => .error (.unreadable file StorageProblem.notText.message)
    | some text => do return (Source.ofDocument text).underFile file ++ (← ofFiles rest)

/-- Reads the schema files among the given ones, of which there has to be one. -/
def ofDirectory (language : Language) (directory : String) (files : List (String × ByteArray)) :
    Except Failure Source := do
  let s ← ofFiles (files.filter fun f => language.reads f.1)
  if s.files = 0 then .error (.noSchemaFiles directory) else .ok s

/-- Reads one file, in which nothing may be wrong. -/
def ofFile (storage : Entry) (address : String) : Except Failure Draft :=
  match storage.readText address with
  | .error p => .error (.unreadable address p.message)
  | .ok text =>
    let s := Source.ofDocument text
    (s.report.toExcept s.draft).mapError (.malformedFile address)

end Source

namespace Settings

/-- The schema of the given files, with its rules checked unless that is to be skipped. -/
def load (settings : Settings) (registry : TypeRegistry) (files : List (String × ByteArray)) :
    Except Failure Schema := do
  let language ← Language.ofName settings.language
  let source ← Source.ofDirectory language settings.directory files
  let schema ← (source.resolve registry).mapError .invalidSchema
  if settings.skipValidation then return schema
  match schema.validate with
  | .ok _ => return schema
  | .error ps => .error (.invalidSchema (.ofList (ps.map DesignProblem.message)))

end Settings

/-- Writes a text file, with the folders above it. -/
def Entry.save (storage : Entry) (address text : String) : Except Failure Entry := do
  let parent := parentAddress address
  let storage ←
    if parent.isEmpty then .ok storage
    else (storage.makeFolders parent).mapError fun p => .unwritable parent p.message
  (storage.write address text.toUTF8).mapError fun p => .unwritable address p.message

/-- Loads a schema from a storage and writes its document there, if it is to go somewhere. -/
def Settings.compile (settings : Settings) (registry : TypeRegistry) (storage : Entry) :
    Except Failure (Schema × Entry) := do
  let schema ← settings.load registry (storage.files settings.directory)
  match settings.outFile? with
  | some file => return (schema, ← storage.save file schema.snapshot.pretty)
  | none => return (schema, storage)

end AggregateSchema
