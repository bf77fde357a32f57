import AggregateSchema.Text.Split

/-! A tree of files and folders, addressed by texts with slashes. -/
namespace AggregateSchema

/-- A file with its bytes, or a folder with its entries, sorted by name. -/
inductive Entry where
  | file (content : ByteArray)
  | folder (entries : List (String × Entry))

/-- Why a file cannot be read or written. -/
inductive StorageProblem where
  | notFound
  | alreadyExists
  | notFolder
  | isFolder
  | nameTooLong
  | nulByte
  | notText
  deriving DecidableEq, Repr

def StorageProblem.message : StorageProblem → String
  | notFound => "No such file or directory (os error 2)"
  | alreadyExists => "File exists (os error 17)"
  | notFolder => "Not a directory (os error 20)"
  | isFolder => "Is a directory (os error 21)"
  | nameTooLong => "File name too long (os error 36)"
  | nulByte => "file name contained an unexpected NUL byte"
  | notText => "stream did not contain valid UTF-8"

/-- The parts of an address between its slashes. -/
def addressParts (address : String) : List String :=
  (Text.split '/' address.toList).map String.ofList

/-- The most bytes that an address may have. -/
def addressLimit : Nat := 4095

/-- A name has at most 255 bytes. -/
def isLongName (name : String) : Bool := name.utf8ByteSize > 255

/-- What is wrong with an address in every tree. One that begins with a slash lies outside, and only the
folder at the top is known to be there. -/
def addressProblem? (address : String) : Option StorageProblem :=
  if address.isEmpty then some .notFound
  else if '\x00' ∈ address.toList then some .nulByte
  else if address.utf8ByteSize > addressLimit then some .nameTooLong
  else if address.toList.head? = some '/' then
    some (if (addressParts address).all (· ∈ ["", ".", ".."]) then .isFolder else .notFound)
  else none

/-- The address of a name in a folder. -/
def inFolder (folder name : String) : String :=
  if folder.isEmpty || folder.toList.getLast? = some '/' then folder ++ name
  else folder ++ "/" ++ name

/-- An address in reverse without the slashes, and the dots after slashes, at its end. -/
def dropTrailing : List Char → List Char
  | '/' :: rest => dropTrailing rest
  | '.' :: '/' :: rest => dropTrailing rest
  | cs => cs

/-- The address of the folder that holds the entry at an address. -/
def parentAddress (address : String) : String :=
  let reversed := dropTrailing address.toList.reverse
  String.ofList (dropTrailing (reversed.dropWhile (· ≠ '/'))).reverse

namespace Entry

def empty : Entry := folder []

/-- Sets one entry of a folder. -/
def setEntry (name : String) (e : Entry) : List (String × Entry) → List (String × Entry)
  | [] => [(name, e)]
  | (n, x) :: rest =>
    if name < n then (name, e) :: (n, x) :: rest
    else if name = n then (name, e) :: rest
    else (n, x) :: setEntry name e rest

/-- The entry reached through the given names. -/
def get? : Entry → List String → Option Entry
  | e, [] => some e
  | folder entries, name :: names => (entries.lookup name).bind fun e => get? e names
  | file _, _ :: _ => none

/-- Puts an entry under the given names, with folders above it where there is nothing. -/
def put (new : Entry) : List String → Entry → Entry
  | [], _ => new
  | name :: names, folder entries =>
    folder (setEntry name (put new names ((entries.lookup name).getD empty)) entries)
  | _ :: _, file content => file content

/-- The names that lead to what some parts of an address stand for, from the entry under `here`. Only
a folder has parts below it. -/
def resolveFrom (root : Entry) (here : List String) : List String → Except StorageProblem (List String)
  | [] => .ok here
  | part :: rest => match root.get? here with
    | none => .error .notFound
    | some (file _) => .error .notFolder
    | some (folder entries) =>
      if part = "" ∨ part = "." then resolveFrom root here rest
      else if part = ".." then resolveFrom root here.dropLast rest
      else if isLongName part then .error .nameTooLong
      else if (entries.lookup part).isSome then resolveFrom root (here ++ [part]) rest
      else .error .notFound

/-- The names that lead to what an address stands for. -/
def resolve (root : Entry) (address : String) : Except StorageProblem (List String) :=
  match addressProblem? address with
  | some problem => .error problem
  | none => resolveFrom root [] (addressParts address)

def find (root : Entry) (address : String) : Except StorageProblem Entry := do
  match root.get? (← root.resolve address) with
  | some e => .ok e
  | none => .error .notFound

mutual
/-- The files of an entry with their addresses, in order of their names. -/
def filesAt (address : String) : Entry → List (String × ByteArray)
  | file content => [(address, content)]
  | folder entries => filesIn address entries

def filesIn (address : String) : List (String × Entry) → List (String × ByteArray)
  | [] => []
  | (name, e) :: rest => filesAt (inFolder address name) e ++ filesIn address rest
end

/-- The files at and below an address; where there is nothing there are no files. Files whose own
addresses have too many bytes are not reached. -/
def files (root : Entry) (address : String) : List (String × ByteArray) :=
  match root.find address with
  | .ok e => (filesAt address e).filter fun f => f.1.utf8ByteSize ≤ addressLimit
  | .error _ => []

def readText (root : Entry) (address : String) : Except StorageProblem String := do
  match ← root.find address with
  | folder _ => .error .isFolder
  | file content => match String.fromUTF8? content with
    | some text => .ok text
    | none => .error .notText

/-- Adds a folder under the names that some parts of an address stand for. A part that leads upwards
names a folder that exists. -/
def makeFolder (root : Entry) (above : List String) (name : String) : Except StorageProblem Entry := do
  let here ← root.resolveFrom [] above
  match root.get? here with
  | some (folder entries) =>
    if name = ".." then .ok root
    else if isLongName name then .error .nameTooLong
    else match entries.lookup name with
      | some (folder _) => .ok root
      | some (file _) => .error .alreadyExists
      | none => .ok (put empty (here ++ [name]) root)
  | some (file _) => .error .notFolder
  | none => .error .notFound

/-- Adds the folder at an address, given by its names in reverse. Only where something above it is
missing, that is added first, and what keeps it from being added is the problem. -/
def makeFoldersFrom (root : Entry) : List String → Except StorageProblem Entry
  | [] => .ok root
  | name :: above =>
    match root.makeFolder above.reverse name with
    | .error .notFound => do (← makeFoldersFrom root above).makeFolder above.reverse name
    | result => result

def makeFolders (root : Entry) (address : String) : Except StorageProblem Entry :=
  match addressProblem? address with
  | some problem => .error problem
  | none => root.makeFoldersFrom ((addressParts address).filter fun p => p ≠ "" ∧ p ≠ ".").reverse

/-- Writes a file into an existing folder. An address that ends with a slash or with dots alone is a
folder's. -/
def write (root : Entry) (address : String) (content : ByteArray) : Except StorageProblem Entry :=
  match addressProblem? address with
  | some problem => .error problem
  | none =>
    let parts := addressParts address
    match parts.reverse.dropWhile (· = "") with
    | [] => .error .notFound
    | name :: above => do
      let here ← root.resolveFrom [] above.reverse
      match root.get? here with
      | some (folder entries) =>
        if name = "." ∨ name = ".." ∨ parts.getLast? = some "" then .error .isFolder
        else if isLongName name then .error .nameTooLong
        else match entries.lookup name with
          | some (folder _) => .error .isFolder
          | _ => .ok (put (file content) (here ++ [name]) root)
      | some (file _) => .error .notFolder
      | none => .error .notFound

end Entry

end AggregateSchema
