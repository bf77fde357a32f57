import AggregateSchema.CommandLine

/-! The program: it reads the files of a folder, runs a command on them, and prints the result. -/
namespace AggregateSchema

/-- The files at and below an address, in order of their names. A folder that cannot be read counts
as empty. -/
partial def readFiles (address : String) : IO (List (String × ByteArray)) := do
  try
    return [(address, ← IO.FS.readBinFile address)]
  catch _ =>
    try
      let names := (← (← IO.FS.realPath address).readDir).toList.map (·.fileName)
      return (← (names.mergeSort (· ≤ ·)).mapM fun n => readFiles (inFolder address n)).flatten
    catch _ => return []

def complain (message : String) : IO UInt32 := do
  IO.eprintln message
  return 1

def saveText (address text : String) : IO Unit := do
  let parent := parentAddress address
  if !parent.isEmpty then IO.FS.createDirAll parent
  IO.FS.writeFile address text

def runCommand (command : Command) : IO UInt32 := do
  let start ← IO.monoMsNow
  match command.run (← readFiles command.settings.directory) with
  | .error problem => complain problem.message
  | .ok result =>
    try
      if let .toSave schema file := result then saveText file schema.snapshot.pretty
      IO.print (result.text (toString ((← IO.monoMsNow) - start)))
      return 0
    catch e => complain (toString e)

end AggregateSchema

def main (words : List String) : IO UInt32 :=
  match AggregateSchema.Command.read words with
  | .error stop => do
    IO.print stop.text
    return stop.code.toUInt32
  | .ok command => AggregateSchema.runCommand command
