import Bracket.CommandLine.Places
import Std.Time.Format

/-!
# The program

The program reads what matters to the command from the disk of the host, runs the command, writes
the files that the command has changed, and prints what is to be printed. All decisions are the
command's.
-/

namespace Bracket.Host

/-- The text of a path, which the host can only be asked for if it is valid. -/
def textOf? (path : Bytes) : Option String := String.fromUTF8? ⟨path.toArray⟩

/-- Everything that stands at a path of the host, with the names of its entries. -/
def probe (path : Bytes) : IO (Option (Node × List Bytes)) := do
  match textOf? path with
  | none => return none
  | some text =>
    try
      let entries ← (← IO.FS.realPath text).readDir
      return some (.directory, entries.toList.map fun entry => bytes entry.fileName)
    catch _ =>
      try
        let content ← IO.FS.readBinFile text
        return some (.file content.data.toList, [])
      catch _ => return none

/-- Copies a place of the host to the disk, and gives the names of its entries. -/
def copy (d : Disk) (place : List Bytes) : IO (Disk × List Bytes) := do
  match ← probe (Path.ofElements true place) with
  | some (node, names) => return (if place = [] then d else d.put place node, names)
  | none => return (d, [])

/-- Copies a path of the host with everything on the way to it, and the sources inside it. -/
def load (d : Disk) (path : Bytes) : IO Disk := do
  let place := Path.cleanElements path
  let mut disk := d
  for n in List.range place.length do
    disk := (← copy disk (place.take n)).1
  let (copied, names) ← copy disk place
  disk := copied
  for name in names do
    if FileSystem.isSource name then disk := (← copy disk (place ++ [name])).1
  return disk

/-- The variables that matter to the default roots. -/
def environment : IO Environment := do
  let listed := ((← IO.getEnv "XDG_DATA_DIRS").map bytes).getD []
  let mut env : Environment := [(Environment.dataDirectories, listed)]
  let roots := (Bytes.splitOn 0x3A listed).map (Path.join [·, Environment.programDirectory])
  for name in roots.flatMap Environment.namesIn do
    match textOf? name with
    | some text =>
      match ← IO.getEnv text with
      | some value => env := env ++ [(name, bytes value)]
      | none => pure ()
    | none => pure ()
  return env

/-- How the program was called. -/
def invocation (arguments : List String) : IO CommandLine.Invocation := do
  return {
    arguments := arguments.map bytes
    environment := ← environment
    workingDirectory := bytes (← IO.currentDir).toString
    time := bytes ((← Std.Time.PlainDateTime.now).format "uuuu-MM-dd'T'HH:mm:ss.SSS")
  }

/-- Writes the files that have changed. -/
def store (earlier later : Disk) : IO Unit := do
  for (place, content) in later.files do
    if earlier.node? place ≠ some (.file content) then
      match textOf? (Path.ofElements true place.dropLast), textOf? (Path.ofElements true place) with
      | some directory, some path =>
        IO.FS.createDirAll directory
        IO.FS.writeBinFile path ⟨content.toArray⟩
      | _, _ => pure ()

/-- Writes bytes to a stream. -/
def print (stream : IO.FS.Stream) (text : Bytes) : IO Unit := do
  stream.write ⟨text.toArray⟩
  stream.flush

end Bracket.Host

/-- Runs the command on the host. -/
def main (arguments : List String) : IO UInt32 := do
  let call ← Bracket.Host.invocation arguments
  let mut disk := Bracket.Disk.empty
  for path in Bracket.CommandLine.places call do
    disk ← Bracket.Host.load disk path
  let ending := Bracket.CommandLine.run call disk
  Bracket.Host.store disk ending.disk
  Bracket.Host.print (← IO.getStdout) ending.output
  Bracket.Host.print (← IO.getStderr) ending.errors
  return ending.exit.toUInt32
