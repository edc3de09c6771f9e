import Bracket.FileSystem.Local

/-!
# Where an image is written to

An image is printed, or written to a file (`Output.write`). The name of the file inside its
directory is handed to the local file system of that directory as any other name, that is, as a
reference: escapes in it are resolved, and a query or a fragment does not count.
-/

namespace Bracket

/-- What came of writing: what was printed, the failure if there is one, and the disk. -/
structure Written where
  printed : Bytes
  failure? : Option Failure
  storage : Storage
  deriving Repr, Inhabited

namespace Output

/-- The name that stands for printing. -/
def printing : Bytes := bytes "-"

/-- Writes content to a file, as seen from the working directory, or prints it. -/
def write (workingDirectory output content : Bytes) (s : Storage) : Written :=
  if output = printing then ⟨content, none, s⟩
  else
    let path := Path.absolute workingDirectory output
    match (FileSystem.ofRoot (Path.directory path)).write (Path.base path) content s with
    | (failure?, s) => ⟨[], failure?, s⟩

end Output

end Bracket
