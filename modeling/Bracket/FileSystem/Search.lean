import Bracket.Environment
import Bracket.FileSystem.Local

/-!
# Search paths

A name is searched for (`search`) in several directories of the disk, one after the other: those
that were asked for, then the default ones of the environment.
-/

namespace Bracket.FileSystem

/-- Directories of the disk in a row, as seen from the working directory. -/
def ofRoots (workingDirectory : Bytes) (roots : List Bytes) : FileSystem Storage :=
  .layered (roots.map fun root => .ofRoot (Path.absolute workingDirectory root))

/-- The default roots of an environment. -/
def ofEnvironment (workingDirectory : Bytes) (env : Environment) : FileSystem Storage :=
  .ofRoots workingDirectory env.defaultRoots

/-- The given roots, then the default ones. -/
def search (workingDirectory : Bytes) (env : Environment) (roots : List Bytes) :
    FileSystem Storage :=
  .layered (roots.map (fun root => .ofRoot (Path.absolute workingDirectory root)) ++
    [.ofEnvironment workingDirectory env])

end Bracket.FileSystem
