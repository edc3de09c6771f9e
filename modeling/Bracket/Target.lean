import Bracket.Input.File
import Bracket.Path
import Bracket.Reference

/-!
# Targets

A target names what is to be compiled, as a file path or as a URI. `normalize` brings paths and file
URIs into the rooted, clean form that serves as the name of a module, and `path` reads such a name
once more when it is opened. Any other URI is left alone for some file system that knows it.
-/

namespace Bracket.Target

/-- The rooted, clean form of a path. -/
def rooted (path : Bytes) : Bytes := Path.clean (Path.join [[Path.separator], path])

/-- The name under which a target is opened and compiled. -/
def normalize (target : Bytes) : Bytes :=
  match Reference.parse? target with
  | none => target
  | some reference =>
    -- without a scheme the text itself is the path: its escapes stay
    if reference.scheme = [] then rooted target
    else if reference.scheme = bytes "file" then rooted reference.path
    else target

/-- The path that a local file system opens for a name. -/
def path (uri : Bytes) : Bytes :=
  match Reference.parse? uri with
  | none => rooted uri
  -- here escapes are replaced, whatever the scheme is
  | some reference => rooted reference.path

/-- The kind of a file by its extension. -/
def kindOf (path : Bytes) : FileKind :=
  let extension := Path.extension path
  if extension = bytes ".bf" ∨ extension = bytes ".b" then .brainfuck else .none

end Bracket.Target
