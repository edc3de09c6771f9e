import Bracket.Failure
import Bracket.Path

/-!
# Disks

A disk holds files and directories at places. A place is the list of the names that lead to it from
the root, which is always a directory. Paths are followed name by name (`find`): every name but the
last has to stand for a directory, no name is longer than 255 bytes, and no path is longer than 4095
bytes or holds a zero byte.

Writing (`writeFile`) replaces the whole content of a file, and creates it if it is not there yet.
-/

namespace Bracket

/-- What stands at a place. -/
inductive Node where
  | file (content : Bytes)
  | directory
  deriving DecidableEq, Repr, Inhabited

def Node.isDirectory : Node → Bool
  | .file _ => false
  | .directory => true

/-- The files and directories below the root, each place at most once. -/
structure Disk where
  nodes : List (List Bytes × Node)
  deriving Repr, Inhabited

namespace Disk

/-! ## Reasons to refuse a path -/

/-- Nothing stands at the path. -/
def missing : Failure := .plain .notExist (bytes "no such file or directory")

/-- The path goes through something that is no directory. -/
def notDirectory : Failure := .ofText (bytes "not a directory")

/-- Something that is no directory stands where one is to be made. -/
def occupied : Failure := .ofText (bytes "file exists")

/-- The path leads to a directory where a file is needed. -/
def isDirectory : Failure := .ofText (bytes "is a directory")

def tooLong : Failure := .ofText (bytes "file name too long")

/-- The path cannot be a path. -/
def invalid : Failure := .ofText (bytes "invalid argument")

def nameLimit : Nat := 255

def pathLimit : Nat := 4095

/-! ## Looking -/

def empty : Disk := ⟨[]⟩

/-- What stands at a place. -/
def node? (d : Disk) (place : List Bytes) : Option Node :=
  if place = [] then some .directory else List.lookup place d.nodes

/-- Follows names from a place. -/
def follow (d : Disk) (place : List Bytes) : List Bytes → Except Failure Node
  | [] =>
    match d.node? place with
    | some node => .ok node
    | none => .error missing
  | name :: rest =>
    match d.node? place with
    | none => .error missing
    | some (.file _) => .error notDirectory
    | some .directory =>
      if nameLimit < name.length then .error tooLong else d.follow (place ++ [name]) rest

/-- What stands at the end of a path, or why it cannot be reached. -/
def find (d : Disk) (path : Bytes) : Except Failure Node :=
  if path.contains 0 then .error invalid
  else if pathLimit < path.length then .error tooLong
  else d.follow [] (Path.cleanElements path)

/-- The name and node of everything directly inside a directory. -/
def children (d : Disk) (place : List Bytes) : List (Bytes × Node) :=
  d.nodes.filterMap fun (p, node) =>
    match p.getLast? with
    | some name => if p.dropLast = place then some (name, node) else none
    | none => none

/-- The files of a disk with their places. -/
def files (d : Disk) : List (List Bytes × Bytes) :=
  d.nodes.filterMap fun (place, node) =>
    match node with
    | .file content => some (place, content)
    | .directory => none

/-! ## Changing -/

def put (d : Disk) (place : List Bytes) (node : Node) : Disk :=
  ⟨(place, node) :: d.nodes.filter (·.1 ≠ place)⟩

/-- How a directory is called while it is made: a directory on the way to another one has a slash
behind its name. -/
def directoryPath (place rest : List Bytes) : Bytes :=
  Path.ofElements true place ++ if rest = [] then [] else [Path.separator]

/-- Why no directory can be made where a file stands, at the end or on the way. -/
def obstacle (rest : List Bytes) : Failure := if rest = [] then notDirectory else occupied

/-- Makes sure that there is a directory at each place from `place` along the names. What was made
before a failure stays. -/
def makeDirectories (d : Disk) (place : List Bytes) : List Bytes → Option Failure × Disk
  | [] => (none, d)
  | name :: rest =>
    let place := place ++ [name]
    let path := directoryPath place rest
    match d.find path with
    | .ok .directory => d.makeDirectories place rest
    | .ok (.file _) => (some (.atPath (bytes "mkdir") path (obstacle rest)), d)
    | .error f =>
      -- missing directories are made on the way
      if f.hasClass .notExist then (d.put place .directory).makeDirectories place rest
      else (some (.atPath (bytes "mkdir") path f), d)

/-- There is a directory for the last name of a path. -/
def hasParent (d : Disk) (place : List Bytes) : Bool :=
  d.node? place.dropLast == some .directory

/-- Writes a file whose directory is there. -/
def writeFile (d : Disk) (path content : Bytes) : Except Failure Disk :=
  let place := Path.cleanElements path
  match d.find path with
  | .ok .directory => .error (.atPath (bytes "open") path isDirectory)
  | .ok (.file _) => .ok (d.put place (.file content))
  | .error f =>
    -- only the file itself may be missing, not its directory
    if f.hasClass .notExist && d.hasParent place then .ok (d.put place (.file content))
    else .error (.atPath (bytes "open") path f)

end Disk

end Bracket
