import Bracket.FileSystem.Volume

/-!
# Volumes in memory

A volume may be a table of names. Directories need no entry of their own: a name with slashes
implies its directories, and the tree itself is always there.

Names of such a volume may be in trouble (`Trouble`). Opening them may fail after a number of times,
and what is opened may be unable to tell what it is, to list its entries, to deliver its bytes or to
close.
-/

namespace Bracket

/-- A table of names. -/
structure Memory where
  nodes : List (Bytes × Node)
  deriving Repr, Inhabited

namespace Memory

def missing : Failure := .plain .notExist (bytes "file does not exist")

/-- The rest of a name behind a directory's own name and a slash. -/
def below? (directory name : Bytes) : Option Bytes :=
  if directory = Path.here then if name = Path.here then none else some name
  else
    let stem := directory ++ [Path.separator]
    if stem.isPrefixOf name then some (name.drop stem.length) else none

/-- The entries of a directory, named and implied. -/
def entries (m : Memory) (directory : Bytes) : List Entry :=
  let inside := m.nodes.filterMap fun (name, node) =>
    (below? directory name).map fun rest => (rest, node)
  let named := inside.filter fun (rest, _) => !rest.contains Path.separator
  -- the first elements of names further below
  let implied := inside.filterMap fun (rest, _) =>
    (Bytes.cut Path.separator rest).map fun (first, _) => first
  named.map (fun (name, node) => ⟨name, node.isDirectory⟩) ++
    ((implied.filter fun first => !(named.map (·.1)).contains first).eraseDups.map
      fun first => ⟨first, true⟩)

def openDirectory (m : Memory) (name : Bytes) : Handle :=
  .ofDirectory (m.entries name) (.atPath (bytes "read") name Disk.invalid)

def look (m : Memory) (name : Bytes) : Except Failure Handle :=
  let absent : Except Failure Handle := .error (.atPath (bytes "open") name missing)
  if isVolumeName name then
    match List.lookup name m.nodes with
    | some (.file content) => .ok (.ofFile (.ofContent content))
    | some .directory => .ok (m.openDirectory name)
    | none =>
      if name = Path.here ∨ m.entries name ≠ [] then .ok (m.openDirectory name) else absent
  else absent

end Memory

/-! ## Trouble -/

/-- How a name misbehaves. -/
structure Trouble where
  /-- Opening, reading and closing. -/
  faults : Faults
  /-- It cannot tell whether it is a directory. -/
  identifying : Option Failure
  /-- Listing its entries fails. -/
  listing : Option Failure
  /-- It has no way to list its entries. -/
  unlistable : Bool
  deriving Repr, Inhabited

namespace Trouble

/-- A name that behaves. -/
def none : Trouble := ⟨.none, .none, .none, false⟩

/-- What misbehaves about a handle. -/
def apply (t : Trouble) (handle : Handle) : Handle where
  isDirectory :=
    match t.identifying with
    | some f => .error f
    | .none => handle.isDirectory
  entries? :=
    if t.unlistable then .none
    else
      match t.listing with
      | some f => handle.entries?.map fun _ => .error f
      | .none => handle.entries?
  device :=
    { handle.device with
      breakdown := t.faults.reading <|> handle.device.breakdown
      chunk := t.faults.chunk
      closing := t.faults.closing }

end Trouble

/-- A table of names as a volume. Opening a name counts even if it fails. -/
def Volume.ofMemory (number : Nat) (m : Memory) (troubles : List (Bytes × Trouble)) :
    Volume Storage where
  look name s :=
    let trouble := (List.lookup name troubles).getD .none
    let times := s.opened.count (number, name)
    let s := { s with opened := (number, name) :: s.opened }
    match trouble.faults.openFailure? times with
    | some f => (.error f, s)
    | none => ((m.look name).map trouble.apply, s)

end Bracket
