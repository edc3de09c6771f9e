import Bracket.FileSystem.Disk
import Bracket.Input.File
import Bracket.Utf8

/-!
# Volumes

A volume is a tree of names that can be opened. Its names have no slash in front; the tree itself is
called `.`. What is opened (`Handle`) can be asked whether it is a directory, it may be able to list
its entries, and it delivers bytes. A volume is a directory of a disk (`Disk.look`), or something
that behaves like one.
-/

namespace Bracket

structure Entry where
  name : Bytes
  isDirectory : Bool
  deriving DecidableEq, Repr, Inhabited

/-- A name that was opened. -/
structure Handle where
  /-- Whether it is a directory. -/
  isDirectory : Except Failure Bool
  /-- Its entries, if it is able to list them at all. -/
  entries? : Option (Except Failure (List Entry))
  /-- Its bytes. -/
  device : Device

namespace Handle

def ofFile (device : Device) : Handle := ⟨.ok false, none, device⟩

/-- An open directory, which delivers nothing but a failure. -/
def ofDirectory (entries : List Entry) (reading : Failure) : Handle :=
  ⟨.ok true, some (.ok entries), ⟨[], some (0, .fail reading), none, none⟩⟩

end Handle

/-- A tree of names. -/
structure Volume (σ : Type) where
  look : Bytes → σ → Except Failure Handle × σ

/-! ## Names -/

/-- An element that can stand in the name of a file. -/
def isProperElement (element : Bytes) : Bool :=
  !(element == [] || element == Path.here || element == Path.parent)

/-- A name that a volume can be asked for: valid text, and no empty or dotted elements unless it is
the name of the tree itself. -/
def isVolumeName (name : Bytes) : Bool :=
  Utf8.isValid name && (name == Path.here || (Path.elements name).all isProperElement)

/-! ## Disks as volumes -/

/-- The path of a name below a directory. It is put together as text: a slash goes between the two
unless the directory ends in one. -/
def Disk.pathBelow (root name : Bytes) : Bytes :=
  if root.getLast? = some Path.separator then root ++ name else root ++ Path.separator :: name

/-- Opens a name below a directory of a disk. The name of the tree itself stands for a directory: it
does not open a file in the place of the root. -/
def Disk.look (d : Disk) (root name : Bytes) : Except Failure Handle :=
  let refuse (reason : Failure) : Except Failure Handle :=
    .error (.atPath (bytes "open") name reason)
  if isVolumeName name then
    let path := Disk.pathBelow root name
    match d.find path with
    | .error reason => refuse reason
    | .ok (.file content) =>
      if name = Path.here then refuse Disk.notDirectory else .ok (.ofFile (.ofContent content))
    | .ok .directory =>
      let entries := (d.children (Path.cleanElements path)).map fun (name, node) =>
        (⟨name, node.isDirectory⟩ : Entry)
      .ok (.ofDirectory entries (.atPath (bytes "read") path Disk.isDirectory))
  else refuse Disk.invalid

/-- The disk that everything is written to, and which troubled names were opened, each with the
number of the volume it belongs to. -/
structure Storage where
  disk : Disk
  opened : List (Nat × Bytes)
  deriving Repr, Inhabited

def Volume.ofDisk (root : Bytes) : Volume Storage where
  look name s := (s.disk.look root name, s)

end Bracket
