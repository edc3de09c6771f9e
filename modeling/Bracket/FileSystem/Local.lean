import Bracket.FileSystem
import Bracket.FileSystem.Volume
import Bracket.Target

/-!
# Local file systems

A local file system finds files in a volume (`Volume.resolve`) and writes to a directory of the disk
(`Disk.write`), its root. A name is a path or a URI, of which only the path counts; it cannot lead
out of the root, because the path is made clean before the root is put in front.

A file answers for itself. A directory answers for those of its entries that are files and pass a
filter, by default the sources (`isSource`), in order of their names. It does not answer for what is
further below.
-/

namespace Bracket

namespace Volume

variable {σ : Type}

/-- The name by which a volume knows a rooted path. -/
def nameOf (path : Bytes) : Bytes :=
  match path.dropWhile (· == Path.separator) with
  | [] => Path.here
  | name => name

/-- The file of a volume with the given name. -/
def file (volume : Volume σ) (path name : Bytes) : File σ where
  path := path
  kind := Target.kindOf name
  access s :=
    match volume.look name s with
    | (opened, s) => (opened.map (·.device), s)

def entryName (directory : Bytes) (entry : Entry) : Bytes := Path.join [directory, entry.name]

def entryFile (volume : Volume σ) (directory : Bytes) (entry : Entry) : File σ :=
  let name := entryName directory entry
  volume.file (Path.join [[Path.separator], name]) name

/-- The entries that a directory answers for. -/
def selected (accepts : Bytes → Bool) (entries : List Entry) : List Entry :=
  (entries.mergeSort fun a b => Bytes.le a.name b.name).filter fun entry =>
    !entry.isDirectory && accepts entry.name

/-- The files that an open directory answers for. -/
def expand (volume : Volume σ) (accepts : Bytes → Bool) (path name : Bytes) (handle : Handle) :
    Except Failure (List (File σ)) :=
  match handle.entries? with
  | none =>
    .error (Diagnosis.new (.ofUri path) .unsupportedOperation
      (bytes "cannot list directory " ++ path)).toFailure
  | some (.error f) => .error (Diagnosis.ofAccess name f).toFailure
  | some (.ok entries) =>
    match selected accepts entries with
    | [] =>
      .error (Diagnosis.new (.ofUri path) .fileNotFound
        (bytes "found directory " ++ path ++ bytes " but it has no sources")).toFailure
    | entries => .ok (entries.map (volume.entryFile name))

/-- The files that a name stands for. -/
def resolve (volume : Volume σ) (accepts : Bytes → Bool) (uri : Bytes) (s : σ) :
    Except Failure (List (File σ)) × σ :=
  let path := Target.path uri
  let name := nameOf path
  match volume.look name s with
  | (.error f, s) => (.error (Diagnosis.ofAccess name f).toFailure, s)
  | (.ok handle, s) =>
    match handle.isDirectory with
    | .error f => (.error (Diagnosis.ofAccess name f).toFailure, s)
    -- a file is not opened again until it is read
    | .ok false => (.ok [volume.file path name], s)
    | .ok true => (volume.expand accepts path name handle, s)

end Volume

/-- Writes to a path of the disk, and makes the directories on the way to it. -/
def Disk.write (d : Disk) (path content : Bytes) : Option Failure × Disk :=
  let directory := Path.directory path
  match d.makeDirectories [] (Path.cleanElements directory) with
  | (some f, d) => (some (Diagnosis.ofAccess directory f).toFailure, d)
  | (none, d) =>
    match d.writeFile path content with
    | .error f => (some (Diagnosis.ofAccess path f).toFailure, d)
    | .ok d => (none, d)

namespace FileSystem

def isSource (name : Bytes) : Bool := Target.kindOf name != .none

/-- The path on the disk that a name is written to. -/
def placeOf (root uri : Bytes) : Bytes := Path.join [root, Target.path uri]

/-- The local file system that finds files in a volume and writes below a root. -/
def ofVolume (root : Bytes) (accepts : Bytes → Bool) (volume : Volume Storage) :
    FileSystem Storage where
  resolve := volume.resolve accepts
  write uri content s :=
    match s.disk.write (placeOf root uri) content with
    | (failure?, disk) => (failure?, { s with disk })

/-- The local file system of a directory of the disk. -/
def ofRoot (root : Bytes) : FileSystem Storage := ofVolume root isSource (.ofDisk root)

end FileSystem

end Bracket
