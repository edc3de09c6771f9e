import Bracket.Input.File

/-!
# File systems

A file system turns a name into files and stores content under a name. Both may change its state,
which is left open here: it may be a disk, a history of accesses, or nothing at all.

Several file systems in a row (`layered`) answer as one: the first that knows a name answers for it.
Nothing can be written to such a row, because nothing says which of them is meant.
-/

namespace Bracket

/-! ## Files -/

/-- A file that can be opened again and again. -/
structure File (σ : Type) where
  path : Bytes
  kind : FileKind
  /-- Opens the file at its first byte. -/
  access : σ → Except Failure Device × σ

namespace File

variable {σ : Type}

/-- A file that holds the given bytes. -/
def ofContent (path : Bytes) (kind : FileKind) (content : Bytes) : File σ :=
  ⟨path, kind, fun s => (.ok (.ofContent content), s)⟩

/-- Opens the body of a file. -/
def body (file : File σ) (s : σ) : Except Failure Body × σ :=
  match file.access s with
  | (opened, s) => (Body.ofOpened file.path opened, s)

end File

/-! ## File systems -/

/-- What answers for names. -/
structure FileSystem (σ : Type) where
  /-- The files that a name stands for. -/
  resolve : Bytes → σ → Except Failure (List (File σ)) × σ
  /-- Stores content under a name, and gives the failure if there is one. -/
  write : (uri content : Bytes) → σ → Option Failure × σ

namespace FileSystem

variable {σ : Type}

/-- No file system knows the name. -/
def unresolved (uri : Bytes) : Diagnosis :=
  .new (.ofUri uri) .fileNotFound
    (bytes "could not open " ++ uri ++ bytes " from any file system")

/-- A row of file systems is not written to. -/
def unwritable (uri : Bytes) : Diagnosis :=
  .new (.ofUri uri) .unsupportedOperation (bytes "cannot write to a composite file system")

/-- The answer of the first file system that knows the name. -/
def resolveFirst (uri : Bytes) : List (FileSystem σ) → σ → Except Failure (List (File σ)) × σ
  | [], s => (.error (unresolved uri).toFailure, s)
  | fs :: rest, s =>
    match fs.resolve uri s with
    | (.ok files, s) => (.ok files, s)
    | (.error _, s) => resolveFirst uri rest s

/-- File systems in a row, tried in order. -/
def layered (layers : List (FileSystem σ)) : FileSystem σ where
  resolve uri s := resolveFirst uri layers s
  write uri _ s := (some (unwritable uri).toFailure, s)

end FileSystem

end Bracket
