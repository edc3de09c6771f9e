import Bracket.Bytes

/-!
# Paths

Slash-separated paths, treated as text: nothing here looks at a file system. The clean form of a
path (`clean`) has no empty and no `.` elements, and `..` elements only at the front of a path that
is not rooted.
-/

namespace Bracket.Path

/-- The byte between the elements of a path. -/
def separator : UInt8 := 0x2F

/-- The element that stands for the directory itself. -/
def here : Bytes := bytes "."

/-- The element that stands for the parent directory. -/
def parent : Bytes := bytes ".."

/-- The path starts at the root. -/
def isRooted (path : Bytes) : Bool := path.head? == some separator

/-- The elements of a path between its slashes, empty ones included. -/
def elements (path : Bytes) : List Bytes := Bytes.splitOn separator path

/-- Adds an element to the clean elements before it, given last first. A parent element takes away
the element before it; at the root there is nothing to take away. -/
def push (rooted : Bool) (before : List Bytes) (element : Bytes) : List Bytes :=
  if element = [] ∨ element = here then before
  else if element = parent then
    match before with
    | [] => if rooted then [] else [parent]
    -- `..` in front of `..` is all that is left of a way up
    | last :: rest => if last = parent then parent :: before else rest
  else element :: before

/-- The clean elements of a path. -/
def cleanElements (path : Bytes) : List Bytes :=
  ((elements path).foldl (push (isRooted path)) []).reverse

/-- The path with the given elements. -/
def ofElements (rooted : Bool) (elements : List Bytes) : Bytes :=
  match rooted, elements with
  | true, elements => separator :: List.intercalate [separator] elements
  | false, [] => here
  | false, elements => List.intercalate [separator] elements

/-- The clean form of a path. -/
def clean (path : Bytes) : Bytes := ofElements (isRooted path) (cleanElements path)

/-- The parts joined with slashes and cleaned; empty parts at the front do not count, and without
any other part the result is empty. -/
def join (parts : List Bytes) : Bytes :=
  match parts.dropWhile List.isEmpty with
  | [] => []
  | parts => clean (List.intercalate [separator] parts)

/-- The last element of a path, up to its end: what stands behind the last slash. -/
def lastPart (path : Bytes) : Bytes := (path.reverse.takeWhile (· != separator)).reverse

/-- The extension of the last element: from its last full stop on. -/
def extension (path : Bytes) : Bytes :=
  let name := lastPart path
  if name.contains 0x2E then 0x2E :: (name.reverse.takeWhile (· != 0x2E)).reverse else []

/-- The directory of a path: all but the last element, cleaned. -/
def directory (path : Bytes) : Bytes :=
  clean (path.take (path.length - (lastPart path).length))

/-- The last element of a path, slashes at the end not counted. -/
def base (path : Bytes) : Bytes :=
  if path = [] then here
  else
    match lastPart (path.reverse.dropWhile (· == separator)).reverse with
    | [] => [separator]
    | name => name

/-- The path as seen from the working directory, cleaned. -/
def absolute (workingDirectory path : Bytes) : Bytes :=
  if isRooted path then clean path else join [workingDirectory, path]

end Bracket.Path
