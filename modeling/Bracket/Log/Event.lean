import Bracket.Log.Level
import Bracket.Program

/-!
# Events

What a compilation tells about its course. An event has a level, a message, and fields with a name
and a value. It is written on one line (`line`), where values that could be misread are quoted.
-/

namespace Bracket.Log

/-- Something that happened during a compilation. -/
inductive Event where
  /-- A file was found that is not known to be a source. -/
  | skipped (file : Bytes)
  /-- A file was parsed. -/
  | parsed (file : Bytes) (stats : Stats)
  /-- All files are done: how many there were, and how many modules came of them. -/
  | compiled (files modules : Nat)
  deriving Repr, Inhabited

namespace Event

/-- The level of an event. -/
def level : Event → Level
  | .skipped _ | .parsed _ _ => .debug
  | .compiled _ _ => .info

/-- The name of the level of an event. -/
def levelName : Event → Bytes
  | .skipped _ | .parsed _ _ => bytes "DEBUG"
  | .compiled _ _ => bytes "INFO"

/-- What happened. -/
def message : Event → Bytes
  | .skipped _ => bytes "skipping file of unknown kind"
  | .parsed _ _ => bytes "parsed file"
  | .compiled _ _ => bytes "compiled"

/-- The details, each with a name. -/
def fields : Event → List (Bytes × Bytes)
  | .skipped file => [(bytes "file", file)]
  | .parsed file stats =>
    [(bytes "file", file), (bytes "operators", Bytes.ofNat stats.operators),
      (bytes "loops", Bytes.ofNat stats.loops), (bytes "depth", Bytes.ofNat stats.maxDepth)]
  | .compiled files modules =>
    [(bytes "files", Bytes.ofNat files), (bytes "modules", Bytes.ofNat modules)]

/-! ## Lines -/

/-- A code point that can be misread at a glance or at the end of a value. -/
def isDoubtful (s : Utf8.Scalar) : Bool :=
  if s.point < 0x80 then s.point ≤ 0x20 || s.point = 0x22 || s.point = 0x3D
  else s.point = 0xFFFD || !Text.isPrintable s.point

/-- A value as it stands on a line: quoted if it is empty or holds a doubtful code point. -/
def valueText (value : Bytes) : Bytes :=
  if value = [] || (Utf8.decodeAll value).any isDoubtful then Text.quote value else value

/-- A field as it stands on a line. -/
def fieldText (field : Bytes × Bytes) : Bytes := field.1 ++ bytes "=" ++ valueText field.2

/-- The line of an event at a given time. -/
def line (time : Bytes) (event : Event) : Bytes :=
  let fields := [(bytes "time", time), (bytes "level", event.levelName),
    (bytes "msg", event.message)] ++ event.fields
  List.intercalate (bytes " ") (fields.map fieldText) ++ bytes "\n"

end Event

end Bracket.Log
