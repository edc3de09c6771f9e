import Bracket.Document

/-!
# JSON

The multi-line form of a document (`json`): every item of a list and every field of a record on a
line of its own, indented by two spaces for each level, with one space after the colon of a key.
Empty lists and records have no lines inside. There is no line break at the end.
-/

namespace Bracket.Document

/-- One byte inside a JSON string: control characters, quotes and backslashes are escaped. -/
def jsonByte (b : UInt8) : Bytes :=
  match b with
  | 0x22 => bytes "\\\""
  | 0x5C => bytes "\\\\"
  | 0x08 => bytes "\\b"
  | 0x0C => bytes "\\f"
  | 0x0A => bytes "\\n"
  | 0x0D => bytes "\\r"
  | 0x09 => bytes "\\t"
  | b => if b < 0x20 then bytes "\\u" ++ Bytes.hex Bytes.hexDigit 4 b.toNat else [b]

def jsonString (text : Bytes) : Bytes := bytes "\"" ++ text.flatMap jsonByte ++ bytes "\""

/-- A line break and the indentation of a level. -/
def jsonBreak (level : Nat) : Bytes := 0x0A :: List.replicate (2 * level) 0x20

mutual

/-- A document in JSON, on the given level. -/
def json (level : Nat) : Document → Bytes
  | .text value => jsonString value
  | .list [] => bytes "[]"
  | .list (d :: rest) =>
    bytes "[" ++ jsonBreak (level + 1) ++ d.json (level + 1) ++ jsonItems (level + 1) rest ++
      jsonBreak level ++ bytes "]"
  | .record [] => [0x7B, 0x7D]
  | .record ((key, d) :: rest) =>
    [0x7B] ++ jsonBreak (level + 1) ++ jsonString key ++ bytes ": " ++ d.json (level + 1) ++
      jsonFields (level + 1) rest ++ jsonBreak level ++ [0x7D]

/-- The items of a list after the first. -/
def jsonItems (level : Nat) : List Document → Bytes
  | [] => []
  | d :: rest => bytes "," ++ jsonBreak level ++ d.json level ++ jsonItems level rest

/-- The fields of a record after the first. -/
def jsonFields (level : Nat) : List (Bytes × Document) → Bytes
  | [] => []
  | (key, d) :: rest =>
    bytes "," ++ jsonBreak level ++ jsonString key ++ bytes ": " ++ d.json level ++
      jsonFields level rest

end

end Bracket.Document
