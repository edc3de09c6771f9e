import Bracket.Document
import Bracket.Document.Yaml.Scalar

/-!
# YAML

The block form of a document (`yaml`). The items of a list stand behind dashes, and the fields of a
record in an item are aligned two columns behind the dash. A list in a field, and the lines of a
scalar, are indented to the next multiple of four columns. Empty lists and records are written in
brackets.
-/

namespace Bracket.Document

/-- The indentation one level deeper: the next multiple of four columns. -/
def yamlDeeper (indent : Nat) : Nat := 4 * ((indent + 4) / 4)

/-- Ends a line, unless the text already did with some line break. -/
def yamlEndLine (text : Bytes) : Bytes :=
  if (Yaml.points text).getLast?.any Yaml.isBreak then text else text ++ bytes "\n"

/-- The spaces in front of a line. -/
def yamlMargin (indent : Nat) : Bytes := List.replicate indent 0x20

mutual

/-- What stands behind the key of a field, up to the end of its last line, in a record at the given
indentation. -/
def yamlValue (indent : Nat) : Document → Bytes
  | .text value => bytes " " ++ yamlEndLine (Yaml.scalar (yamlDeeper indent) value)
  | .list [] => bytes " []\n"
  | .list (d :: rest) =>
    bytes "\n" ++ yamlMargin (yamlDeeper indent) ++ bytes "- " ++ d.yamlItem (yamlDeeper indent) ++
      yamlItems (yamlDeeper indent) rest
  | .record [] => bytes " " ++ [0x7B, 0x7D] ++ bytes "\n"
  | .record ((key, d) :: rest) =>
    bytes "\n" ++ yamlMargin (yamlDeeper indent) ++ Yaml.scalar 0 key ++ bytes ":" ++
      d.yamlValue (yamlDeeper indent) ++ yamlFields (yamlDeeper indent) rest

/-- What stands behind the dash of an item, in a list at the given indentation. -/
def yamlItem (indent : Nat) : Document → Bytes
  | .text value => yamlEndLine (Yaml.scalar (yamlDeeper indent) value)
  | .list [] => bytes "[]\n"
  | .list (d :: rest) => bytes "- " ++ d.yamlItem (indent + 2) ++ yamlItems (indent + 2) rest
  | .record [] => [0x7B, 0x7D] ++ bytes "\n"
  | .record ((key, d) :: rest) =>
    Yaml.scalar 0 key ++ bytes ":" ++ d.yamlValue (indent + 2) ++ yamlFields (indent + 2) rest

/-- The items of a list after the first. -/
def yamlItems (indent : Nat) : List Document → Bytes
  | [] => []
  | d :: rest => yamlMargin indent ++ bytes "- " ++ d.yamlItem indent ++ yamlItems indent rest

/-- The fields of a record after the first. -/
def yamlFields (indent : Nat) : List (Bytes × Document) → Bytes
  | [] => []
  | (key, d) :: rest =>
    yamlMargin indent ++ Yaml.scalar 0 key ++ bytes ":" ++ d.yamlValue indent ++
      yamlFields indent rest

end

/-- The fields of a record as a whole document. -/
def yaml (fields : List (Bytes × Document)) : Bytes :=
  match fields with
  | [] => [0x7B, 0x7D] ++ bytes "\n"
  | fields => yamlFields 0 fields

end Bracket.Document
