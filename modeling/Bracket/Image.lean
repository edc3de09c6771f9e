import Bracket.Document
import Bracket.Module

/-!
# Images

An image is the result of a compilation: the modules in order. Its plain form is an outline
(`Image.outline`), with the name of each module on a line of its own and one line for each
expression below it, indented by its depth. The other forms are prints of one document
(`Image.document`).
-/

namespace Bracket

/-- The parsed modules of a compilation. -/
structure Image where
  modules : List Module
  deriving Repr, Inhabited

/-! ## Outline -/

/-- The spaces in front of a line of an outline. -/
def outlineMargin (depth : Nat) : Bytes := List.replicate (2 * depth) 0x20

mutual

/-- The lines of an expression at a given depth. -/
def Expression.outline (depth : Nat) : Expression → Bytes
  | .operator s => outlineMargin depth ++ bytes "Operator(" ++ s.name ++ bytes ")\n"
  | .loop body => outlineMargin depth ++ bytes "Loop\n" ++ Program.outline (depth + 1) body

/-- The lines of a sequence of expressions at a given depth. -/
def Program.outline (depth : Nat) : List Expression → Bytes
  | [] => []
  | e :: rest => e.outline depth ++ Program.outline depth rest

end

def Module.outline (m : Module) : Bytes := m.uri ++ bytes "\n" ++ Program.outline 1 m.program

def Image.outline (image : Image) : Bytes := image.modules.flatMap Module.outline

/-! ## Document -/

mutual

/-- An expression as a record of one field. -/
def Expression.document : Expression → Document
  | .operator s => .record [(bytes "operator", .text s.name)]
  | .loop body => .record [(bytes "loop", .list (Program.documents body))]

/-- The expressions of a sequence as documents. -/
def Program.documents : List Expression → List Document
  | [] => []
  | e :: rest => e.document :: Program.documents rest

end

def Module.document (m : Module) : Document :=
  .record [(bytes "program", .list (Program.documents m.program)), (bytes "uri", .text m.uri)]

/-- The fields of the document of an image. -/
def Image.fields (image : Image) : List (Bytes × Document) :=
  [(bytes "modules", .list (image.modules.map Module.document))]

def Image.document (image : Image) : Document := .record image.fields

end Bracket
