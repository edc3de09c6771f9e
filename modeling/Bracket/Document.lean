import Bracket.Utf8

/-!
# Documents

The common layout behind the printed forms of an image: texts, lists and records. The fields of a
record are kept in the order in which they are printed. `invalidText?` finds what cannot be printed
as text.
-/

namespace Bracket

/-- A tree of texts, lists and records. -/
inductive Document where
  | text (value : Bytes)
  | list (items : List Document)
  | record (fields : List (Bytes × Document))
  deriving Repr, Inhabited

namespace Document

mutual

/-- The first text of the document that is not valid UTF-8. -/
def invalidText? : Document → Option Bytes
  | .text value => if Utf8.isValid value then none else some value
  | .list items => invalidItem? items
  | .record fields => invalidField? fields

/-- The first invalid text of several documents. -/
def invalidItem? : List Document → Option Bytes
  | [] => none
  | d :: rest => d.invalidText?.or (invalidItem? rest)

/-- The first invalid text in the fields of a record. -/
def invalidField? : List (Bytes × Document) → Option Bytes
  | [] => none
  | (_, d) :: rest => d.invalidText?.or (invalidField? rest)

end

end Document

end Bracket
