import Bracket.Bytes

/-!
# Positions and locations

A position is a place in a text; a location is a position in a named text. Lines and columns are
counted from one and fit 32 bits, offsets are byte indices from zero and fit 64 bits.
-/

namespace Bracket

/-- A place in a source text. -/
structure Position where
  line : Int32
  column : Int32
  offset : Int64
  deriving DecidableEq, Repr, Inhabited

/-- A place in the text with the given name. -/
structure Location where
  uri : Bytes
  position : Position
  deriving DecidableEq, Repr, Inhabited

/-- The position without line, column and offset. -/
def Position.zero : Position := ⟨0, 0, 0⟩

/-- The first place of a text. -/
def Position.start : Position := ⟨1, 1, 0⟩

/-- A whole file, without a place in it. -/
def Location.ofUri (uri : Bytes) : Location := ⟨uri, .zero⟩

/-- A symbol index of a sequence that has no name yet. Line and column are filled in by whoever
knows which token the symbol came from. -/
def Location.ofSymbolIndex (index : Nat) : Location := ⟨[], ⟨0, 0, Int64.ofNat index⟩⟩

end Bracket
