import Bracket.Symbol

/-!
# Reading a sequence of symbols

A cursor is a position in a sequence of symbols. Reading never fails: past the end every read yields
the end-of-input symbol while the position keeps growing.
-/

namespace Bracket

/-- A position in a sequence of symbols, and the symbols from there on. -/
structure Cursor where
  position : Nat
  rest : List Symbol
  deriving DecidableEq, Repr, Inhabited

namespace Cursor

/-- The cursor at the given position of a sequence, which may lie past its end. -/
def seek (symbols : List Symbol) (position : Nat) : Cursor := ⟨position, symbols.drop position⟩

/-- The cursor at the beginning of a sequence. -/
def start (symbols : List Symbol) : Cursor := ⟨0, symbols⟩

def symbol (c : Cursor) : Symbol := c.rest.headD .endOfInput

/-- The cursor one symbol further. -/
def advance (c : Cursor) : Cursor := ⟨c.position + 1, c.rest.tail⟩

def next (c : Cursor) : Symbol × Cursor := (c.symbol, c.advance)

/-- A symbol other than the end of input takes the cursor closer to the end of the sequence. -/
theorem length_advance_lt {c : Cursor} (h : c.symbol ≠ .endOfInput) :
    c.advance.rest.length < c.rest.length := by
  cases hr : c.rest with
  | nil => simp [symbol, hr] at h
  | cons s r => simp [advance, hr]

end Cursor

end Bracket
