import Bracket.FiniteStream.Lookahead
import Bracket.Input.Scalars
import Bracket.Token

/-!
# Lexing

The tokens of a file body as a stream (`Lexer.stream`). Eight characters are commands and everything
else is a comment. Positions are kept up to date on the way (`advance`):

* a line feed ends a line, and so does a carriage return unless a line feed follows it, which the
  window of one code point ahead shows;
* every other code point takes one column, whatever its width, and so does an invalid byte;
* a byte order mark takes no column if it is the very first code point.

A zero code point is answered with no token. It ends the current call only: a later call goes on
behind it.
-/

namespace Bracket

open Utf8

/-- A body that is being lexed. The column counts the code points before the current one. -/
structure Lexer where
  window : Lookahead Scalars Scalar
  line : Int32
  column : Int32
  offset : Int64
  deriving Repr

namespace Lexer

/-- How far the lexer looks ahead. -/
def ahead : Nat := 1

/-- The code point that marks the byte order. -/
def byteOrderMark : Nat := 0xFEFF

/-- The lexer at the beginning of a body. -/
def ofBody (body : Body) : Lexer := ⟨.start (.ofBody body), 1, 0, 0⟩

/-- The place of the current code point. -/
def position (l : Lexer) : Position := ⟨l.line, l.column + 1, l.offset⟩

/-- The beginning of the next line. -/
def newLine (l : Lexer) : Lexer := { l with line := l.line + 1, column := 0 }

def newColumn (l : Lexer) : Lexer := { l with column := l.column + 1 }

/-- Moves the position behind a code point. -/
def advance (cancelled : Bool) (l : Lexer) (s : Scalar) : Lexer :=
  let l := { l with offset := l.offset + Int64.ofNat s.width }
  if s.point = 0x0A then l.newLine
  else if s.point = 0x0D then
    let peeked := l.window.peek (Scalars.stream cancelled) ahead 1
    let l := { l with window := peeked.2 }
    -- in front of a line feed the carriage return takes a column, and the line feed ends the line
    if peeked.1.map (·.point) = some 0x0A then l.newColumn else l.newLine
  else l.newColumn

/-- What can still be lexed at most. -/
def size (cancelled : Bool) (l : Lexer) : Nat := l.window.size (Scalars.stream cancelled)

/-- Moving the position reads no further. -/
theorem size_advance (cancelled : Bool) (l : Lexer) (s : Scalar) :
    (l.advance cancelled s).size cancelled ≤ l.size cancelled := by
  unfold advance
  dsimp only
  split
  · exact Nat.le_refl _
  · split
    · split <;> exact Lookahead.size_peek (Scalars.stream cancelled) ahead 1 l.window
    · exact Nat.le_refl _

/-- The next token. -/
def next (cancelled : Bool) (l : Lexer) : Option Token × Lexer :=
  match h : l.window.next (Scalars.stream cancelled) ahead with
  | (none, window) => (none, { l with window })
  | (some s, window) =>
    let l' : Lexer := { l with window }
    have _shorter : l'.size cancelled < l.size cancelled :=
      (Lookahead.stream (Scalars.stream cancelled) ahead).size_lt_of_next h
    -- the position does not move, as if the zero were not there
    if s.point = 0 then (none, l')
    else if s.point = byteOrderMark ∧ l.offset = 0 then
      next cancelled { l' with offset := Int64.ofNat s.width }
    else
      let behind := l'.advance cancelled s
      have _moved : behind.size cancelled ≤ l'.size cancelled := size_advance cancelled l' s
      match Symbol.ofCodePoint? s.point with
      | none => next cancelled behind
      | some symbol => (some ⟨l'.position, behind.position, symbol, encode s.point⟩, behind)
termination_by l.size cancelled
decreasing_by
  · exact _shorter
  · exact Nat.lt_of_le_of_lt _moved _shorter

/-- A token uses up some of what can still be lexed. -/
theorem size_next (cancelled : Bool) (l : Lexer) :
    (next cancelled l).2.size cancelled + (next cancelled l).1.toList.length ≤
      l.size cancelled := by
  fun_induction next cancelled l with
  | case1 l window h =>
    have := Lookahead.size_next (Scalars.stream cancelled) ahead l.window
    simpa [size, h] using this
  | case2 l s window h l' hlt hz =>
    simp
    omega
  | case3 l s window h l' hlt hz hb ih =>
    have : ({ l' with offset := Int64.ofNat s.width } : Lexer).size cancelled = l'.size cancelled :=
      rfl
    omega
  | case4 l s window h l' hlt hz hb behind hle hs ih => omega
  | case5 l s window h l' hlt hz hb behind hle symbol hs =>
    simp
    omega

def close (l : Lexer) : Option Failure := l.window.inner.close

def stream (cancelled : Bool) : FiniteStream Lexer Token where
  next := next cancelled
  size := size cancelled
  spends := size_next cancelled

end Lexer

end Bracket
