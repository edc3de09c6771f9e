import Bracket.Bytes

/-!
# The symbols of the bracket language

Eight characters are commands: two brackets and six plain instructions. A symbol is one of them, the
end-of-input marker, or an unknown symbol that carries its code. Every other character of a source
text (`ofCodePoint?`) is a comment and has no symbol.
-/

namespace Bracket

/-- A lexical symbol. -/
inductive Symbol where
  | endOfInput
  | leftBracket
  | rightBracket
  | incrementPointer
  | decrementPointer
  | incrementValue
  | decrementValue
  | output
  | input
  | unknown (code : UInt8)
  deriving DecidableEq, Repr, Inhabited

namespace Symbol

/-- The symbol with a given code; codes above eight are unknown symbols. -/
def ofCode (code : UInt8) : Symbol :=
  match code with
  | 0 => endOfInput
  | 1 => leftBracket
  | 2 => rightBracket
  | 3 => incrementPointer
  | 4 => decrementPointer
  | 5 => incrementValue
  | 6 => decrementValue
  | 7 => output
  | 8 => input
  | c => unknown c

def code : Symbol → UInt8
  | endOfInput => 0
  | leftBracket => 1
  | rightBracket => 2
  | incrementPointer => 3
  | decrementPointer => 4
  | incrementValue => 5
  | decrementValue => 6
  | output => 7
  | input => 8
  | unknown c => c

/-- The character which spells a command; the other symbols have no spelling. -/
def spelling? : Symbol → Option UInt8
  | leftBracket => some 0x5B
  | rightBracket => some 0x5D
  | incrementPointer => some 0x3E
  | decrementPointer => some 0x3C
  | incrementValue => some 0x2B
  | decrementValue => some 0x2D
  | output => some 0x2E
  | input => some 0x2C
  | endOfInput | unknown _ => none

/-- The source text of a symbol, empty for a symbol without a spelling. -/
def text (s : Symbol) : Bytes := s.spelling?.toList

/-- The command spelled by a code point. All other code points are comments. -/
def ofCodePoint? (point : Nat) : Option Symbol :=
  match point with
  | 0x5B => some leftBracket
  | 0x5D => some rightBracket
  | 0x3E => some incrementPointer
  | 0x3C => some decrementPointer
  | 0x2B => some incrementValue
  | 0x2D => some decrementValue
  | 0x2E => some output
  | 0x2C => some input
  | _ => none

/-- A plain instruction, as opposed to a bracket, the end of input or an unknown symbol. -/
def isOperator : Symbol → Bool
  | incrementPointer | decrementPointer | incrementValue | decrementValue | output | input => true
  | endOfInput | leftBracket | rightBracket | unknown _ => false

/-- The name of a symbol in messages and trees. -/
def name : Symbol → Bytes
  | endOfInput => bytes "EOF"
  | leftBracket => bytes "LeftBracket"
  | rightBracket => bytes "RightBracket"
  | incrementPointer => bytes "IncrementPointer"
  | decrementPointer => bytes "DecrementPointer"
  | incrementValue => bytes "IncrementValue"
  | decrementValue => bytes "DecrementValue"
  | output => bytes "Output"
  | input => bytes "Input"
  | unknown c => bytes "Symbol(" ++ Bytes.ofNat c.toNat ++ bytes ")"

/-- The spelling of a command spells that command. -/
theorem ofCodePoint?_spelling {s : Symbol} {b : UInt8} (h : s.spelling? = some b) :
    ofCodePoint? b.toNat = some s := by
  cases s <;> simp [spelling?] at h <;> subst h <;> rfl

end Symbol

end Bracket
