import Bracket.Text.Quoted

/-!
# Log levels

A level is a word on a scale on which the four named levels lie four apart. It is written (`parse`)
as a name in either case, with an offset behind it if need be: `info`, `Debug+2`, `ERROR-1`. The sum
wraps around at the ends of the scale.
-/

namespace Bracket.Log

/-- How important an event is. -/
structure Level where
  value : Int64
  deriving DecidableEq, Repr, Inhabited

namespace Level

/-- Details for whoever looks for a fault. -/
def debug : Level := ⟨-4⟩

/-- What happens in the usual course. -/
def info : Level := ⟨0⟩

/-- What the user should look at. -/
def warn : Level := ⟨4⟩

/-- What went wrong. -/
def error : Level := ⟨8⟩

/-- Events of this level pass a threshold. -/
def passes (level threshold : Level) : Bool := decide (threshold.value ≤ level.value)

/-! ## Numbers -/

/-- What is wrong with a numeral. -/
inductive NumberFault where
  | syntactical
  | outOfRange
  deriving DecidableEq, Repr

/-- The wording of a fault. -/
def NumberFault.message : NumberFault → Bytes
  | syntactical => bytes "invalid syntax"
  | outOfRange => bytes "value out of range"

/-- The number of words. -/
def wordCount : Nat := 0x10000000000000000

/-- The number of words that are not negative, and of those that are. -/
def halfCount : Nat := 0x8000000000000000

/-- Adds digits to a number, up to the largest word; a number beyond it ends the reading at once. -/
def magnitude (n : Nat) : Bytes → Except NumberFault Nat
  | [] => .ok n
  | digit :: rest =>
    if Bytes.isDigit digit then
      let n := n * 10 + (digit.toNat - 0x30)
      if wordCount ≤ n then .error .outOfRange else magnitude n rest
    else .error .syntactical

/-- The number of a numeral with a sign in front. -/
def signed (sign : UInt8) (digits : Bytes) : Except NumberFault Int64 :=
  if digits = [] then .error .syntactical
  else
    match magnitude 0 digits with
    | .error fault => .error fault
    | .ok n =>
      if sign = 0x2D then
        if halfCount < n then .error .outOfRange else .ok (Int64.ofInt (-n))
      else if halfCount ≤ n then .error .outOfRange
      else .ok (Int64.ofInt n)

/-! ## Names -/

/-- A text in upper case, as far as the names of levels are concerned: ASCII letters, and the small
dotless i, whose capital is an ordinary I. -/
def upper : Bytes → Bytes
  | 0xC4 :: 0xB1 :: rest => 0x49 :: upper rest
  | b :: rest => Bytes.upperByte b :: upper rest
  | [] => []

/-- The level with a given name. -/
def named? (name : Bytes) : Option Level :=
  let name := upper name
  if name = bytes "DEBUG" then some debug
  else if name = bytes "INFO" then some info
  else if name = bytes "WARN" then some warn
  else if name = bytes "ERROR" then some error
  else none

/-- The name and the offset of a level: the offset starts at the first sign. -/
def split (text : Bytes) : Bytes × Bytes :=
  text.span fun b => !(b == 0x2B || b == 0x2D)

/-- The offset of a level, none at all if the text is empty. -/
def offset (text : Bytes) : Except Bytes Int64 :=
  match text with
  | [] => .ok 0
  | sign :: digits =>
    match signed sign digits with
    | .ok n => .ok n
    | .error fault =>
      .error (bytes "strconv.Atoi: parsing " ++ Text.quote text ++ bytes ": " ++ fault.message)

/-- Reads a level, and says what is wrong with the text if it is none. A faulty offset is noticed
before an unknown name. -/
def parse (text : Bytes) : Except Bytes Level :=
  let refuse (reason : Bytes) : Except Bytes Level :=
    .error (bytes "slog: level string " ++ Text.quote text ++ bytes ": " ++ reason)
  match split text with
  | (name, rest) =>
    match offset rest with
    | .error reason => refuse reason
    | .ok n =>
      match named? name with
      | some level => .ok ⟨level.value + n⟩
      | none => refuse (bytes "unknown name")

end Level

end Bracket.Log
