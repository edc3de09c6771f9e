import Bracket.Utf8

/-!
# Templates without operands

In a template a percent sign announces an operand: flags, a width and a precision may follow, each
of the latter two a number or a star, an operand can be chosen by a number in brackets, and a letter
ends the directive. A template that is filled with no operands at all (`unfilled`) shows for each
directive what is missing. Only the directive for the percent sign itself needs no operand.
-/

namespace Bracket.Text.Template

/-- How far the reading of a directive has got. -/
structure Reading where
  /-- The number of bytes read. -/
  width : Nat
  /-- The operand was chosen by a number just before. -/
  chosen : Bool
  /-- No operand was chosen wrongly. -/
  sound : Bool
  /-- What was written. -/
  written : Bytes
  deriving DecidableEq, Repr

/-- The largest number before more digits make it too large. -/
def numberLimit : Nat := 1000000

/-- Adds digits to a number: the number if it is not too large, and how many digits there are. -/
def digits (n : Nat) : Bytes → Option Nat × Nat
  | [] => (some n, 0)
  | b :: rest =>
    if Bytes.isDigit b then
      if numberLimit < n then (none, 0)
      else
        match digits (n * 10 + (b.toNat - 0x30)) rest with
        | (value, count) => (value, count + 1)
    else (some n, 0)

/-- The number at the start of a text is there and goes up to its end. -/
def isNumber (text : Bytes) : Bool :=
  match digits 0 text with
  | (some _, count) => 0 < count && count == text.length
  | (none, _) => false

/-- A choice of an operand by a number in brackets, which cannot succeed: how long it is, and
whether it is well-formed. -/
def choice? (text : Bytes) : Option (Nat × Bool) :=
  match text with
  | 0x5B :: inside =>
    if text.length < 3 then some (1, false)
    else
      match Bytes.cut 0x5D inside with
      | some (number, _) => some (number.length + 2, isNumber number)
      | none => some (1, false)
  | _ => none

/-- Reads a choice of an operand. -/
def Reading.choose (text : Bytes) (r : Reading) : Reading :=
  match choice? (text.drop r.width) with
  | some (width, formed) => { r with width := r.width + width, chosen := formed, sound := false }
  | none => { r with chosen := false }

/-- Reads a number; one that is too large swallows the rest of the template. Also tells whether
there was a number. -/
def Reading.number (text : Bytes) (r : Reading) : Bool × Reading :=
  match digits 0 (text.drop r.width) with
  | (some _, count) => (0 < count, { r with width := r.width + count })
  | (none, _) => (false, { r with width := text.length })

/-- The byte that is read next. -/
def Reading.next? (text : Bytes) (r : Reading) : Option UInt8 := text[r.width]?

def isFlag (b : UInt8) : Bool := (bytes "#0+- ").contains b

def flags (text : Bytes) : Reading := ⟨(text.takeWhile isFlag).length, false, true, []⟩

def Reading.fieldWidth (text : Bytes) (r : Reading) : Reading :=
  if r.next? text = some 0x2A then
    { r with width := r.width + 1, chosen := false, written := r.written ++ bytes "%!(BADWIDTH)" }
  else
    match r.number text with
    | (present, after) => { after with sound := after.sound && !(r.chosen && present) }

/-- Reads the precision behind its point. -/
def Reading.precisionBehind (text : Bytes) (r : Reading) : Reading :=
  let r := ({ r with width := r.width + 1, sound := r.sound && !r.chosen } : Reading).choose text
  if r.next? text = some 0x2A then
    { r with width := r.width + 1, chosen := false, written := r.written ++ bytes "%!(BADPREC)" }
  else (r.number text).2

def Reading.precision (text : Bytes) (r : Reading) : Reading :=
  if r.next? text = some 0x2E then r.precisionBehind text else r

/-- Reads the letter and says what is missing. -/
def Reading.verb (text : Bytes) (r : Reading) : Bytes × Nat :=
  match text.drop r.width with
  | [] => (r.written ++ bytes "%!(NOVERB)", r.width)
  | b :: rest =>
    let s := Utf8.decode b rest
    let complaint := if r.sound then bytes "(MISSING)" else bytes "(BADINDEX)"
    (r.written ++
      if s.point = 0x25 then bytes "%" else bytes "%!" ++ Utf8.encode s.point ++ complaint,
      r.width + s.width)

/-- What stands for a directive, given the text behind its percent sign, and how much of the text
belongs to it. -/
def directive (text : Bytes) : Bytes × Nat :=
  let r := (((flags text).choose text).fieldWidth text).precision text
  (if r.chosen then r else r.choose text).verb text

/-- The template filled with no operands. -/
def unfilled : Bytes → Bytes
  | [] => []
  | b :: rest =>
    if b = 0x25 then
      match directive rest with
      | (text, width) => text ++ unfilled (rest.drop width)
    else b :: unfilled rest
termination_by text => text.length
decreasing_by
  all_goals simp only [List.length_drop, List.length_cons]
  all_goals omega

end Bracket.Text.Template
