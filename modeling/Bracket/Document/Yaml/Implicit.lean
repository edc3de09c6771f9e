import Bracket.Bytes

/-!
# Implicit types of plain scalars

A plain scalar is a text only if it does not read as anything else (`isPlainText`). This module says
which byte strings read as a null, a truth value, a number or a time stamp, and which ones read as a
truth value or a number in base sixty for older readers; all of these need quotes to stay texts.

What a scalar can be is decided by its first character: a digit or a sign for numbers and time
stamps, a full stop for fractions, and the initials of the reserved words.
-/

namespace Bracket.Document.Yaml

/-! ## Words -/

/-- The words that stand for null, truth values and the special numbers. -/
def reservedWords : List Bytes :=
  [bytes "true", bytes "True", bytes "TRUE", bytes "false", bytes "False", bytes "FALSE",
    bytes "", bytes "~", bytes "null", bytes "Null", bytes "NULL",
    bytes ".nan", bytes ".NaN", bytes ".NAN", bytes ".inf", bytes ".Inf", bytes ".INF",
    bytes "+.inf", bytes "+.Inf", bytes "+.INF", bytes "-.inf", bytes "-.Inf", bytes "-.INF"]

/-- The words that older readers take for truth values. -/
def oldTruthWords : List Bytes :=
  [bytes "y", bytes "Y", bytes "yes", bytes "Yes", bytes "YES", bytes "on", bytes "On", bytes "ON",
    bytes "n", bytes "N", bytes "no", bytes "No", bytes "NO", bytes "off", bytes "Off", bytes "OFF"]

/-! ## Integers -/

/-- The value of a sequence of digits, if each is a digit of the base. -/
def digitsValue? (base : Nat) (digits : Bytes) : Option Nat :=
  digits.foldlM (fun n b => do
    let d ← if Bytes.isLetter b then some ((Bytes.lowerByte b).toNat - 0x61 + 10)
      else if Bytes.isDigit b then some (b.toNat - 0x30)
      else none
    if d < base then some (n * base + d) else none) 0

/-- The value of a non-empty sequence of digits. -/
def someDigitsValue? (base : Nat) (digits : Bytes) : Option Nat :=
  if digits.isEmpty then none else digitsValue? base digits

/-- The value of an unsigned integer with an optional base mark: `0b`, `0o`, `0x`, or just a leading
zero for base eight. -/
def magnitude? : Bytes → Option Nat
  | [] => none
  | 0x30 :: mark :: d :: rest =>
    match Bytes.lowerByte mark with
    | 0x62 => digitsValue? 2 (d :: rest)
    | 0x6F => digitsValue? 8 (d :: rest)
    | 0x78 => digitsValue? 16 (d :: rest)
    | _ => digitsValue? 8 (mark :: d :: rest)
  | 0x30 :: rest => digitsValue? 8 rest
  | digits => digitsValue? 10 digits

/-- A number read by `read` after an optional sign, if it fits 64 bits with a sign. -/
def isSigned (read : Bytes → Option Nat) (text : Bytes) : Bool :=
  match text with
  | 0x2D :: digits => (read digits).any (· ≤ Nat.pow 2 63)
  | 0x2B :: digits => (read digits).any (· < Nat.pow 2 63)
  | digits => (read digits).any (· < Nat.pow 2 63)

/-- A number read by `read` that fits 64 bits without a sign. -/
def isUnsigned (read : Bytes → Option Nat) (text : Bytes) : Bool :=
  (read text).any (· < Nat.pow 2 64)

/-- An integer of one base behind the given mark, with a sign in front of the mark or behind it. -/
def isMarked (mark : Bytes) (base : Nat) (text : Bytes) : Bool :=
  if mark.isPrefixOf text then
    let digits := text.drop mark.length
    isSigned (someDigitsValue? base) digits || isUnsigned (someDigitsValue? base) digits
  else if (0x2D :: mark).isPrefixOf text then
    isSigned (someDigitsValue? base) (0x2D :: text.drop (mark.length + 1))
  else false

/-- An integer, binary and octal ones included. -/
def isInteger (text : Bytes) : Bool :=
  isSigned magnitude? text || isUnsigned magnitude? text ||
    isMarked (bytes "0b") 2 text || isMarked (bytes "0o") 8 text

/-! ## Fractions -/

/-- The least decimal value that is too large for a 64-bit floating point number: halfway between
the largest one and the power of two after it. -/
def tooLarge : Nat := Nat.pow 2 1024 - Nat.pow 2 970

/-- The value `digits · 10 ^ exponent` is too large for a 64-bit floating point number. -/
def overflows (digits : Nat) (exponent : Int) : Bool :=
  match exponent with
  | .ofNat e => tooLarge ≤ digits * Nat.pow 10 e
  | .negSucc e => tooLarge * Nat.pow 10 (e + 1) ≤ digits

/-- The exponent written by the given digits; beyond five digits the rest does not count. -/
def exponentValue (digits : Bytes) : Nat :=
  digits.foldl (fun e b => if e < 10000 then e * 10 + (b.toNat - 0x30) else e) 0

/-- The exponent part of a number, if there is one: a letter, an optional sign and digits up to the
end. -/
def exponent? (text : Bytes) : Option Int :=
  match text with
  | [] => some 0
  | e :: rest =>
    if Bytes.lowerByte e = 0x65 then
      let (negative, digits) := match rest with
        | 0x2B :: digits => (false, digits)
        | 0x2D :: digits => (true, digits)
        | digits => (false, digits)
      if digits.isEmpty || !digits.all Bytes.isDigit then none
      else
        let value : Int := exponentValue digits
        some (if negative then -value else value)
    else none

/-- A decimal number without underscores that fits a 64-bit floating point number: digits with an
optional point, or a point and digits, and an optional exponent. -/
def isDecimal (text : Bytes) : Bool :=
  let unsigned := match text with
    | 0x2B :: rest => rest
    | 0x2D :: rest => rest
    | rest => rest
  let whole := unsigned.takeWhile Bytes.isDigit
  let (fraction, rest) := match unsigned.dropWhile Bytes.isDigit with
    | 0x2E :: rest => (some (rest.takeWhile Bytes.isDigit), rest.dropWhile Bytes.isDigit)
    | rest => (none, rest)
  if whole.isEmpty && (fraction.getD []).isEmpty then false
  else
    match exponent? rest, digitsValue? 10 (whole ++ fraction.getD []) with
    | some e, some digits => !overflows digits (e - (fraction.getD []).length)
    | _, _ => false

/-- What an underscore may stand next to. -/
inductive Separation where
  | start
  | digit
  | underscore
  | other
  deriving DecidableEq

/-- Every underscore stands between two digits. -/
def separatesDigits (previous : Separation) : Bytes → Bool
  | [] => previous != .underscore
  | b :: rest =>
    if Bytes.isDigit b then separatesDigits .digit rest
    else if b = 0x5F then previous == .digit && separatesDigits .underscore rest
    else previous != .underscore && separatesDigits .other rest

/-- A number that starts with a point; underscores may separate its digits. -/
def isPointed (text : Bytes) : Bool :=
  separatesDigits .start text && isDecimal (text.filter (· != 0x5F))

/-! ## Time stamps -/

/-- A number of one or two digits. -/
def shortNumber? : Bytes → Option (Nat × Bytes)
  | a :: rest =>
    if Bytes.isDigit a then
      match rest with
      | b :: rest' =>
        if Bytes.isDigit b then some ((a.toNat - 0x30) * 10 + (b.toNat - 0x30), rest')
        else some (a.toNat - 0x30, rest)
      | [] => some (a.toNat - 0x30, [])
    else none
  | [] => none

/-- The text behind one expected byte. -/
def expect? (b : UInt8) : Bytes → Option Bytes
  | c :: rest => if c = b then some rest else none
  | [] => none

def daysIn (year month : Nat) : Nat :=
  match month with
  | 2 => if year % 4 = 0 ∧ (year % 100 ≠ 0 ∨ year % 400 = 0) then 29 else 28
  | 4 | 6 | 9 | 11 => 30
  | _ => 31

/-- A date: four digits for the year, one or two for month and day. The day is not checked here. -/
def date? (text : Bytes) : Option ((Nat × Nat × Nat) × Bytes) := do
  let year ← digitsValue? 10 (text.take 4)
  let (month, rest) ← shortNumber? (← expect? 0x2D (text.drop 4))
  guard (1 ≤ month ∧ month ≤ 12)
  let (day, rest) ← shortNumber? (← expect? 0x2D rest)
  return ((year, month, day), rest)

/-- A time of day: hours, minutes and seconds, and an optional fraction of a second behind a point
or a comma. -/
def time? (text : Bytes) : Option Bytes := do
  let (hour, rest) ← shortNumber? text
  guard (hour < 24)
  let (minute, rest) ← shortNumber? (← expect? 0x3A rest)
  guard (minute < 60)
  let (second, rest) ← shortNumber? (← expect? 0x3A rest)
  guard (second < 60)
  return match rest with
    | mark :: digit :: more =>
      if (mark = 0x2E ∨ mark = 0x2C) ∧ Bytes.isDigit digit then more.dropWhile Bytes.isDigit
      else rest
    | _ => rest

/-- A time zone up to the end: `Z`, or a sign, hours and minutes. -/
def isZone : Bytes → Bool
  | [0x5A] => true
  | [sign, h, h', 0x3A, m, m'] =>
    (sign = 0x2B || sign = 0x2D) && [h, h', m, m'].all Bytes.isDigit &&
      (h.toNat - 0x30) * 10 + (h'.toNat - 0x30) ≤ 24 &&
      (m.toNat - 0x30) * 10 + (m'.toNat - 0x30) ≤ 60
  | _ => false

/-- A date, alone or with a time of day: behind a `T` and with a time zone, or behind blanks and
without one. -/
def isTimestamp (text : Bytes) : Bool :=
  if (text.takeWhile Bytes.isDigit).length = 4 then
    match date? text with
    | none => false
    | some ((year, month, day), rest) =>
      1 ≤ day && day ≤ daysIn year month &&
        match rest with
        | [] => true
        | 0x20 :: rest => time? (rest.dropWhile (· = 0x20)) == some []
        | t :: rest => (t = 0x54 || t = 0x74) && (time? rest).any isZone
  else false

/-! ## Numbers in base sixty -/

/-- Groups of one or two digits below sixty behind colons, at least one, and an optional fraction.
-/
def isSexagesimalTail : Bytes → Bool
  | 0x3A :: a :: b :: rest =>
    if Bytes.isDigit a && Bytes.isDigit b then a ≤ 0x35 && ends rest
    else Bytes.isDigit a && ends (b :: rest)
  | [0x3A, a] => Bytes.isDigit a
  | _ => false
where
  /-- The text may go on with further groups or with the fraction. -/
  ends : Bytes → Bool
    | [] => true
    | 0x2E :: rest => rest.all fun b => Bytes.isDigit b || b = 0x5F
    | 0x3A :: rest => isSexagesimalTail (0x3A :: rest)
    | _ => false

def isSexagesimal (text : Bytes) : Bool :=
  let unsigned := match text with
    | 0x2B :: rest => rest
    | 0x2D :: rest => rest
    | rest => rest
  match unsigned with
  | d :: rest =>
    Bytes.isDigit d &&
      isSexagesimalTail (rest.dropWhile fun b => Bytes.isDigit b || b = 0x5F)
  | [] => false

/-! ## Plain texts -/

/-- The plain scalar reads as a text. -/
def readsAsText (text : Bytes) : Bool :=
  match text with
  | [] => false
  | first :: _ =>
    if Bytes.isDigit first || first = 0x2B || first = 0x2D then
      let plain := text.filter (· != 0x5F)
      !(reservedWords.contains text || isTimestamp text || isInteger plain || isDecimal plain)
    else if first = 0x2E then !(reservedWords.contains text || isPointed text)
    else !reservedWords.contains text

/-- The text may be written as a plain scalar as far as its meaning goes. -/
def isPlainText (text : Bytes) : Bool :=
  readsAsText text && !isSexagesimal text && !oldTruthWords.contains text

end Bracket.Document.Yaml
