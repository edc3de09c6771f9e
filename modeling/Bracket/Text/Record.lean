import Bracket.Bytes

/-!
# Comma-separated records

A record is a line of fields with commas between them. A field that starts with a double quote goes
up to the next one, may hold commas and line ends, and writes a quote of its own twice. Empty lines
in front of the record do not count, and nothing behind it is looked at.
-/

namespace Bracket.Text.Record

/-- What is wrong with a record. -/
inductive Fault where
  /-- There is no record. -/
  | absent
  /-- A quote stands in a field that does not start with one. The first number is the line where the
  record starts. -/
  | bareQuote (start line column : Nat)
  /-- A quoted field does not end, or goes on behind its closing quote. -/
  | unmatchedQuote (start line column : Nat)
  deriving DecidableEq, Repr

/-- The place of a fault. -/
def placeText (start line column : Nat) : Bytes :=
  (if start = line then [] else bytes "record on line " ++ Bytes.ofNat start ++ bytes "; ") ++
    bytes "parse error on line " ++ Bytes.ofNat line ++ bytes ", column " ++ Bytes.ofNat column ++
    bytes ": "

def Fault.message : Fault → Bytes
  | absent => bytes "EOF"
  | bareQuote start line column =>
    placeText start line column ++ bytes "bare \" in non-quoted field"
  | unmatchedQuote start line column =>
    placeText start line column ++ bytes "extraneous or missing \" in quoted-field"

/-- The text with plain line feeds at its line ends, and without a carriage return at its end. -/
def unifyLines : Bytes → Bytes
  | [] => []
  | [0x0D] => []
  | 0x0D :: 0x0A :: rest => 0x0A :: unifyLines rest
  | b :: rest => b :: unifyLines rest

/-- Where the reading of a field has got to; what was read of it comes last first. -/
inductive Stage where
  /-- In front of a field. -/
  | before
  /-- In a field without quotes. -/
  | plain (read : Bytes)
  /-- Between the quotes of a field. -/
  | quoted (read : Bytes)
  /-- Behind a quote that may be the closing one. -/
  | closing (read : Bytes)
  deriving DecidableEq, Repr

/-- Reads the fields of a record that started in line `start`, from the given line and column on. -/
def fields (start line column : Nat) : Stage → Bytes → Except Fault (List Bytes)
  | .before, [] => .ok [[]]
  | .before, b :: rest =>
    if b = 0x0A then .ok [[]]
    else if b = 0x2C then (fields start line (column + 1) .before rest).map ([] :: ·)
    else if b = 0x22 then fields start line (column + 1) (.quoted []) rest
    else fields start line (column + 1) (.plain [b]) rest
  | .plain read, [] => .ok [read.reverse]
  | .plain read, b :: rest =>
    if b = 0x0A then .ok [read.reverse]
    else if b = 0x2C then (fields start line (column + 1) .before rest).map (read.reverse :: ·)
    else if b = 0x22 then .error (.bareQuote start line column)
    else fields start line (column + 1) (.plain (b :: read)) rest
  | .quoted _, [] => .error (.unmatchedQuote start line column)
  | .quoted read, b :: rest =>
    if b = 0x22 then fields start line (column + 1) (.closing read) rest
    else if b = 0x0A ∧ rest ≠ [] then fields start (line + 1) 1 (.quoted (b :: read)) rest
    else fields start line (column + 1) (.quoted (b :: read)) rest
  | .closing read, [] => .ok [read.reverse]
  | .closing read, b :: rest =>
    if b = 0x0A then .ok [read.reverse]
    else if b = 0x2C then (fields start line (column + 1) .before rest).map (read.reverse :: ·)
    else if b = 0x22 then fields start line (column + 1) (.quoted (b :: read)) rest
    else .error (.unmatchedQuote start line (column - 1))

/-- Reads the first record of a text whose line ends are unified, from the given line on. -/
def first (line : Nat) : Bytes → Except Fault (List Bytes)
  | [] => .error .absent
  | b :: rest => if b = 0x0A then first (line + 1) rest else fields line line 1 .before (b :: rest)

/-- The fields of the first record of a text. -/
def parse (text : Bytes) : Except Fault (List Bytes) := first 1 (unifyLines text)

end Bracket.Text.Record
