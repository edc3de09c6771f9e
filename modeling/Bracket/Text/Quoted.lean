import Bracket.Text.Printable
import Bracket.Utf8

/-!
# Quoted text

A byte string between double quotes (`quote`), or a single code point between single ones
(`quoteSingle`). Printable code points stand for themselves, the quotes in use and backslashes are
escaped, and everything else is written as an escape: the usual letters for control characters, two
hexadecimal digits for other ASCII characters and invalid bytes, four or eight for other code
points.
-/

namespace Bracket.Text

open Utf8

/-- One code point between two marks. -/
def escapePoint (mark point : Nat) : Bytes :=
  if point = mark ∨ point = 0x5C then [0x5C, point.toUInt8]
  else if isPrintable point then encode point
  else
    match point with
    | 0x07 => bytes "\\a"
    | 0x08 => bytes "\\b"
    | 0x0C => bytes "\\f"
    | 0x0A => bytes "\\n"
    | 0x0D => bytes "\\r"
    | 0x09 => bytes "\\t"
    | 0x0B => bytes "\\v"
    | _ =>
      if point < 0x80 then bytes "\\x" ++ Bytes.hex Bytes.hexDigit 2 point
      else if point < 0x10000 then bytes "\\u" ++ Bytes.hex Bytes.hexDigit 4 point
      else bytes "\\U" ++ Bytes.hex Bytes.hexDigit 8 point

/-- The inside of a quoted text. -/
def quoteInside : Bytes → Bytes
  | [] => []
  | b :: rest =>
    let s := decode b rest
    (if s = .invalid then bytes "\\x" ++ Bytes.hex Bytes.hexDigit 2 b.toNat
      else escapePoint 0x22 s.point)
      ++ quoteInside (rest.drop (s.width - 1))
termination_by text => text.length
decreasing_by
  simp only [List.length_drop, List.length_cons]
  omega

def quote (text : Bytes) : Bytes := bytes "\"" ++ quoteInside text ++ bytes "\""

def quoteSingle (point : Nat) : Bytes := bytes "'" ++ escapePoint 0x27 point ++ bytes "'"

end Bracket.Text
