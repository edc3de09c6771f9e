import Bracket.Bytes

/-!
# Addresses in brackets

A host in square brackets is an address (`isAddress`) of eight groups, each of one to four
hexadecimal digits, with colons between them. There are two abbreviations:

* two colons in a row stand for one or more groups of zeros, at most once;
* the last two groups may be written as a quad of decimal numbers with full stops between them.

Behind the address there may be a zone, set off by an escaped per cent sign.
-/

namespace Bracket.Reference.Address

/-- The number of groups in an address. -/
def groupCount : Nat := 8

/-- One to four hexadecimal digits. -/
def isGroup (text : Bytes) : Bool :=
  !text.isEmpty && decide (text.length ≤ 4) && text.all fun b => (Bytes.hexValue? b).isSome

/-- The value of a decimal numeral. -/
def decimal (digits : Bytes) : Nat := digits.foldl (fun n b => n * 10 + (b.toNat - 0x30)) 0

/-- A decimal number up to 255, without leading zeros. -/
def isOctet (text : Bytes) : Bool :=
  !text.isEmpty && text.all Bytes.isDigit && decide (decimal text ≤ 255) &&
    (text.length == 1 || text.head? != some 0x30)

/-- Four decimal numbers with full stops between them. -/
def isQuad (text : Bytes) : Bool :=
  let octets := Bytes.splitOn 0x2E text
  octets.length == 4 && octets.all isOctet

/-- The number of groups that fields stand for. A quad, which stands for two, is admitted in the
last field only. -/
def countFields (admitsQuad : Bool) : List Bytes → Option Nat
  | [] => some 0
  | [last] =>
    if isGroup last then some 1
    else if admitsQuad && isQuad last then some 2
    else none
  | field :: rest =>
    if isGroup field then (countFields admitsQuad rest).map (· + 1) else none

/-- The number of groups that a text stands for. -/
def countGroups (admitsQuad : Bool) (text : Bytes) : Option Nat :=
  if text = [] then some 0 else countFields admitsQuad (Bytes.splitOn 0x3A text)

/-- The text is an address: all groups are written, or there is a gap for at least one of them. -/
def isAddress (text : Bytes) : Bool :=
  match Bytes.cutAt (bytes "::") text with
  | none => countGroups true text == some groupCount
  | some (before, behind) =>
    match countGroups false before, countGroups true behind with
    | some m, some n => decide (m + n < groupCount)
    | _, _ => false

end Bracket.Reference.Address
