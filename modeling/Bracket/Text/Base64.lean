import Bracket.Bytes

/-!
# Base 64

Three bytes are written as four characters of six bits each; an incomplete last group is filled up
with equal signs.
-/

namespace Bracket.Text

/-- The character for a value of six bits. -/
def base64Digit (n : Nat) : UInt8 :=
  if n < 26 then (0x41 + n).toUInt8
  else if n < 52 then (0x61 + (n - 26)).toUInt8
  else if n < 62 then (0x30 + (n - 52)).toUInt8
  else if n = 62 then 0x2B
  else 0x2F

/-- The base 64 form of a byte string. -/
def base64 : Bytes → Bytes
  | [] => []
  | [a] =>
    let n := a.toNat * 65536
    [base64Digit (n / 262144), base64Digit (n / 4096 % 64), 0x3D, 0x3D]
  | [a, b] =>
    let n := a.toNat * 65536 + b.toNat * 256
    [base64Digit (n / 262144), base64Digit (n / 4096 % 64), base64Digit (n / 64 % 64), 0x3D]
  | a :: b :: c :: rest =>
    let n := a.toNat * 65536 + b.toNat * 256 + c.toNat
    [base64Digit (n / 262144), base64Digit (n / 4096 % 64), base64Digit (n / 64 % 64),
      base64Digit (n % 64)] ++ base64 rest

/-- Every `width` bytes of the text, and what is left of them, on a line of its own. -/
def wrapLines (width : Nat) (h : 0 < width) : Bytes → Bytes
  | [] => []
  | b :: rest =>
    (b :: rest).take width ++ bytes "\n" ++ wrapLines width h ((b :: rest).drop width)
termination_by text => text.length
decreasing_by
  simp only [List.length_drop, List.length_cons]
  omega

/-- The base 64 form on one line, or on terminated lines of 70 characters if it is that long. -/
def base64Lines (text : Bytes) : Bytes :=
  let encoded := base64 text
  if encoded.length < 70 then encoded else wrapLines 70 (by decide) encoded

end Bracket.Text
