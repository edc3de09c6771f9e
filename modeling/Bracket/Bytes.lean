/-!
# Byte strings

Names, paths, file contents and printed texts are sequences of bytes which need not be valid UTF-8,
so the whole library works on lists of bytes. This module holds the few general operations on them:
literals (`bytes`), decimal numerals (`Bytes.ofNat`), splitting and cutting at a byte
(`Bytes.splitOn`, `Bytes.cut`), and the bytewise order (the lexicographic order that `List` already
carries).
-/

namespace Bracket

/-- A byte string. -/
abbrev Bytes := List UInt8

/-- The bytes of a text literal. -/
def bytes (s : String) : Bytes := s.toUTF8.data.toList

namespace Bytes

/-- The decimal numeral of a natural number, without leading zeros. -/
def ofNat (n : Nat) : Bytes := (Nat.toDigits 10 n).map fun c => c.toNat.toUInt8

/-- The decimal numeral of an integer, with a leading minus sign when it is negative. -/
def ofInt : Int → Bytes
  | .ofNat n => ofNat n
  | .negSucc n => 0x2D :: ofNat (n + 1)

/-- The bytewise order: `a` sorts before `b` or is equal to it. -/
def le (a b : Bytes) : Bool := decide (a ≤ b)

/-- The parts of a byte string between the separator bytes. There is always at least one part. -/
def splitOn (separator : UInt8) : Bytes → List Bytes
  | [] => [[]]
  | b :: rest =>
    if b = separator then [] :: splitOn separator rest
    else
      match splitOn separator rest with
      | [] => [[b]]
      | part :: parts => (b :: part) :: parts

/-- The parts of a byte string before and after the first occurrence of a byte. -/
def cut (separator : UInt8) : Bytes → Option (Bytes × Bytes)
  | [] => none
  | b :: rest =>
    if b = separator then some ([], rest)
    else (cut separator rest).map fun (before, after) => (b :: before, after)

/-- A byte that does not occur cuts nothing. -/
theorem cut_eq_none_iff {separator : UInt8} {text : Bytes} :
    cut separator text = none ↔ separator ∉ text := by
  induction text with
  | nil => simp [cut]
  | cons b rest ih =>
    rw [cut]
    by_cases hb : b = separator
    · simp [hb]
    · rw [if_neg hb, Option.map_eq_none_iff, ih, List.mem_cons, not_or]
      exact ⟨fun hrest => ⟨Ne.symm hb, hrest⟩, fun hrest => hrest.2⟩

/-- What stands before and behind the first occurrence of a byte. -/
theorem cut_eq_some_iff {separator : UInt8} {text before behind : Bytes} :
    cut separator text = some (before, behind) ↔
      separator ∉ before ∧ text = before ++ separator :: behind := by
  induction text generalizing before with
  | nil => simp [cut]
  | cons b rest ih =>
    rw [cut]
    by_cases hb : b = separator
    · subst hb
      cases before with
      | nil => simp
      | cons c before => simp +contextual
    · rw [if_neg hb, Option.map_eq_some_iff]
      constructor
      · rintro ⟨⟨before', behind'⟩, hcut, hpair⟩
        obtain ⟨rfl, rfl⟩ := Prod.mk.inj hpair
        obtain ⟨hnot, hrest⟩ := ih.mp hcut
        exact ⟨by simpa [hnot] using Ne.symm hb, by rw [hrest, List.cons_append]⟩
      · rintro ⟨hnot, htext⟩
        cases before with
        | nil => exact absurd (List.cons.inj htext).1 hb
        | cons c before =>
          obtain ⟨rfl, hrest⟩ := List.cons.inj htext
          exact ⟨(before, behind), ih.mpr ⟨fun h => hnot (List.mem_cons_of_mem _ h), hrest⟩, rfl⟩

/-- The parts of a byte string before and after the first occurrence of another one, which is not
empty. -/
def cutAt (mark : Bytes) : Bytes → Option (Bytes × Bytes)
  | [] => none
  | b :: rest =>
    if mark.isPrefixOf (b :: rest) then some ([], (b :: rest).drop mark.length)
    else (cutAt mark rest).map fun (before, after) => (b :: before, after)

/-- `text` padded on the right with spaces up to `width` bytes. -/
def padRight (width : Nat) (text : Bytes) : Bytes :=
  text ++ List.replicate (width - text.length) 0x20

/-- ASCII letters in lower case, every other byte unchanged. -/
def lowerByte (b : UInt8) : UInt8 := if 0x41 ≤ b ∧ b ≤ 0x5A then b + 0x20 else b

/-- ASCII letters in upper case, every other byte unchanged. -/
def upperByte (b : UInt8) : UInt8 := if 0x61 ≤ b ∧ b ≤ 0x7A then b - 0x20 else b

def isDigit (b : UInt8) : Bool := 0x30 ≤ b && b ≤ 0x39

def isLetter (b : UInt8) : Bool := (0x61 ≤ b && b ≤ 0x7A) || (0x41 ≤ b && b ≤ 0x5A)

/-- The value of an ASCII hexadecimal digit, in either case. -/
def hexValue? (b : UInt8) : Option UInt8 :=
  if 0x30 ≤ b ∧ b ≤ 0x39 then some (b - 0x30)
  else if 0x61 ≤ b ∧ b ≤ 0x66 then some (b - 0x61 + 10)
  else if 0x41 ≤ b ∧ b ≤ 0x46 then some (b - 0x41 + 10)
  else none

/-- The lower case hexadecimal digit of a value below sixteen. -/
def hexDigit (n : Nat) : UInt8 :=
  if n < 10 then 0x30 + n.toUInt8 else 0x61 + (n - 10).toUInt8

/-- The upper case hexadecimal digit of a value below sixteen. -/
def hexDigitUpper (n : Nat) : UInt8 :=
  if n < 10 then 0x30 + n.toUInt8 else 0x41 + (n - 10).toUInt8

/-- `n` in hexadecimal with exactly `width` digits, the high ones dropped if there are more. -/
def hex (digit : Nat → UInt8) (width n : Nat) : Bytes :=
  match width with
  | 0 => []
  | w + 1 => hex digit w (n / 16) ++ [digit (n % 16)]

end Bytes

end Bracket
