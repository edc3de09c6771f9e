import Bracket.Bytes

/-!
# UTF-8

Decoding of one code point at a time (`decode`). The lead byte promises a sequence of one to four
bytes and a range for the second byte; a sequence which breaks the promise is not skipped: its lead
byte alone counts as one invalid byte, and decoding goes on with the byte after it. So no ASCII byte
is ever part of a longer sequence.
-/

namespace Bracket.Utf8

/-- A decoded code point and the number of bytes it took. -/
structure Scalar where
  point : Nat
  width : Nat
  deriving DecidableEq, Repr, Inhabited

/-- The code point that stands for an invalid byte. -/
def replacement : Nat := 0xFFFD

/-- An invalid byte: the replacement character, one byte wide. -/
def Scalar.invalid : Scalar := ⟨replacement, 1⟩

/-- What a lead byte promises: the length of the sequence and the range of its second byte. A byte
which cannot start a sequence has the shape of a single byte. -/
structure Shape where
  size : Nat
  low : UInt8
  high : UInt8
  deriving DecidableEq, Repr

/-- The shape promised by a lead byte. -/
def shape (b : UInt8) : Shape :=
  if b < 0xC2 then ⟨1, 0x80, 0xBF⟩
  else if b < 0xE0 then ⟨2, 0x80, 0xBF⟩
  -- a smaller second byte would spell a code point that needs fewer bytes
  else if b = 0xE0 then ⟨3, 0xA0, 0xBF⟩
  -- a larger one would spell a surrogate
  else if b = 0xED then ⟨3, 0x80, 0x9F⟩
  else if b < 0xF0 then ⟨3, 0x80, 0xBF⟩
  else if b = 0xF0 then ⟨4, 0x90, 0xBF⟩
  else if b < 0xF4 then ⟨4, 0x80, 0xBF⟩
  -- beyond the last code point
  else if b = 0xF4 then ⟨4, 0x80, 0x8F⟩
  else ⟨1, 0x80, 0xBF⟩

/-- The second byte of a sequence is in the range its lead byte allows. -/
def Shape.admits (s : Shape) (b : UInt8) : Bool := s.low ≤ b && b ≤ s.high

/-- A byte of the range `80` to `BF`, which continues a sequence. -/
def isContinuation (b : UInt8) : Bool := 0x80 ≤ b && b ≤ 0xBF

/-- The low six bits, which a continuation byte carries. -/
def payload (b : UInt8) : Nat := b.toNat % 64

/-- Decodes the code point that starts with byte `b` and may continue into `rest`. -/
def decode (b : UInt8) (rest : Bytes) : Scalar :=
  if b < 0x80 then ⟨b.toNat, 1⟩
  else
    let s := shape b
    match s.size, rest with
    | 2, c :: _ =>
      if s.admits c then ⟨b.toNat % 32 * 64 + payload c, 2⟩ else .invalid
    | 3, c :: d :: _ =>
      if s.admits c && isContinuation d then
        ⟨b.toNat % 16 * 4096 + payload c * 64 + payload d, 3⟩
      else .invalid
    | 4, c :: d :: e :: _ =>
      if s.admits c && isContinuation d && isContinuation e then
        ⟨b.toNat % 8 * 262144 + payload c * 4096 + payload d * 64 + payload e, 4⟩
      else .invalid
    | _, _ => .invalid

/-- The bytes at hand decide how the first code point decodes: more bytes would not change it. An
invalid beginning is already decided. -/
def isComplete : Bytes → Bool
  | [] => false
  | b :: rest =>
    let s := shape b
    if s.size ≤ rest.length + 1 then true
    else
      match rest with
      | [] => false
      | c :: rest' =>
        !s.admits c ||
          match rest' with
          | [] => false
          | d :: _ => !isContinuation d

/-- A decoded code point is at least one byte wide. -/
theorem decode_width_pos (b : UInt8) (rest : Bytes) : 0 < (decode b rest).width := by
  unfold decode
  split
  · simp
  · dsimp only
    split <;> (try split) <;> simp [Scalar.invalid]

/-- All code points of a byte string, in order. -/
def decodeAll : Bytes → List Scalar
  | [] => []
  | b :: rest =>
    let s := decode b rest
    s :: decodeAll (rest.drop (s.width - 1))
termination_by text => text.length
decreasing_by
  simp only [List.length_drop, List.length_cons]
  omega

/-- A byte string which holds no invalid byte. -/
def isValid (text : Bytes) : Bool := (decodeAll text).all (· != .invalid)

/-- The bytes of a code point; a surrogate or a value beyond the last code point is written as the
replacement character. -/
def encode (point : Nat) : Bytes :=
  if point < 0x80 then [point.toUInt8]
  else if point < 0x800 then [(0xC0 + point / 64).toUInt8, (0x80 + point % 64).toUInt8]
  -- surrogates have no bytes of their own
  else if (0xD800 ≤ point ∧ point < 0xE000) ∨ 0x10FFFF < point then [0xEF, 0xBF, 0xBD]
  else if point < 0x10000 then
    [(0xE0 + point / 4096).toUInt8, (0x80 + point / 64 % 64).toUInt8, (0x80 + point % 64).toUInt8]
  else
    [(0xF0 + point / 262144).toUInt8, (0x80 + point / 4096 % 64).toUInt8,
      (0x80 + point / 64 % 64).toUInt8, (0x80 + point % 64).toUInt8]

end Bracket.Utf8
