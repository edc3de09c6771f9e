import Bracket.FiniteStream
import Bracket.Input.Body
import Bracket.Utf8

/-!
# Decoding a body

The code points of a file body as a stream. Bytes are read into a second buffer; before a code point
is decoded the buffer is refilled (`gather`) until it decides that code point or a read fails. A
failure stays pending until the bytes before it are used up, then it ends the stream for good, and
closing the stream (`close`) tells it unless it was the end of the body.

A read that brings no bytes and no failure is repeated, and after a hundred of them in a row the
stream gives up.
-/

namespace Bracket

open Utf8

/-- A body that is being decoded. -/
structure Scalars where
  body : Body
  /-- The bytes in the buffer. -/
  unread : Bytes
  /-- The failure that comes after the buffered bytes. -/
  pending : Option Failure
  /-- The failure that ended the stream. -/
  ended : Option Failure
  deriving Repr, Inhabited

namespace Scalars

/-- The stream at the beginning of a body. -/
def ofBody (body : Body) : Scalars := ⟨body, [], none, none⟩

/-- The number of bytes which were not decoded yet. -/
def remaining (r : Scalars) : Nat := r.unread.length + r.body.remaining

/-- The failure means that the body is at its end. -/
def isEnd (f : Failure) : Bool :=
  f.isEndOfInput || ((Diagnosis.first? f).map (·.code)) == some Code.endOfBody

/-- Refills the buffer by one read, which may be repeated `tries` times while it brings nothing. -/
def fill (cancelled : Bool) : Nat → Scalars → Scalars
  | 0, r => { r with pending := some .noProgress }
  | tries + 1, r =>
    match r.body.read cancelled (bufferSize - r.unread.length) with
    -- what the body calls its end is an ordinary end of input from here on
    | (.failed f, body) => { r with body, pending := some (if isEnd f then .endOfInput else f) }
    | (.data [], body) => fill cancelled tries { r with body }
    | (.data content, body) => { r with body, unread := r.unread ++ content }

/-- How often a read that brings nothing is tried. -/
def maxTries : Nat := 100

/-- The buffer decides the next code point, or no more bytes will come. -/
def isReady (r : Scalars) : Bool :=
  !(r.unread.drop 3).isEmpty || isComplete r.unread || r.pending.isSome

/-- Refills the buffer until it is ready. A refill brings at least one byte or a failure, so no more
are needed than a code point has bytes. -/
def gather (cancelled : Bool) : Nat → Scalars → Scalars
  | 0, r => r
  | n + 1, r => if r.isReady then r else gather cancelled n (fill cancelled maxTries r)

/-- The longest sequence of a code point. -/
def maxWidth : Nat := 4

/-- Decodes the next code point. -/
def next (cancelled : Bool) (r : Scalars) : Option Scalar × Scalars :=
  if r.ended.isSome then (none, r)
  else
    let r := gather cancelled maxWidth r
    match r.unread with
    -- no byte is left, so what is pending ends the stream
    | [] => (none, { r with ended := r.pending, pending := none })
    | b :: rest =>
      let s := decode b rest
      (some s, { r with unread := rest.drop (s.width - 1) })

/-- Closes the body. A failure that ended the stream early goes before one of closing. -/
def close (r : Scalars) : Option Failure :=
  match r.ended with
  | some f => if f.isEndOfInput then r.body.close else some f
  | none => r.body.close

/-! ## The code points as a finite stream -/

/-- Refilling moves bytes from the body to the buffer. -/
theorem remaining_fill (cancelled : Bool) (tries : Nat) (r : Scalars) :
    (fill cancelled tries r).remaining = r.remaining := by
  induction tries generalizing r with
  | zero => rfl
  | succ n ih =>
    have hr := r.body.remaining_read cancelled (bufferSize - r.unread.length)
    unfold fill
    split
    · next hf =>
      simp only [hf, Delivery.content, List.length_nil] at hr
      simp only [remaining]
      omega
    · next hd =>
      simp only [hd, Delivery.content, List.length_nil] at hr
      rw [ih]
      simp only [remaining]
      omega
    · next hd =>
      simp only [hd, Delivery.content] at hr
      simp only [remaining, List.length_append]
      omega

/-- Refilling loses no byte. -/
theorem remaining_gather (cancelled : Bool) (n : Nat) (r : Scalars) :
    (gather cancelled n r).remaining = r.remaining := by
  induction n generalizing r with
  | zero => rfl
  | succ n ih =>
    unfold gather
    split
    · rfl
    · rw [ih, remaining_fill]

/-- A decoded code point uses up at least one byte. -/
theorem remaining_next (cancelled : Bool) (r : Scalars) :
    (next cancelled r).2.remaining + (next cancelled r).1.toList.length ≤ r.remaining := by
  have hg := remaining_gather cancelled maxWidth r
  unfold next
  split
  · simp
  · dsimp only
    split
    · next hu =>
      simp only [remaining, hu, List.length_nil, Option.toList_none] at hg ⊢
      omega
    · next b rest hu =>
      simp only [remaining, hu, List.length_cons, Option.toList_some, List.length_nil,
        List.length_drop] at hg ⊢
      omega

/-- The code points of a body as a stream. -/
def stream (cancelled : Bool) : FiniteStream Scalars Scalar where
  next := next cancelled
  size := remaining
  spends := remaining_next cancelled

end Scalars

end Bracket
