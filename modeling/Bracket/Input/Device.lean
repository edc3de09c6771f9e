import Bracket.Failure

/-!
# Devices

A device delivers the bytes of a file, piece by piece. A read asks for at most so many bytes and
gets some of them, or a failure, of which the end of input is one. A device may misbehave: it may
deliver in small pieces, fail or stall after a number of bytes (`Breakdown`), and fail to close.
-/

namespace Bracket

/-- The answer to one read: some bytes, possibly none, or a failure. -/
inductive Delivery where
  | data (content : Bytes)
  | failed (failure : Failure)
  deriving Repr, Inhabited

def Delivery.content : Delivery → Bytes
  | data content => content
  | failed _ => []

/-- What a broken device does instead of delivering. -/
inductive Breakdown where
  /-- Every read is answered with no bytes and no failure. -/
  | stall
  /-- Every read fails. -/
  | fail (failure : Failure)
  deriving Repr, Inhabited

/-- An open file. -/
structure Device where
  /-- The bytes that are still to come. -/
  content : Bytes
  /-- After so many more bytes the device breaks down. -/
  breakdown : Option (Nat × Breakdown)
  /-- No read delivers more than so many bytes. -/
  chunk : Option Nat
  /-- What goes wrong on closing. -/
  closing : Option Failure
  deriving Repr, Inhabited

namespace Device

/-- A device that delivers its content and never fails. -/
def ofContent (content : Bytes) : Device := ⟨content, none, none, none⟩

/-- The most that a read of `n` bytes can deliver. -/
def most (d : Device) (n : Nat) : Nat :=
  let n := match d.breakdown with
    | some (left, _) => min n left
    | none => n
  match d.chunk with
  | some k => min n k
  | none => n

/-- Reads at most `n` bytes. A broken device stays broken; otherwise the end of the content is the
end of input. -/
def read (d : Device) (n : Nat) : Delivery × Device :=
  match d.breakdown with
  | some (0, .stall) => (.data [], d)
  | some (0, .fail f) => (.failed f, d)
  | _ =>
    match d.content with
    | [] => (.failed .endOfInput, d)
    | content =>
      let delivered := content.take (d.most n)
      (.data delivered,
        { d with
          content := content.drop (d.most n)
          breakdown := d.breakdown.map fun (left, b) => (left - delivered.length, b) })

/-- What is delivered is no longer to come. -/
theorem length_read (d : Device) (n : Nat) :
    (d.read n).2.content.length + (d.read n).1.content.length = d.content.length := by
  unfold read
  split
  · simp [Delivery.content]
  · simp [Delivery.content]
  · split
    · simp [Delivery.content]
    · simp only [Delivery.content, List.length_drop, List.length_take]
      omega

end Device

end Bracket
