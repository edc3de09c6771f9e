import Bracket.Diagnosis
import Bracket.Input.Device

/-!
# File bodies

The body of an open file hands out its bytes (`read`) in pieces of the caller's choice. It reads
ahead into a buffer: a small read is served from the buffer, which one read of the device refills
when it is empty; a read at least as large as the buffer goes past an empty buffer to the device.
Either way one read of the body takes at most one read of the device, so it may return less than was
asked for.

The end of the body is a diagnosis with its own code (`Code.endOfBody`), caused by the device's end
of input; all other failures of the device become diagnoses of unknown failures.
-/

namespace Bracket

/-- An open file, read through a buffer. -/
structure Body where
  /-- The path of the file, the location of all its diagnoses. -/
  uri : Bytes
  /-- The bytes in the buffer. -/
  unread : Bytes
  device : Device
  deriving Repr, Inhabited

def bufferSize : Nat := 4096

namespace Body

/-- The body of a freshly opened file. -/
def ofDevice (uri : Bytes) (device : Device) : Body := ⟨uri, [], device⟩

/-- The number of bytes which the body can still hand out at most. -/
def remaining (b : Body) : Nat := b.unread.length + b.device.content.length

/-- Hands out at most `n` bytes. -/
def fetch (b : Body) (n : Nat) : Delivery × Body :=
  if n = 0 then (.data [], b)
  else if b.unread ≠ [] then (.data (b.unread.take n), { b with unread := b.unread.drop n })
  -- the buffer is empty, and would not help
  else if bufferSize ≤ n then
    match b.device.read n with
    | (delivery, device) => (delivery, { b with device })
  else
    match b.device.read bufferSize with
    | (.failed f, device) => (.failed f, { b with device })
    | (.data content, device) =>
      (.data (content.take n), { b with unread := content.drop n, device })

def diagnose (b : Body) (f : Failure) : Diagnosis :=
  if f.isEndOfInput then .wrap (.ofUri b.uri) .endOfBody f else .wrapUnknown (.ofUri b.uri) f

/-- Reads at most `n` bytes, unless the caller has given up. -/
def read (b : Body) (cancelled : Bool) (n : Nat) : Delivery × Body :=
  if cancelled then (.failed .cancelled, b)
  else
    match b.fetch n with
    | (.data content, b') => (.data content, b')
    | (.failed f, b') => (.failed (b.diagnose f).toFailure, b')

/-- `read` for a size that may be negative, which is an error of the caller. -/
def read? (b : Body) (cancelled : Bool) (size : Int) : Option (Delivery × Body) :=
  if size < 0 ∧ cancelled = false then none else some (b.read cancelled size.toNat)

def close (b : Body) : Option Failure := b.device.closing

/-- What is handed out does no longer remain. -/
theorem remaining_fetch (b : Body) (n : Nat) :
    (b.fetch n).2.remaining + (b.fetch n).1.content.length = b.remaining := by
  unfold fetch
  split
  · simp [Delivery.content]
  · split
    · simp only [remaining, Delivery.content, List.length_drop, List.length_take]
      omega
    · split
      · have := b.device.length_read n
        simp only [remaining]
        omega
      · have := b.device.length_read bufferSize
        split
        · next hf =>
          simp only [hf, Delivery.content, List.length_nil] at this
          simp only [remaining, Delivery.content, List.length_nil]
          omega
        · next content _ hd =>
          have hu : b.unread = [] := by simp_all
          simp only [hd, Delivery.content] at this
          simp only [remaining, hu, Delivery.content, List.length_drop, List.length_take,
            List.length_nil]
          omega

/-- What is read does no longer remain. -/
theorem remaining_read (b : Body) (cancelled : Bool) (n : Nat) :
    (b.read cancelled n).2.remaining + (b.read cancelled n).1.content.length = b.remaining := by
  unfold read
  split
  · simp [Delivery.content]
  · have := b.remaining_fetch n
    split
    · next hd => simpa [hd] using this
    · next hf => simpa [hf, Delivery.content] using this

end Body

end Bracket
