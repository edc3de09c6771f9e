import Bracket.FiniteStream

/-!
# Looking ahead

A window over a stream shows, besides the current value, a fixed number of values that are still to
come. The slots of the window are filled (`fill`) by the first use, whichever it is: a first `next`
answers with the current value, but after a first `peek` the current value counts as delivered
already, so the following `next` moves on to the second one.

The number of slots is one more than the size of the window and is held in eight bits, so a window
of 255 has no slot at all and every use of it is an error of the caller; `next?` and `peek?` check
this.
-/

namespace Bracket

/-- A stream and the slots of a window over it; there are no slots before the first use. -/
structure Lookahead (σ α : Type) where
  inner : σ
  slots : Option (List (Option α))
  deriving Repr

namespace Lookahead

variable {σ α : Type}

def start (inner : σ) : Lookahead σ α := ⟨inner, none⟩

/-- The slots of the window, filled if this is the first use. -/
def fill (S : FiniteStream σ α) (window : Nat) (l : Lookahead σ α) :
    List (Option α) × Lookahead σ α :=
  match l.slots with
  | some slots => (slots, l)
  | none =>
    let filled := S.calls (window + 1) l.inner
    (filled.1, ⟨filled.2, some filled.1⟩)

/-- The value in a slot; a slot beyond the window is empty. -/
def slot (slots : List (Option α)) (n : Nat) : Option α := (slots[n]?).join

/-- Moves the window to the next value and shows it. -/
def next (S : FiniteStream σ α) (window : Nat) (l : Lookahead σ α) : Option α × Lookahead σ α :=
  match l.slots with
  | none =>
    -- the first use shows the first value, and does not move
    let filled := l.fill S window
    (slot filled.1 0, filled.2)
  | some slots =>
    let step := S.next l.inner
    let moved := slots.tail ++ [step.1]
    (slot moved 0, ⟨step.2, some moved⟩)

/-- The value `n` places after the current one, if the window reaches that far. -/
def peek (S : FiniteStream σ α) (window n : Nat) (l : Lookahead σ α) :
    Option α × Lookahead σ α :=
  let filled := l.fill S window
  -- the window is filled even if it does not reach that far
  (if window < n then none else slot filled.1 n, filled.2)

/-- The eight-bit number of slots is zero. -/
def overflows (window : UInt8) : Bool := window + 1 == 0

/-- `next`, unless the window overflows. -/
def next? (S : FiniteStream σ α) (window : UInt8) (l : Lookahead σ α) :
    Option (Option α × Lookahead σ α) :=
  if overflows window then none else some (l.next S window.toNat)

/-- `peek`, unless the window overflows. -/
def peek? (S : FiniteStream σ α) (window n : UInt8) (l : Lookahead σ α) :
    Option (Option α × Lookahead σ α) :=
  if overflows window then none else some (l.peek S window.toNat n.toNat)

/-! ## The window as a stream -/

/-- The number of values in the slots. -/
def held (slots : List (Option α)) : Nat := slots.countP Option.isSome

/-- What the window can still deliver at most: what the stream still has, and the slots behind the
current one. -/
def size (S : FiniteStream σ α) (l : Lookahead σ α) : Nat :=
  S.size l.inner + held (l.slots.getD []).tail

private theorem size_calls (S : FiniteStream σ α) (n : Nat) (s : σ) :
    S.size (S.calls n s).2 + held (S.calls n s).1 ≤ S.size s := by
  induction n generalizing s with
  | zero => simp [FiniteStream.calls, held]
  | succ n ih =>
    have hs := S.spends s
    have hi := ih (S.next s).2
    simp only [FiniteStream.calls]
    cases ha : (S.next s).1 <;> simp [ha, held] at hs hi ⊢ <;> omega

private theorem held_tail (slots : List (Option α)) :
    held slots.tail + (slot slots 0).toList.length = held slots := by
  cases slots with
  | nil => simp [held, slot]
  | cons a rest => cases a <;> simp [held, slot]

/-- A use of the window never raises the measure, and a shown value lowers it. -/
theorem size_next (S : FiniteStream σ α) (window : Nat) (l : Lookahead σ α) :
    (l.next S window).2.size S + (l.next S window).1.toList.length ≤ l.size S := by
  cases hl : l.slots with
  | none =>
    have hc := size_calls S (window + 1) l.inner
    have ht := held_tail (S.calls (window + 1) l.inner).1
    simp only [next, hl, fill, size, Option.getD]
    simp only [List.tail_nil, held, List.countP_nil] at *
    omega
  | some slots =>
    have hs := S.spends l.inner
    have ht := held_tail (slots.tail ++ [(S.next l.inner).1])
    have ha : held (slots.tail ++ [(S.next l.inner).1]) =
        held slots.tail + (S.next l.inner).1.toList.length := by
      cases (S.next l.inner).1 <;> simp [held]
    simp only [next, hl, size, Option.getD]
    omega

/-- Peeking never raises the measure. -/
theorem size_peek (S : FiniteStream σ α) (window n : Nat) (l : Lookahead σ α) :
    (l.peek S window n).2.size S ≤ l.size S := by
  cases hl : l.slots with
  | none =>
    have hc := size_calls S (window + 1) l.inner
    have ht := held_tail (S.calls (window + 1) l.inner).1
    simp only [peek, fill, hl, size, Option.getD]
    simp only [List.tail_nil, held, List.countP_nil] at *
    omega
  | some slots => simp [peek, fill, hl]

def stream (S : FiniteStream σ α) (window : Nat) : FiniteStream (Lookahead σ α) α where
  next := next S window
  size := size S
  spends := size_next S window

end Lookahead

end Bracket
