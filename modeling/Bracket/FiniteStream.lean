import Bracket.Failure

/-!
# Finite streams

A stream answers each call with a value or with nothing. Nothing does not have to be the end: a
later call may bring values again. What makes a stream finite is a measure of its state which every
delivered value lowers, so that reading until nothing comes (`drain`, `collect`) is a total
function.
-/

namespace Bracket

/-- A stream of values of type `α` with states of type `σ`. -/
structure FiniteStream (σ α : Type) where
  /-- One call: the delivered value, if any, and the state after it. -/
  next : σ → Option α × σ
  /-- How much the stream can still deliver at most. -/
  size : σ → Nat
  /-- A call never raises the measure, and a delivered value lowers it. -/
  spends : ∀ s, size (next s).2 + (next s).1.toList.length ≤ size s

namespace FiniteStream

variable {σ α : Type}

/-- A delivered value lowers the measure. -/
theorem size_lt_of_next (S : FiniteStream σ α) {s t : σ} {a : α} (h : S.next s = (some a, t)) :
    S.size t < S.size s := by
  have := S.spends s
  simp [h] at this
  omega

/-- The values of a list, in order, and then nothing for ever. -/
def ofList (α : Type) : FiniteStream (List α) α where
  next
    | [] => (none, [])
    | a :: rest => (some a, rest)
  size := List.length
  spends
    | [] => by simp
    | _ :: _ => by simp

/-- The same stream with a record of the values delivered so far, last first. -/
def recorded (S : FiniteStream σ α) : FiniteStream (σ × List α) α where
  next s :=
    let step := S.next s.1
    (step.1, (step.2, step.1.toList ++ s.2))
  size s := S.size s.1
  spends s := S.spends s.1

/-- The same stream with a count of the calls so far. -/
def counted (S : FiniteStream σ α) : FiniteStream (σ × Nat) α where
  next s :=
    let step := S.next s.1
    (step.1, (step.2, s.2 + 1))
  size s := S.size s.1
  spends s := S.spends s.1

/-- The answers of exactly `n` calls. -/
def calls (S : FiniteStream σ α) : Nat → σ → List (Option α) × σ
  | 0, s => ([], s)
  | n + 1, s =>
    let step := S.next s
    let rest := S.calls n step.2
    (step.1 :: rest.1, rest.2)

/-- The values before the first call that brings nothing. -/
def drain (S : FiniteStream σ α) (s : σ) : List α × σ :=
  match h : S.next s with
  | (none, t) => ([], t)
  | (some a, t) =>
    have := S.size_lt_of_next h
    let rest := S.drain t
    (a :: rest.1, rest.2)
termination_by S.size s

/-- Drains a stream and closes it. The caller may give up at any time, which is noticed after each
delivered value; then what was delivered is lost, and so it is when closing fails. -/
def collect (S : FiniteStream σ α) (cancelled : σ → Bool) (close : σ → Option Failure) (s : σ) :
    Except Failure (List α) × σ :=
  match h : S.next s with
  | (none, t) =>
    (match close t with
      | none => .ok []
      | some f => .error f, t)
  | (some a, t) =>
    have := S.size_lt_of_next h
    if cancelled t then (.error .cancelled, t)
    else
      let rest := S.collect cancelled close t
      (rest.1.map (a :: ·), rest.2)
termination_by S.size s

end FiniteStream

end Bracket
