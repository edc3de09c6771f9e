import Bracket.Input.Body

/-!
# Files

A file has a path, a kind and bytes. Where the bytes come from may misbehave (`Faults`): opening may
fail after a number of successful opens, and what is opened is a device that may misbehave in turn.
-/

namespace Bracket

/-! ## Kinds -/

/-- What a file holds. -/
inductive FileKind where
  | none
  | brainfuck
  | unknown (code : UInt32)
  deriving DecidableEq, Repr, Inhabited

/-- The kind with a given code. -/
def FileKind.ofCode (code : UInt32) : FileKind :=
  match code with
  | 0 => .none
  | 1 => .brainfuck
  | c => .unknown c

def FileKind.name : FileKind → Bytes
  | .none => bytes "none"
  | .brainfuck => bytes "brainfuck"
  | .unknown code => bytes "unkown-" ++ Bytes.ofNat code.toNat

/-! ## Stored bytes -/

/-- How a stored file misbehaves. -/
structure Faults where
  /-- After so many opens, opening fails. -/
  opening : Option (Nat × Failure)
  /-- After so many bytes, reading breaks down. -/
  reading : Option (Nat × Breakdown)
  /-- No read delivers more than so many bytes. -/
  chunk : Option Nat
  /-- What goes wrong on closing. -/
  closing : Option Failure
  deriving Repr, Inhabited

def Faults.none : Faults := ⟨.none, .none, .none, .none⟩

/-- What the `n`-th open fails with, counting from zero. -/
def Faults.openFailure? (faults : Faults) (n : Nat) : Option Failure :=
  match faults.opening with
  | some (successes, f) => if successes ≤ n then some f else .none
  | .none => .none

/-- The device of a file that was opened. -/
def Faults.device (faults : Faults) (content : Bytes) : Device :=
  ⟨content, faults.reading, faults.chunk, faults.closing⟩

/-- Stored bytes, with the number of times they were opened. -/
structure Stored where
  content : Bytes
  faults : Faults
  opens : Nat
  deriving Repr, Inhabited

/-- Opens stored bytes; every attempt counts. -/
def Stored.open (s : Stored) : Except Failure Device × Stored :=
  (match s.faults.openFailure? s.opens with
    | some f => .error f
    | none => .ok (s.faults.device s.content), { s with opens := s.opens + 1 })

/-! ## Opening a body -/

/-- The body of a file, given what opening it gave. -/
def Body.ofOpened (path : Bytes) : Except Failure Device → Except Failure Body
  | .ok device => .ok (.ofDevice path device)
  | .error f => .error (Diagnosis.ofAccess path f).toFailure

end Bracket
