import Bracket.Diagnosis

/-!
# Reports

A report collects the diagnoses of a compilation. Some codes are not fatal (`isFatal`): their
diagnoses are kept like all others, but whoever reports them may go on. Diagnoses arrive in any
order and are listed (`listed`) by name of the file and then by offset, so that the list does not
depend on the order of arrival except among diagnoses of the same place.
-/

namespace Bracket

/-- The diagnoses that arrived so far, in order of arrival, and the codes that are not fatal. -/
structure Report where
  nonFatal : List Code
  arrived : List Diagnosis
  deriving Repr, Inhabited

namespace Report

def empty (nonFatal : List Code) : Report := ⟨nonFatal, []⟩

/-- Diagnoses with this code stop whoever reports them. -/
def isFatal (report : Report) (code : Code) : Bool := !report.nonFatal.contains code

def add (report : Report) (d : Diagnosis) : Report :=
  { report with arrived := report.arrived ++ [d] }

/-- Reports a diagnosis and hands it back if it is fatal. -/
def submit (report : Report) (d : Diagnosis) : Option Diagnosis × Report :=
  (if report.isFatal d.code then some d else none, report.add d)

/-- The listing order: by name of the file bytewise, then by offset. -/
def before (a b : Diagnosis) : Bool :=
  if a.location.uri = b.location.uri then
    decide (a.location.position.offset.toInt ≤ b.location.position.offset.toInt)
  else Bytes.le a.location.uri b.location.uri

/-- The diagnoses in listing order; those of the same place stay in order of arrival. -/
def listed (report : Report) : List Diagnosis := report.arrived.mergeSort before

end Report

end Bracket
