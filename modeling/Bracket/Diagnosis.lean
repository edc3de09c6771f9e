import Bracket.Failure

/-!
# Diagnoses

A diagnosis is a failure with a code, a message and a location, the form in which failures are
reported to the user. It is made afresh (`new`), from another failure (`wrap`), from several
(`join`), or moved to a better location (`relocate`); none of these hides the code of a cause. What
goes wrong with a path of the file system becomes a diagnosis by `ofAccess`.
-/

namespace Bracket

abbrev Code := Bytes

namespace Code

/-- Any failure without a code of its own. -/
def unknownFatal : Code := bytes "M0000"
/-- A file that is not there. -/
def fileNotFound : Code := bytes "M0001"
/-- An operation that a file system does not have. -/
def unsupportedOperation : Code := bytes "M0002"
/-- A refused access. -/
def permissionDenied : Code := bytes "M0003"
/-- A file of a kind that cannot be compiled. -/
def unsupportedFormat : Code := bytes "M0004"
/-- A symbol that is no instruction. -/
def unexpectedSymbol : Code := bytes "M0100"
/-- A loop that does not open. -/
def missingLeftBracket : Code := bytes "M0101"
/-- A loop that does not close. -/
def missingRightBracket : Code := bytes "M0102"
/-- A sequence without any expression. -/
def emptyExpressionList : Code := bytes "M0103"
/-- Neither a loop nor an instruction. -/
def noViableAlternative : Code := bytes "M0104"
/-- Symbols after the last expression. -/
def trailingInput : Code := bytes "M0105"
/-- The end of a file body. -/
def endOfBody : Code := bytes "_EOF_"

end Code

structure Diagnosis where
  code : Code
  message : Bytes
  location : Location
  causes : List Failure
  deriving Repr, Inhabited

namespace Diagnosis

/-- The diagnosis as a failure. -/
def toFailure (d : Diagnosis) : Failure := .diagnosis d.code d.message d.location d.causes

/-- The failure is itself a diagnosis. -/
def ofFailure? : Failure → Option Diagnosis
  | .diagnosis code message location causes => some ⟨code, message, location, causes⟩
  | _ => none

/-- The first diagnosis in a failure, in pre-order. -/
def first? (f : Failure) : Option Diagnosis := f.find? ofFailure?

/-- A diagnosis without causes. -/
def new (location : Location) (code : Code) (message : Bytes) : Diagnosis :=
  ⟨code, message, location, []⟩

/-- A diagnosis caused by one failure, which also gives the message. -/
def wrap (location : Location) (code : Code) (cause : Failure) : Diagnosis :=
  ⟨code, cause.summary, location, [cause]⟩

/-- A diagnosis of a failure nothing more is known about. -/
def wrapUnknown (location : Location) (cause : Failure) : Diagnosis :=
  wrap location .unknownFatal cause

/-- A diagnosis with several causes; each appends its own message in parentheses. Absent causes are
dropped. -/
def join (location : Location) (code : Code) (message : Bytes) (causes : List (Option Failure)) :
    Diagnosis :=
  let present := causes.filterMap id
  ⟨code, message ++ present.flatMap (fun f => bytes " (" ++ f.summary ++ bytes ")"), location,
    present⟩

/-- The same diagnosis at another location. -/
def relocate (d : Diagnosis) (location : Location) : Diagnosis := { d with location }

def text (d : Diagnosis) : Bytes := Failure.diagnosisText d.code d.message d.location

/-- The failure is itself about a path: the operation, the path and the reason. -/
def pathFailure? : Failure → Option (Bytes × Bytes × Failure)
  | .atPath operation path reason => some (operation, path, reason)
  | _ => none

/-- The code for the reason why a path could not be accessed. -/
def accessCode (reason : Failure) : Code :=
  if reason.hasClass .notExist then .fileNotFound
  else if reason.hasClass .permission then .permissionDenied
  else .unknownFatal

/-- The diagnosis of a failed access to a file system. The first path failure in the tree tells
location and code; without one it is an unknown failure of the path that was asked for. -/
def ofAccess (path : Bytes) (f : Failure) : Diagnosis :=
  match f.find? pathFailure? with
  | some (operation, path, reason) =>
    wrap (.ofUri path) (accessCode reason) (.atPath operation path reason)
  | none => wrapUnknown (.ofUri path) f

/-- The diagnosis that a failure holds, or else a diagnosis of it as an unknown failure of the given
file, which needs a text to tell. -/
def tell? (uri : Bytes) (f : Failure) : Option Diagnosis :=
  match first? f with
  | some d => some d
  | none => f.text?.map fun _ => wrapUnknown (.ofUri uri) f

end Diagnosis

end Bracket
