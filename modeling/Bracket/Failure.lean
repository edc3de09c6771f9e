import Bracket.Location

/-!
# Failures

Everything that can go wrong is one tree of causes. The leaves are plain failures, some of which
belong to a class that callers ask for (the end of input, a missing file, a refused access); the
inner nodes add a label, a path, or a diagnosis with code and location, or hold several causes at
once. A bundle of diagnoses is the answer of a whole compilation: it has a text but is opaque to
every search.

Searches (`find?`, `hasCode`, `hasClass`) go through the tree in pre-order, parents before causes
and causes in order.

## Shape of the text

* a labelled failure reads `label: cause`;
* joined failures stand on lines of their own;
* a path failure reads `operation path: reason`;
* a diagnosis reads `uri:line:column -- code: message`;
* a bundle reads as its diagnoses with `; ` between them. An empty bundle has no text.
-/

namespace Bracket

/-- The classes of plain failures that callers distinguish. -/
inductive FailureClass where
  | other
  | endOfInput
  | notExist
  | permission
  deriving DecidableEq, Repr, Inhabited

/-- A tree of causes. -/
inductive Failure where
  /-- A failure without further causes. -/
  | plain (kind : FailureClass) (text : Bytes)
  /-- A cause with a label in front. -/
  | labelled (label : Bytes) (cause : Failure)
  /-- Several causes at once. -/
  | joined (causes : List Failure)
  /-- An operation on a path which failed for the given reason. -/
  | atPath (operation path : Bytes) (reason : Failure)
  /-- The diagnoses of a whole compilation. -/
  | bundle (members : List Failure)
  /-- A diagnosis: code, message and location, and the causes that led to it. -/
  | diagnosis (code message : Bytes) (location : Location) (causes : List Failure)
  deriving Repr, Inhabited

namespace Failure

def endOfInput : Failure := .plain .endOfInput (bytes "EOF")

def cancelled : Failure := .plain .other (bytes "context canceled")

/-- A reader delivered nothing, again and again. -/
def noProgress : Failure :=
  .plain .other (bytes "multiple Read calls return no data or error")

/-- A failure known only by its text. -/
def ofText (text : Bytes) : Failure := .plain .other text

/-! ## Text -/

/-- What stands for the text of a cause which has none. -/
def untold : Bytes :=
  bytes "%!v(PANIC=Error method: runtime error: slice bounds out of range [:-1])"

/-- The text of a diagnosis. -/
def diagnosisText (code message : Bytes) (location : Location) : Bytes :=
  location.uri ++ bytes ":" ++ Bytes.ofInt location.position.line.toInt ++ bytes ":" ++
    Bytes.ofInt location.position.column.toInt ++ bytes " -- " ++ code ++ bytes ": " ++ message

mutual

/-- The text of a failure. It has none if it is an empty bundle, or joins or names one; a label
hides the gap. -/
def text? : Failure → Option Bytes
  | .plain _ text => some text
  | .labelled label cause => some (label ++ bytes ": " ++ cause.text?.getD untold)
  | .joined causes => (texts? causes).map (List.intercalate (bytes "\n"))
  | .atPath operation path reason =>
    reason.text?.map fun text => operation ++ bytes " " ++ path ++ bytes ": " ++ text
  | .bundle [] => none
  | .bundle members => (texts? members).map (List.intercalate (bytes "; "))
  | .diagnosis code message location _ => some (diagnosisText code message location)

/-- The texts of several failures, if each has one. -/
def texts? : List Failure → Option (List Bytes)
  | [] => some []
  | f :: rest => do return (← f.text?) :: (← texts? rest)

end

/-- The text of a failure, empty if it has none. -/
def text (f : Failure) : Bytes := f.text?.getD []

/-- What a diagnosis made from this failure says: the message of a diagnosis, the text of any other
failure. -/
def summary : Failure → Bytes
  | .diagnosis _ message _ _ => message
  | f => f.text

/-! ## Searches -/

mutual

/-- The first answer of `probe` in pre-order. -/
def find? {α : Type} (probe : Failure → Option α) (f : Failure) : Option α :=
  match probe f with
  | some a => some a
  | none =>
    match f with
    | .plain _ _ | .bundle _ => none
    | .labelled _ cause => cause.find? probe
    | .atPath _ _ reason => reason.find? probe
    | .joined causes | .diagnosis _ _ _ causes => findAny? probe causes

/-- The first answer of `probe` in any of the failures, in order. -/
def findAny? {α : Type} (probe : Failure → Option α) : List Failure → Option α
  | [] => none
  | f :: rest =>
    match f.find? probe with
    | some a => some a
    | none => findAny? probe rest

end

mutual

/-- The failure, or one of its causes at any depth, is a diagnosis with the given code. -/
def hasCode (code : Bytes) : Failure → Bool
  | .plain _ _ | .bundle _ => false
  | .labelled _ cause => cause.hasCode code
  | .atPath _ _ reason => reason.hasCode code
  | .joined causes => anyHasCode code causes
  | .diagnosis c _ _ causes => c == code || anyHasCode code causes

/-- One of the failures has the given code. -/
def anyHasCode (code : Bytes) : List Failure → Bool
  | [] => false
  | f :: rest => f.hasCode code || anyHasCode code rest

end

mutual

/-- The failure, or one of its causes at any depth, is a plain failure of the given class. -/
def hasClass (kind : FailureClass) : Failure → Bool
  | .plain k _ => k == kind
  | .bundle _ => false
  | .labelled _ cause => cause.hasClass kind
  | .atPath _ _ reason => reason.hasClass kind
  | .joined causes | .diagnosis _ _ _ causes => anyHasClass kind causes

/-- One of the failures is or holds a plain failure of the given class. -/
def anyHasClass (kind : FailureClass) : List Failure → Bool
  | [] => false
  | f :: rest => f.hasClass kind || anyHasClass kind rest

end

/-- The failure is, or was caused by, the end of input. -/
def isEndOfInput (f : Failure) : Bool := f.hasClass .endOfInput

/-- The failures that remain when absent ones are dropped, as one failure. -/
def join? (causes : List (Option Failure)) : Option Failure :=
  match causes.filterMap id with
  | [] => none
  | present => some (.joined present)

end Failure

end Bracket
