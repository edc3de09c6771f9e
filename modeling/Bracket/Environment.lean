import Bracket.Path

/-!
# Environment variables and default roots

The default roots (`defaultRoots`) are directories named after the program inside the shared data
directories of the system, which an environment variable lists. Variables inside those directories
are expanded (`expand`) after the program's name was appended, so they cannot swallow it.
-/

namespace Bracket

/-- The variables of an environment and their values. -/
abbrev Environment := List (Bytes × Bytes)

namespace Environment

/-- The value of a variable. -/
def lookup? (env : Environment) (name : Bytes) : Option Bytes := List.lookup name env

/-- The value of a variable, empty if it is not set. -/
def value (env : Environment) (name : Bytes) : Bytes := (env.lookup? name).getD []

/-! ## Expansion -/

/-- The variables with a name of one special character. -/
def isSpecialName (b : UInt8) : Bool := Bytes.isDigit b || (bytes "*#$@!?-").contains b

def isNameByte (b : UInt8) : Bool := Bytes.isLetter b || Bytes.isDigit b || b = 0x5F

/-- What stands behind a dollar sign. -/
inductive Variable where
  /-- A name, and how many bytes it takes with its braces. -/
  | named (name : Bytes) (width : Nat)
  /-- No name: the dollar sign stands for itself. -/
  | none
  /-- Malformed braces, which are dropped with the dollar sign. -/
  | malformed (width : Nat)
  deriving DecidableEq, Repr

/-- The variable named behind a dollar sign. -/
def variableAt (text : Bytes) : Variable :=
  match text with
  | [] => .none
  | 0x7B :: inside =>
    match inside with
    | [] => .malformed 1
    | c :: rest =>
      if isSpecialName c && rest.head? == some 0x7D then .named [c] 3
      else
        match Bytes.cut 0x7D inside with
        -- `${}` is dropped as a whole
        | some ([], _) => .malformed 2
        | some (name, _) => .named name (name.length + 2)
        -- without a closing brace only `${` is dropped
        | none => .malformed 1
  | c :: _ =>
    if isSpecialName c then .named [c] 1
    else
      match text.takeWhile isNameByte with
      | [] => .none
      | name => .named name name.length

/-- The text with every variable replaced by its value. -/
def expand (env : Environment) : Bytes → Bytes
  | [] => []
  | b :: rest =>
    if b = 0x24 ∧ rest ≠ [] then
      match variableAt rest with
      | .named name width => env.value name ++ env.expand (rest.drop width)
      | .none => b :: env.expand rest
      | .malformed width => env.expand (rest.drop width)
    else b :: env.expand rest
termination_by text => text.length
decreasing_by
  all_goals simp only [List.length_drop, List.length_cons]
  all_goals omega

/-- The names of the variables in a text, in order. -/
def namesIn : Bytes → List Bytes
  | [] => []
  | b :: rest =>
    if b = 0x24 ∧ rest ≠ [] then
      match variableAt rest with
      | .named name width => name :: namesIn (rest.drop width)
      | .none => namesIn rest
      | .malformed width => namesIn (rest.drop width)
    else namesIn rest
termination_by text => text.length
decreasing_by
  all_goals simp only [List.length_drop, List.length_cons]
  all_goals omega

/-! ## Default roots -/

/-- The variable that lists the data directories. -/
def dataDirectories : Bytes := bytes "XDG_DATA_DIRS"

/-- The data directories of a system that does not list them. -/
def defaultDataDirectories : Bytes := bytes "/usr/local/share/:/usr/share/"

/-- The name of the program's directory inside a data directory. -/
def programDirectory : Bytes := bytes "bfc"

/-- The program's directory inside a data directory, with variables expanded. -/
def rootIn (env : Environment) (directory : Bytes) : Bytes :=
  env.expand (Path.join [directory, programDirectory])

/-- The default roots, in order: one for each data directory that is not empty. -/
def defaultRoots (env : Environment) : List Bytes :=
  let listed := match env.value dataDirectories with
    | [] => defaultDataDirectories
    | directories => directories
  ((Bytes.splitOn 0x3A listed).filter (! ·.isEmpty)).map env.rootIn

end Environment

end Bracket
