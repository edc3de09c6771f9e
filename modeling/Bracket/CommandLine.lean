import Bracket.CommandLine.Flags
import Bracket.Compilation
import Bracket.FileSystem.Search
import Bracket.Image.Encode
import Bracket.Output

/-!
# The command

The command (`CommandLine.run`) reads its arguments (`CommandLine.Flags`), compiles its targets and
the programs among its flags, and writes the image if it is told where to (`writeImage`). Dumps and
a printed image go to the output; log lines, diagnoses and complaints go to the errors. The command
ends with 0 if all went well, with 1 if there is something to report or the image could not be
written, and with 2 if it could not be understood. With nothing to compile, or with a failure that
cannot be reported, it crashes.
-/

namespace Bracket.CommandLine

structure Invocation where
  arguments : List Bytes
  environment : Environment
  workingDirectory : Bytes
  /-- What stands for the time on log lines. -/
  time : Bytes
  deriving Repr, Inhabited

structure Ending where
  exit : Nat
  crashed : Bool
  output : Bytes
  errors : Bytes
  disk : Disk
  deriving Repr, Inhabited

namespace Ending

def fine (disk : Disk) : Ending := ⟨0, false, [], [], disk⟩

/-- The command could not be understood. -/
def misused (disk : Disk) (output errors : Bytes) : Ending := ⟨2, false, output, errors, disk⟩

def complain (e : Ending) (complaints : List Bytes) : Ending :=
  { e with exit := 1, errors := e.errors ++ complaints.flatMap (· ++ bytes "\n") }

def crash (e : Ending) : Ending := { e with exit := 2, crashed := true }

end Ending

/-- The name of a program among the flags. -/
def expressionName (index : Nat) : Bytes := bytes "expr-" ++ Bytes.ofNat index

def requestOf (options : Options) (targets : List Bytes) : Request where
  targets := targets
  inline := options.expressions.zipIdx.map fun (text, index) => (expressionName index, text)
  dumpTokens := options.dumpTokens
  dumpTree := options.dumpTree
  cancelled := false

/-- Writes the image if the options say where to. -/
def writeImage (call : Invocation) (options : Options) (image : Image) (e : Ending) : Ending :=
  if options.output = [] then e
  else
    match image.encodeAs options.treeFormat with
    | .error f => e.complain [f.text]
    | .ok content =>
      let written := Output.write call.workingDirectory options.output content ⟨e.disk, []⟩
      let e := { e with output := e.output ++ written.printed, disk := written.storage.disk }
      match written.failure? with
      | some f => e.complain [f.text]
      | none => e

/-- What the compilation left behind so far: the dumps on the output and the log lines that pass the
threshold on the errors. -/
def soFar (call : Invocation) (threshold : Log.Level) (p : Progress Storage) : Ending where
  exit := 0
  crashed := false
  output := p.dumps.flatten
  errors := (p.events.filter fun event => event.level.passes threshold).flatMap (·.line call.time)
  disk := p.storage.disk

def compile (call : Invocation) (options : Options) (threshold : Log.Level)
    (targets : List Bytes) (disk : Disk) : Ending :=
  let fs := FileSystem.search call.workingDirectory call.environment options.roots
  match Compilation.run fs (requestOf options targets) (.start ⟨disk, []⟩ (.empty [])) with
  | (some (.finished image []), p) => writeImage call options image (soFar call threshold p)
  | (some (.finished _ reported), p) =>
    (soFar call threshold p).complain (reported.map (·.text))
  | (some (.stopped _), p) | (none, p) => (soFar call threshold p).crash

/-- Runs the command on a disk. -/
def run (call : Invocation) (disk : Disk) : Ending :=
  match parseArguments .defaults call.arguments with
  | .error refusal =>
    .misused disk (refusal.message ++ bytes "\n")
      ((refusal.notice.map (· ++ bytes "\n")).getD [] ++ usage)
  | .ok (options, targets) =>
    match Log.Level.parse options.logLevel with
    | .error complaint => .misused disk [] (complaint ++ bytes "\n")
    | .ok threshold =>
      if targets = [] ∧ options.expressions = [] then
        (Ending.misused disk [] (bytes "bfc: nothing to parse\n")).crash
      else compile call options threshold targets disk

end Bracket.CommandLine
