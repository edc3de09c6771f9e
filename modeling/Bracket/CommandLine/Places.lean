import Bracket.CommandLine

/-!
# Places of a command

A command is run on a disk that holds what it looks at. `places` are the paths of the disk that
matter to it: what its targets stand for below each root, and where the image is written to. A
directory matters together with its entries.
-/

namespace Bracket.CommandLine

/-- The roots that a command searches, in order. -/
def rootsOf (call : Invocation) (options : Options) : List Bytes :=
  (options.roots ++ call.environment.defaultRoots).map (Path.absolute call.workingDirectory)

/-- Where a target is searched for below a root. -/
def targetPlace (target root : Bytes) : Bytes :=
  Path.join [root, Volume.nameOf (Target.path (Target.normalize target))]

/-- Where the image is written to. -/
def outputPlaces (call : Invocation) (output : Bytes) : List Bytes :=
  if output = [] ∨ output = Output.printing then []
  else
    let path := Path.absolute call.workingDirectory output
    [FileSystem.placeOf (Path.directory path) (Path.base path)]

/-- The paths that matter to a command. -/
def places (call : Invocation) : List Bytes :=
  match parseArguments .defaults call.arguments with
  | .error _ => []
  | .ok (options, targets) =>
    targets.flatMap (fun target => (rootsOf call options).map (targetPlace target)) ++
      outputPlaces call options.output

end Bracket.CommandLine
