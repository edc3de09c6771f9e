import Bracket.FileSystem
import Bracket.Image
import Bracket.Log.Event
import Bracket.Target

/-!
# Compilations

A compilation (`Compilation.run`) takes targets and inline programs to an image. It has three
stages:

* **select** (`openTarget`, `sift`): every target is opened, and the files it stands for are
  selected. A target that cannot be opened, or that names a file which is no source, is reported;
  other files that are no sources are skipped. Inline programs are files too, in order of their
  names.
* **work** (`parseFile`): each file is parsed, once for each path. A worker leaves a result behind,
  and may report a diagnosis, write dumps and tell events.
* **gather** (`imageOf`): the modules among the results make up the image, one for each name and in
  order of their names. A result that failed without any diagnosis stops the compilation.

Workers are independent of each other but for the paths that are already taken. They are run here in
the order of the files; that every other order is as good is proved in
`Proofs/Compilation/Schedule`.

A compilation that is not stopped answers with an image even if there is something to report. A
failure to open or to read a file which was selected is neither reported nor answered.
-/

namespace Bracket

structure Request where
  targets : List Bytes
  /-- Programs with their names, each name at most once. -/
  inline : List (Bytes × Bytes)
  dumpTokens : Bool
  dumpTree : Bool
  /-- The caller has already given up. -/
  cancelled : Bool
  deriving Repr, Inhabited

inductive Answer where
  /-- The compilation was stopped. -/
  | stopped (failure : Failure)
  /-- An image, and everything that was reported. -/
  | finished (image : Image) (reported : List Diagnosis)
  deriving Repr, Inhabited

/-- The failure that an answer holds. -/
def Answer.failure? : Answer → Option Failure
  | .stopped failure => some failure
  | .finished _ [] => none
  | .finished _ reported => some (.bundle (reported.map (·.toFailure)))

/-! ## Progress -/

/-- How far a compilation has come: the state of the file system, the report, and what was told and
dumped so far, in order. -/
structure Progress (σ : Type) where
  storage : σ
  report : Report
  events : List Log.Event
  dumps : List Bytes

namespace Progress

variable {σ : Type}

/-- The start of a compilation; the report may hold what was reported before. -/
def start (storage : σ) (report : Report) : Progress σ := ⟨storage, report, [], []⟩

def tell (p : Progress σ) (event : Log.Event) : Progress σ :=
  { p with events := p.events ++ [event] }

/-- Reports a diagnosis. -/
def add (p : Progress σ) (d : Diagnosis) : Progress σ :=
  { p with report := p.report.add d }

end Progress

namespace Compilation

variable {σ : Type}

/-- The diagnosis of a file that is no source. -/
def unsupported (path : Bytes) : Diagnosis :=
  .new (.ofUri path) .unsupportedFormat (bytes "Unsupported file format")

/-! ## Select -/

/-- Selects among the files that a name stands for. -/
def sift (uri : Bytes) : List (File σ) → Progress σ → List (File σ) × Progress σ
  | [], p => ([], p)
  | file :: rest, p =>
    if file.kind = .none then
      sift uri rest
        -- only the file that was asked for by its own name is reported
        (if file.path = uri then p.add (unsupported uri) else p.tell (.skipped file.path))
    else
      match sift uri rest p with
      | (selected, p) => (file :: selected, p)

/-- Opens a target and selects among its files. There is no answer if the file system failed with
something that cannot be told. -/
def openTarget (fs : FileSystem σ) (target : Bytes) (p : Progress σ) :
    Option (List (File σ)) × Progress σ :=
  let uri := Target.normalize target
  match fs.resolve uri p.storage with
  | (.ok files, storage) =>
    match sift uri files { p with storage } with
    | (selected, p) => (some selected, p)
  | (.error f, storage) =>
    match Diagnosis.tell? uri f with
    | some d => (some [], { p with storage }.add d)
    | none => (none, { p with storage })

def openTargets (fs : FileSystem σ) : List Bytes → Progress σ →
    Option (List (File σ)) × Progress σ
  | [], p => (some [], p)
  | target :: rest, p =>
    match openTarget fs target p with
    | (none, p) => (none, p)
    | (some files, p) =>
      match openTargets fs rest p with
      | (none, p) => (none, p)
      | (some more, p) => (some (files ++ more), p)

/-- The files of inline programs, in order of their names. -/
def inlineFiles (request : Request) : List (File σ) :=
  (request.inline.mergeSort fun a b => Bytes.le a.1 b.1).map fun (name, content) =>
    .ofContent (Target.normalize name) .brainfuck content

/-- The files of a request. -/
def select (fs : FileSystem σ) (request : Request) (p : Progress σ) :
    Option (List (File σ)) × Progress σ :=
  match openTargets fs request.targets p with
  | (none, p) => (none, p)
  | (some files, p) => (some (files ++ inlineFiles request), p)

/-! ## Work -/

/-- What a worker leaves behind: a module, a failure, or neither. -/
structure Result where
  module? : Option Module
  failure? : Option Failure
  deriving Repr, Inhabited

/-- The dumps of a parsed file: its tokens as far as they were read, then its outline. -/
def dumpsOf (request : Request) (path : Bytes) (parsed : Parsed) (tokens : List Token) :
    List Bytes :=
  (if request.dumpTokens then tokens.map (Token.line path) else []) ++
    if request.dumpTree then parsed.module?.toList.map Module.outline else []

def eventsOf (parsed : Parsed) : List Log.Event :=
  parsed.module?.toList.map fun m => .parsed m.uri m.program.stats

def parseFile (request : Request) (file : File σ) (p : Progress σ) : Result × Progress σ :=
  match file.body p.storage with
  | (opened, storage) =>
    match Module.ofBody request.cancelled file.path p.report opened with
    | (parsed, tokens) =>
      (⟨parsed.module?, parsed.failure?⟩,
        { storage
          report := parsed.report
          events := p.events ++ eventsOf parsed
          dumps := p.dumps ++ dumpsOf request file.path parsed tokens })

/-- Reports a file of a kind that cannot be compiled. -/
def refuseFile (file : File σ) (p : Progress σ) : Result × Progress σ :=
  match p.report.submit (unsupported file.path) with
  | (fatal?, report) => (⟨none, fatal?.map (·.toFailure)⟩, { p with report })

/-- The work on one file, given the paths that are already taken. -/
def work (request : Request) (file : File σ) (taken : List Bytes) (p : Progress σ) :
    Result × List Bytes × Progress σ :=
  if request.cancelled then (⟨none, some .cancelled⟩, taken, p)
  -- another worker has this path, and its result counts
  else if taken.contains file.path then (⟨none, none⟩, taken, p)
  else
    match if file.kind = .brainfuck then parseFile request file p else refuseFile file p with
    | (result, p) => (result, file.path :: taken, p)

/-- The work on several files, one after the other. -/
def workAll (request : Request) : List (File σ) → List Bytes → Progress σ →
    List Result × Progress σ
  | [], _, p => ([], p)
  | file :: rest, taken, p =>
    match work request file taken p with
    | (result, taken, p) =>
      match workAll request rest taken p with
      | (results, p) => (result :: results, p)

/-! ## Gather -/

/-- The modules among the results, unless one of them failed without a diagnosis. -/
def gather : List Result → Except Failure (List Module)
  | [] => .ok []
  | result :: rest =>
    match result.failure? with
    | none => (gather rest).map (result.module?.toList ++ ·)
    | some f =>
      match Diagnosis.first? f with
      -- taken for reported already, whether or not it was
      | some _ => gather rest
      | none => .error f

/-- The modules whose name no earlier one has, nor one that is already included. -/
def distinct (included : List Bytes) : List Module → List Module
  | [] => []
  | m :: rest =>
    if included.contains m.uri then distinct included rest
    else m :: distinct (m.uri :: included) rest

/-- The image of modules, one for each name and in order of their names. -/
def imageOf (modules : List Module) : Image :=
  ⟨(distinct [] modules).mergeSort fun a b => Bytes.le a.uri b.uri⟩

def answer (results : List Result) (p : Progress σ) : Answer × Progress σ :=
  match gather results with
  | .error f => (.stopped f, p)
  | .ok modules =>
    let image := imageOf modules
    (.finished image p.report.listed, p.tell (.compiled results.length image.modules.length))

/-! ## All of it -/

/-- Compiles a request. There is no answer if the file system failed with something that cannot be
told. -/
def run (fs : FileSystem σ) (request : Request) (p : Progress σ) : Option Answer × Progress σ :=
  match select fs request p with
  | (none, p) => (none, p)
  | (some files, p) =>
    match workAll request files [] p with
    | (results, p) =>
      match answer results p with
      | (a, p) => (some a, p)

end Compilation

end Bracket
