import Bracket.Path
import Bracket.Text.Quoted
import Bracket.Text.Record
import Bracket.Text.Template

/-!
# Flags

The arguments of the command are targets and flags in any order, and `parseArguments` tells them
apart. A flag has a long name, `--root`; one of them has a letter as well, `-e`. Its value stands
behind an equals sign, directly behind the letter, or in the next argument; a switch needs none. Two
dashes alone end the flags, and a single dash is a target.

The first fault ends the reading. Its message (`Refusal`) is printed, and shown in front of the
usage. A faulty value is shown there as a template without operands (`Text.Template.unfilled`), so
that percent signs in it read as gaps.
-/

namespace Bracket.CommandLine

/-! ## The flags -/

inductive Flag where
  | dumpTokens
  | dumpTree
  | expr
  | logLevel
  | output
  | root
  | treeFormat
  deriving DecidableEq, Repr, Inhabited

namespace Flag

/-- All flags, by name. -/
def all : List Flag := [dumpTokens, dumpTree, expr, logLevel, output, root, treeFormat]

/-- The long name of a flag. -/
def name : Flag → Bytes
  | dumpTokens => bytes "dump-tokens"
  | dumpTree => bytes "dump-tree"
  | expr => bytes "expr"
  | logLevel => bytes "log-level"
  | output => bytes "output"
  | root => bytes "root"
  | treeFormat => bytes "tree-format"

def letter? : Flag → Option UInt8
  | expr => some 0x65
  | _ => none

/-- A switch is on when it is named, without a value. -/
def isSwitch : Flag → Bool
  | dumpTokens | dumpTree => true
  | _ => false

def named? (text : Bytes) : Option Flag := all.find? fun flag => flag.name == text

def lettered? (b : UInt8) : Option Flag := all.find? fun flag => flag.letter? == some b

/-- How messages call a flag. -/
def label (flag : Flag) : Bytes :=
  match flag.letter? with
  | some b => bytes "-" ++ [b] ++ bytes ", --" ++ flag.name
  | none => bytes "--" ++ flag.name

/-- The kind of value, as the usage calls it. -/
def valueName : Flag → Bytes
  | dumpTokens | dumpTree => []
  | expr => bytes " stringArray"
  | root => bytes " strings"
  | logLevel | output | treeFormat => bytes " string"

/-- What a flag is good for. -/
def purpose : Flag → Bytes
  | dumpTokens => bytes "Output the token stream as it is processed"
  | dumpTree => bytes "Output the parse tree after parsing"
  | expr => bytes "Parse the given program text. May be repeated."
  | logLevel => bytes "Log level: debug, info, warn, or error. (default \"warn\")"
  | output => bytes "Write the parsed image to this file or - for STDOUT."
  | root => bytes "Root search paths for targets. (default [.])"
  | treeFormat =>
    bytes "Format of the image written to --output: text, json, yaml, or proto. (default \"text\")"

/-- The flag on its line of the usage. -/
def head (flag : Flag) : Bytes :=
  (if flag.letter?.isSome then bytes "  " else bytes "      ") ++ flag.label ++ flag.valueName

end Flag

/-- The usage of the command: a line for each flag, with the purposes in one column. -/
def usage : Bytes :=
  let column := (Flag.all.map fun flag => flag.head.length).foldl max 0 + 3
  bytes "Usage of bfc:\n" ++ Flag.all.flatMap fun flag =>
    Bytes.padRight column flag.head ++ flag.purpose ++ bytes "\n"

/-! ## Values -/

structure Options where
  /-- The roots that were named, if any were. -/
  roots? : Option (List Bytes)
  output : Bytes
  treeFormat : Bytes
  expressions : List Bytes
  dumpTokens : Bool
  dumpTree : Bool
  logLevel : Bytes
  deriving DecidableEq, Repr, Inhabited

namespace Options

/-- The options of a command without flags. -/
def defaults : Options where
  roots? := none
  output := []
  treeFormat := bytes "text"
  expressions := []
  dumpTokens := false
  dumpTree := false
  logLevel := bytes "warn"

/-- The roots to search: those that were named, or else the working directory. -/
def roots (o : Options) : List Bytes := o.roots?.getD [Path.here]

/-- The setting of a switch. -/
def switch? (value : Bytes) : Option Bool :=
  if (["1", "t", "T", "TRUE", "true", "True"].map bytes).contains value then some true
  else if (["0", "f", "F", "FALSE", "false", "False"].map bytes).contains value then some false
  else none

/-- The setting of a switch, or what is wrong with it. -/
def switch (value : Bytes) : Except Bytes Bool :=
  match switch? value with
  | some b => .ok b
  | none =>
    .error (bytes "strconv.ParseBool: parsing " ++ Text.quote value ++ bytes ": invalid syntax")

/-- A list of roots is a record of fields with commas between them, or nothing at all. -/
def rootList (value : Bytes) : Except Bytes (List Bytes) :=
  if value = [] then .ok []
  else (Text.Record.parse value).mapError Text.Record.Fault.message

/-- The options with a flag set to a value, or what is wrong with the value. -/
def set (o : Options) (flag : Flag) (value : Bytes) : Except Bytes Options :=
  match flag with
  | .dumpTokens => (switch value).map fun b => { o with dumpTokens := b }
  | .dumpTree => (switch value).map fun b => { o with dumpTree := b }
  | .expr => .ok { o with expressions := o.expressions ++ [value] }
  | .logLevel => .ok { o with logLevel := value }
  | .output => .ok { o with output := value }
  | .root => (rootList value).map fun more => { o with roots? := some (o.roots?.getD [] ++ more) }
  | .treeFormat => .ok { o with treeFormat := value }

end Options

/-! ## Arguments -/

structure Refusal where
  /-- What is printed. -/
  message : Bytes
  /-- What is shown in front of the usage. -/
  notice : Option Bytes
  deriving DecidableEq, Repr, Inhabited

namespace Refusal

def help : Refusal := ⟨bytes "pflag: help requested", none⟩

/-- A message that is printed and shown alike. -/
def ofMessage (message : Bytes) : Refusal := ⟨message, some message⟩

/-- A value that a flag does not take. -/
def ofValue (flag : Flag) (value reason : Bytes) : Refusal :=
  let message := bytes "invalid argument " ++ Text.quote value ++ bytes " for " ++
    Text.quote flag.label ++ bytes " flag: " ++ reason
  ⟨message, some (Text.Template.unfilled message)⟩

end Refusal

/-- What a single argument is. -/
inductive Word where
  /-- A target. -/
  | target
  /-- The end of the flags. -/
  | stop
  /-- Something that is passed over. -/
  | ignored
  /-- A flag with its value. -/
  | complete (flag : Flag) (value : Bytes)
  /-- A flag whose value is the next argument, and what to say if there is none. -/
  | pending (flag : Flag) (missing : Bytes)
  /-- Nothing that is known. -/
  | refused (refusal : Refusal)
  deriving DecidableEq, Repr

namespace Word

/-- An argument with two dashes, given what stands behind them. -/
def ofLong (text : Bytes) : Word :=
  if text = [] then .stop
  else if text.head? = some 0x2D ∨ text.head? = some 0x3D then
    .refused (.ofMessage (bytes "bad flag syntax: --" ++ text))
  else
    let (name, value?) := match Bytes.cut 0x3D text with
      | some (name, value) => (name, some value)
      | none => (text, none)
    match Flag.named? name, value? with
    | none, _ =>
      if name = bytes "help" then .refused .help
      else .refused (.ofMessage (bytes "unknown flag: --" ++ name))
    | some flag, some value => .complete flag value
    | some flag, none =>
      if flag.isSwitch then .complete flag (bytes "true")
      else .pending flag (bytes "flag needs an argument: --" ++ text)

/-- An argument with one dash, given the letter and what stands behind it. -/
def ofShort (letter : UInt8) (rest : Bytes) : Word :=
  let shown := Text.quoteSingle letter.toNat ++ bytes " in -" ++ (letter :: rest)
  -- flags of a test runner are passed over
  if (bytes "test.").isPrefixOf (letter :: rest) then .ignored
  else
    match Flag.lettered? letter with
    | none =>
      if letter = 0x68 then .refused .help
      else .refused (.ofMessage (bytes "unknown shorthand flag: " ++ shown))
    | some flag =>
      match rest with
      | [] => .pending flag (bytes "flag needs an argument: " ++ shown)
      | 0x3D :: b :: value => .complete flag (b :: value)
      | value => .complete flag value

def ofArgument : Bytes → Word
  | 0x2D :: 0x2D :: text => ofLong text
  | 0x2D :: letter :: rest => ofShort letter rest
  | _ => .target

end Word

/-- The options with a flag set to a value. -/
def Options.apply (o : Options) (flag : Flag) (value : Bytes) : Except Refusal Options :=
  (o.set flag value).mapError (.ofValue flag value)

/-- Reads arguments: the options and the targets, in order. -/
def parseArguments (o : Options) : List Bytes → Except Refusal (Options × List Bytes)
  | [] => .ok (o, [])
  | argument :: rest =>
    match Word.ofArgument argument with
    | .target => (parseArguments o rest).map fun (o, targets) => (o, argument :: targets)
    | .stop => .ok (o, rest)
    | .ignored => parseArguments o rest
    | .refused refusal => .error refusal
    | .complete flag value =>
      match o.apply flag value with
      | .error refusal => .error refusal
      | .ok o => parseArguments o rest
    | .pending flag missing =>
      match rest with
      | [] => .error (.ofMessage missing)
      | value :: rest =>
        match o.apply flag value with
        | .error refusal => .error refusal
        | .ok o => parseArguments o rest

end Bracket.CommandLine
