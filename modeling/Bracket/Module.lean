import Bracket.Grammar.Parse
import Bracket.Report
import Bracket.Token.Lexer

/-!
# Modules

A module is a parsed file. Parsing a file (`Module.ofBody`) drains its tokens, parses their symbols
(`Grammar.parse`), and reports a parse failure at the place of the token that could not be parsed.
Failures of reading the file are handed back without being reported.
-/

namespace Bracket

/-- A parsed file. -/
structure Module where
  uri : Bytes
  program : Program
  deriving Repr, Inhabited

/-- What came of a file: a module, or a failure, or neither if the failure is not fatal; and the
report after it. -/
structure Parsed where
  module? : Option Module
  failure? : Option Failure
  report : Report
  deriving Repr, Inhabited

namespace Module

/-- Nothing but a failure. -/
def refused (report : Report) (f : Failure) : Parsed := ⟨none, some f, report⟩

/-- The diagnosis of a parse, moved from the symbol index to the place of that token. -/
def relocate (uri : Bytes) (tokens : List Token) (d : Diagnosis) : Diagnosis :=
  d.relocate ⟨uri, Token.locate tokens d.location.position.offset.toInt.toNat⟩

/-- Parses the tokens of a file. -/
def ofTokens (uri : Bytes) (report : Report) (tokens : List Token) : Parsed :=
  match Grammar.parse (tokens.map (·.symbol)) with
  | .ok program => ⟨some ⟨uri, program⟩, none, report⟩
  | .error d =>
    -- a failure that is not fatal is reported all the same, and there is no module
    match report.submit (relocate uri tokens d) with
    | (fatal?, report) => ⟨none, fatal?.map (·.toFailure), report⟩

/-- Reads all tokens of a body, and keeps those that were delivered even if reading fails. The
delivered tokens come last first. -/
def tokens (cancelled : Bool) (body : Body) : Except Failure (List Token) × List Token :=
  let S := (Lexer.stream cancelled).recorded
  let read := S.collect (fun _ => cancelled) (fun s => s.1.close) (.ofBody body, [])
  (read.1, read.2.2)

/-- Parses an opened file. Also gives the tokens that were read, in order. -/
def ofBody (cancelled : Bool) (uri : Bytes) (report : Report) :
    Except Failure Body → Parsed × List Token
  | .error f => (refused report f, [])
  | .ok body =>
    match tokens cancelled body with
    | (.error f, seen) => (refused report f, seen.reverse)
    | (.ok tokens, seen) => (ofTokens uri report tokens, seen.reverse)

end Module

end Bracket
