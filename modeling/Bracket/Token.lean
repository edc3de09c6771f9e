import Bracket.Location
import Bracket.Symbol

/-!
# Tokens

A token is a command of a source text together with the place where it stands: from `start` up to,
and not including, `stop`.
-/

namespace Bracket

/-- A command of a source text. -/
structure Token where
  start : Position
  stop : Position
  symbol : Symbol
  value : Bytes
  deriving DecidableEq, Repr, Inhabited

namespace Token

/-- The place of the token with the given index: where it starts, or where the last token stops if
the index lies past it, or the beginning of the text if there are no tokens. -/
def locate (tokens : List Token) (index : Nat) : Position :=
  match tokens[index]? with
  | some token => token.start
  | none =>
    match tokens.getLast? with
    | some token => token.stop
    | none => .start

/-- `locate` for an index that may be negative, which is an error of the caller. -/
def locate? (tokens : List Token) (index : Int) : Option Position :=
  if index < 0 then none else some (locate tokens index.toNat)

/-- One line about a token: place, name of the symbol padded to 24 columns, and the quoted text. -/
def line (uri : Bytes) (token : Token) : Bytes :=
  uri ++ bytes ":" ++ Bytes.ofInt token.start.line.toInt ++ bytes ":" ++
    Bytes.ofInt token.start.column.toInt ++ bytes "\t" ++ Bytes.padRight 24 token.symbol.name ++
    bytes "'" ++ token.value ++ bytes "'\n"

end Token

end Bracket
