import Bracket.Grammar.Rules

/-!
# Parsing a whole sequence

A sequence of symbols is a program (`parse`) if every symbol up to the end of input belongs to some
expression. Otherwise the answer is a diagnosis (`trailing`) at the first symbol that could not be
parsed, caused by the refusal of the expression rule there. An end-of-input symbol inside the
sequence ends it.
-/

namespace Bracket.Grammar

/-- The first symbol that is part of no expression. -/
def trailing (c : Cursor) (cause : Diagnosis) : Diagnosis :=
  .join (.ofSymbolIndex c.position) .trailingInput
    (bytes "unparsable input at symbol " ++ Bytes.ofNat c.position) [some cause.toFailure]

/-- Parses the expressions from a cursor to the end of input. -/
def parseFrom (c : Cursor) : Except Diagnosis Program :=
  match (expression c).attempt with
  | .accepted first after _ =>
    match parseFrom after with
    | .ok more => .ok (first :: more)
    | .error d => .error d
  | .refused cause after =>
    if after.symbol = .endOfInput then .ok [] else .error (trailing after cause)
termination_by c.rest.length

/-- Parses a complete sequence of symbols. It needs no end-of-input symbol at its end. -/
def parse (symbols : List Symbol) : Except Diagnosis Program := parseFrom (.start symbols)

end Bracket.Grammar
