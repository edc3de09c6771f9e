import Bracket.Diagnosis
import Bracket.Grammar.Cursor
import Bracket.Program

/-!
# Grammar rules

```
Expression     = Loop | Operator
ExpressionList = Expression { Expression }
Loop           = "[" ExpressionList "]"
Operator       = ">" | "<" | "+" | "-" | "." | ","
```

A rule (`expression`, `list`, `loop`, `operator`) starts at a cursor and either accepts, with a
value and the cursor behind it, or refuses, with a diagnosis and whatever cursor it got to.
`Outcome.attempt` puts the cursor of a refusal back to the start. The repetition of the list rule is
greedy and never gives back an accepted expression; the refusal that ends it is discarded.

## Shape of the recursion

An accepted value took at least one symbol, and the outcome carries that fact. So the rules call
each other on the lexicographic measure of the remaining symbols and the level of the rule.
-/

namespace Bracket.Grammar

/-- The outcome of a rule that started at `start`. -/
inductive Outcome (start : Cursor) (α : Type) where
  /-- The rule took at least one symbol and ends at `after`. -/
  | accepted (value : α) (after : Cursor) (shorter : after.rest.length < start.rest.length)
  /-- The rule does not apply; it stopped reading at `after`. -/
  | refused (diagnosis : Diagnosis) (after : Cursor)

namespace Outcome

variable {start : Cursor} {α : Type}

/-- The cursor at which the rule stopped. -/
def after : Outcome start α → Cursor
  | accepted _ after _ => after
  | refused _ after => after

def value? : Outcome start α → Option α
  | accepted value _ _ => some value
  | refused _ _ => none

def diagnosis? : Outcome start α → Option Diagnosis
  | accepted _ _ _ => none
  | refused diagnosis _ => some diagnosis

/-- The outcome with a refusal rewound to where the rule started. -/
def attempt : Outcome start α → Outcome start α
  | accepted value after shorter => accepted value after shorter
  | refused diagnosis _ => refused diagnosis start

def map {β : Type} (f : α → β) : Outcome start α → Outcome start β
  | accepted value after shorter => accepted (f value) after shorter
  | refused diagnosis after => refused diagnosis after

end Outcome

/-- The symbol at the cursor is not the one the rule needs. -/
def unexpected (c : Cursor) (code : Code) (wanted : String) : Diagnosis :=
  .new (.ofSymbolIndex c.position) code
    (bytes "expected " ++ bytes wanted ++ bytes " but got " ++ c.symbol.name)

/-- There is no expression at the cursor. -/
def emptyList (c : Cursor) : Diagnosis :=
  .new (.ofSymbolIndex c.position) .emptyExpressionList (bytes "expected at least one expression")

/-- Neither alternative of an expression applies at the cursor. -/
def noAlternative (c : Cursor) (loop operator : Diagnosis) : Diagnosis :=
  .join (.ofSymbolIndex c.position) .noViableAlternative (bytes "parse error")
    [some loop.toFailure, some operator.toFailure]

/-- One plain instruction. -/
def operator (c : Cursor) : Outcome c Expression :=
  if h : c.symbol.isOperator = true then
    .accepted (.operator c.symbol) c.advance
      (Cursor.length_advance_lt fun he => by simp [he, Symbol.isOperator] at h)
  else .refused (unexpected c .unexpectedSymbol "an operator") c.advance

mutual

/-- A loop, or else a plain instruction. -/
def expression (c : Cursor) : Outcome c Expression :=
  match (loop c).attempt with
  | .accepted value after shorter => .accepted value after shorter
  -- both refusals are told, that of the loop first
  | .refused noLoop _ =>
    match (operator c).attempt with
    | .accepted value after shorter => .accepted value after shorter
    | .refused noOperator after => .refused (noAlternative c noLoop noOperator) after
termination_by (c.rest.length, 1)

/-- One or more expressions, as many as there are. -/
def list (c : Cursor) : Outcome c (List Expression) :=
  match (expression c).attempt with
  | .refused _ after => .refused (emptyList c) after
  | .accepted first after shorter =>
    match list after with
    -- no further expression: why there is none is not told
    | .refused _ _ => .accepted [first] after shorter
    | .accepted more last shorter' => .accepted (first :: more) last (Nat.lt_trans shorter' shorter)
termination_by (c.rest.length, 2)

/-- A bracketed list. -/
def loop (c : Cursor) : Outcome c Expression :=
  if h : c.symbol = .leftBracket then
    have opened := Cursor.length_advance_lt fun he => by simp [he] at h
    match (list c.advance).attempt with
    | .refused diagnosis after => .refused diagnosis after
    | .accepted body after shorter =>
      if h' : after.symbol = .rightBracket then
        have closed := Cursor.length_advance_lt fun he => by simp [he] at h'
        .accepted (.loop body) after.advance
          (Nat.lt_trans closed (Nat.lt_trans shorter opened))
      -- the symbol that should have been the bracket is used up
      else .refused (unexpected after .missingRightBracket "right bracket") after.advance
  else .refused (unexpected c .missingLeftBracket "left bracket") c.advance
termination_by (c.rest.length, 0)

end

end Bracket.Grammar
