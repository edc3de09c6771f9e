import Bracket.Symbol

/-!
# Programs

A parsed program is an ordered sequence of expressions; an expression is a plain instruction or a
loop over further expressions. This module holds the trees and the ways to flatten them: back into
source text (`Program.text`), into the sequence of symbols (`Program.symbols`), and into the
sequence of visited expressions with their depths (`Program.visits`), from which the statistics of a
program (`Program.stats`) are taken.
-/

namespace Bracket

/-- A node of a parsed program. -/
inductive Expression where
  /-- A single instruction. -/
  | operator (symbol : Symbol)
  /-- A bracketed block. -/
  | loop (body : List Expression)
  deriving Repr, Inhabited

/-- The ordered sequence of top level expressions. -/
abbrev Program := List Expression

/-! ## Source text and symbols -/

mutual

/-- The source text of an expression, without comments. -/
def Expression.text : Expression → Bytes
  | .operator s => s.text
  | .loop body => Symbol.leftBracket.text ++ Program.text body ++ Symbol.rightBracket.text

/-- The source text of a program, without comments. -/
def Program.text : List Expression → Bytes
  | [] => []
  | e :: rest => e.text ++ Program.text rest

end

mutual

/-- The symbols of an expression in source order. -/
def Expression.symbols : Expression → List Symbol
  | .operator s => [s]
  | .loop body => .leftBracket :: (Program.symbols body ++ [.rightBracket])

/-- The symbols of a program in source order. -/
def Program.symbols : List Expression → List Symbol
  | [] => []
  | e :: rest => e.symbols ++ Program.symbols rest

end

/-! ## Well-formed trees -/

mutual

/-- Every instruction is one of the six operators and no loop, at any depth, is empty. -/
def Expression.isWellFormed : Expression → Bool
  | .operator s => s.isOperator
  | .loop body => !body.isEmpty && Program.isWellFormed body

/-- Every expression of the program is well-formed. -/
def Program.isWellFormed : List Expression → Bool
  | [] => true
  | e :: rest => e.isWellFormed && Program.isWellFormed rest

end

/-! ## Visits and statistics -/

mutual

/-- The expressions of a tree at a given depth, parents before children, each with its depth. -/
def Expression.visits (depth : Nat) : Expression → List (Nat × Expression)
  | .operator s => [(depth, .operator s)]
  | .loop body => (depth, .loop body) :: Program.visitsFrom (depth + 1) body

/-- The expressions of a sequence whose members have the given depth. -/
def Program.visitsFrom (depth : Nat) : List Expression → List (Nat × Expression)
  | [] => []
  | e :: rest => e.visits depth ++ Program.visitsFrom depth rest

end

/-- Every expression of a program depth first. Top level expressions have depth 1. -/
def Program.visits (program : Program) : List (Nat × Expression) := Program.visitsFrom 1 program

/-- What a program consists of: plain instructions, loops, and the depth of the deepest
expression. -/
structure Stats where
  operators : Nat
  loops : Nat
  maxDepth : Nat
  deriving DecidableEq, Repr

/-- The statistics with one more visited expression. -/
def Stats.add (stats : Stats) (visit : Nat × Expression) : Stats :=
  let stats :=
    match visit.2 with
    | .operator _ => { stats with operators := stats.operators + 1 }
    | .loop _ => { stats with loops := stats.loops + 1 }
  { stats with maxDepth := max stats.maxDepth visit.1 }

/-- The statistics of a program. -/
def Program.stats (program : Program) : Stats := program.visits.foldl Stats.add ⟨0, 0, 0⟩

end Bracket
