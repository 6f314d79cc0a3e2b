import Vernacular.Grammar.Statement

/-!
# Programs

`Grammar.level n` holds the productions that may nest `n` levels deep. A whole program is read with `Grammar.maxDepth`
levels; one level more, and it is too deep.
-/

namespace Vernacular

/-- No further level. -/
def Inner.none : Inner where
  expression := Grammar.tooDeep .expression
  exponent := Grammar.tooDeep .expression
  unary := Grammar.tooDeep .expression
  statement := Grammar.tooDeep .statement

/-- One level around another. -/
def Inner.around (inner : Inner) : Inner where
  expression := Grammar.assignment inner
  exponent := Grammar.exponent inner
  unary := Grammar.unary inner
  statement := Grammar.statement inner

namespace Grammar

open Vernacular.Parser

/-- The number of levels in a program. -/
def maxDepth : Nat := 128

/-- The productions with `n` levels to go. -/
def level : Nat → Inner
  | 0 => .none
  | n + 1 => (level n).around

/-- The productions with all levels to go. -/
def outermost : Inner := level maxDepth

/-- An expression that begins after `n` levels have been opened in the given context. -/
def expressionWithin (n : Nat) (context : Context) : Parser Expr :=
  if n ≤ maxDepth then (level (maxDepth - n)).expression else tooDeep context

/-- Reads a whole program. -/
def program : Parser Program := statements outermost

end Grammar

/-- The program of a list of tokens. -/
def parse (ts : List Token) : Except SyntaxError Program :=
  match Grammar.program (.ofTokens ts) with
  | .ok p _ => .ok p
  | .error e _ => .error e

end Vernacular
