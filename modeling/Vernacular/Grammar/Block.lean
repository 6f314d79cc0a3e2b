import Vernacular.Grammar.Parser

/-!
# Blocks, bindings and callables

Statements and expressions contain one another. What may stand one level further in is handed to every production as
`Productions`, so that no production calls itself; `Grammar.level` ties the knot for a bounded number of levels.
-/

namespace Vernacular

/-- The productions that may begin one level further in, for readers in the monad `m`. -/
structure Productions (m : Type → Type) where
  expression : m Expr
  /-- The right side of a power. -/
  exponent : m Expr
  /-- The operand of an operator that stands in front of it. -/
  unary : m Expr
  statement : m Stmt

/-- The productions that may begin one level further in. -/
abbrev Inner := Productions Parser

namespace Grammar

open Vernacular.Parser

variable {m : Type → Type} [Monad m] [MonadStateOf Cursor m] [MonadExceptOf SyntaxError m] (inner : Productions m)

/-- Fails since there may be no further level here. -/
def tooDeep {α : Type} (context : Context) : m α := do
  throw (.tooDeep (← position) context)

/-- Reads the value of a binding whose name and type have been read. -/
def bindingRest (id : Ident) (type : Option Ident) : m Binding := do
  let value ← do
    if ← accept (.symbol .assign) then pure (some (← inner.expression)) else pure none
  return ⟨id, type, value, ← spanFrom id.span.start⟩

/-- Reads a declared variable or a parameter. -/
def binding (context : Context) : m Binding := do
  let id ← identifier context
  let type ← optionalType
  bindingRest inner id type

/-- Reads the rest of a list of declared variables, of which the first name and type have been read. -/
def bindings (context : Context) (id : Ident) (type : Option Ident) : m (List Binding) := do
  let first ← bindingRest inner id type
  let others ← afterCommas (binding inner context)
  return first :: others

/-- Reads parameters in parentheses. -/
def parameters : m (List Binding) := do
  let _ ← expectSymbol .leftParen .functionParameters
  let params ← commaList .rightParen (binding inner .functionParameters)
  let _ ← expectSymbol .rightParen .functionParameters
  return params

/-- Reads items up to a closing brace or the end, with any number of semicolons around them. -/
def separated {α : Type} (item : m α) : m (List α) := do
  skipSemicolons
  many do
    if (← check (.symbol .rightBrace)) || (← atEnd) then return none
    let a ← item
    skipSemicolons
    return some a

/-- Reads statements in braces; `context` names what the opening brace belongs to. -/
def blockIn (context : Context) : m Block := do
  let start ← position
  let _ ← expectSymbol .leftBrace context
  let body ← separated inner.statement
  let _ ← expectSymbol .rightBrace .block
  return ⟨body, ← spanFrom start⟩

/-- Reads statements in braces. -/
def block : m Block := blockIn inner .block

/-- Reads parameters, type and body of a callable. An abstract one may end in a semicolon or nothing for a body. -/
def callableRest (name : Option Ident) (start : Position) (isAbstract : Bool) : m Callable := do
  let params ← parameters inner
  let result ← optionalType
  let body ← do
    if isAbstract && !(← check (.symbol .leftBrace)) then
      let _ ← accept (.symbol .semicolon)
      pure none
    else pure (some (← blockIn inner .functionDeclaration))
  return ⟨name, params, result, body, ← spanFrom start⟩

end Grammar

end Vernacular
