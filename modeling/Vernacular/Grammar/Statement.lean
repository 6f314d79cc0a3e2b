import Vernacular.Grammar.Class

/-!
# Statements

A statement is told by its first token. Semicolons between statements may be left out.
-/

namespace Vernacular

namespace Grammar

open Vernacular.Parser

variable {m : Type → Type} [Monad m] [MonadStateOf Cursor m] [MonadExceptOf SyntaxError m] (inner : Productions m)

/-- Reads the word that declares variables. -/
def variableKind : m VariableKind := do
  let t ← expect [.keyword .variavel, .keyword .constante] .variableDeclaration
  return if t.kind = .keyword .constante then .constant else .mutable

/-- Reads a declaration of variables, without a semicolon. -/
def variableDeclaration : m Declaration := do
  let start ← position
  let kind ← variableKind
  let id ← identifier .variableDeclaration
  let type ← optionalType
  let bindings ← bindings inner .variableDeclaration id type
  return ⟨kind, bindings, ← spanFrom start⟩

/-- Reads a declaration of variables. -/
def variablesStatement : m Stmt := do
  let declaration ← variableDeclaration inner
  let _ ← accept (.symbol .semicolon)
  return .declaration declaration

/-- Reads a function with its name. -/
def functionDeclaration : m Stmt := do
  let start ← position
  let _ ← expect [.keyword .funcao] .functionDeclaration
  let name ← identifier .functionDeclaration
  return .function (← callableRest inner (some name) start false)

/-- Reads a condition. A parenthesis at its beginning holds all of it. -/
def condition (context : Context) : m Expr := do
  if ← accept (.symbol .leftParen) then
    let test ← inner.expression
    let _ ← expectSymbol .rightParen context
    return test
  else inner.expression

def ifStatement : m Stmt := do
  let start ← position
  let _ ← expect [.keyword .se] .ifStatement
  let test ← condition inner .ifStatement
  let consequent ← inner.statement
  let alternate ← do
    if ← accept (.keyword .senao) then pure (some (← inner.statement)) else pure none
  return .ifElse test consequent alternate (← spanFrom start)

def whileStatement : m Stmt := do
  let start ← position
  let _ ← expect [.keyword .enquanto] .whileStatement
  let test ← condition inner .whileStatement
  let body ← inner.statement
  return .whileLoop test body (← spanFrom start)

/-- Reads an expression unless a token of kind `closing` comes. -/
def optionalExpression (closing : Kind) : m (Option Expr) := do
  if ← check closing then return none else return some (← inner.expression)

/-- Reads what follows the names in a loop over the items of something. -/
def forEachRest (start : Position) (inParens : Bool) (kind : VariableKind) (id : Ident) (type : Option Ident) :
    m Stmt := do
  let iterable ← inner.expression
  if inParens then
    let _ ← expectSymbol .rightParen .forStatement
  let body ← inner.statement
  return .forEach kind id type iterable body (← spanFrom start)

/-- Reads what follows the first part of a counting loop. Without parentheses only a block can follow the last part. -/
def forLoopRest (start : Position) (inParens : Bool) (init : Option ForInit) : m Stmt := do
  let _ ← expectSymbol .semicolon .forStatement
  let test ← optionalExpression inner (.symbol .semicolon)
  let _ ← expectSymbol .semicolon .forStatement
  if inParens then
    let update ← optionalExpression inner (.symbol .rightParen)
    let _ ← expectSymbol .rightParen .forStatement
    let body ← inner.statement
    return .forLoop init test update body (← spanFrom start)
  else
    let update ← optionalExpression inner (.symbol .leftBrace)
    let body ← blockIn inner .forStatement
    return .forLoop init test update (.block body) (← spanFrom start)

/-- Reads a loop, which may have its header in parentheses. -/
def forStatement : m Stmt := do
  let start ← position
  let _ ← expect [.keyword .para] .forStatement
  let inParens ← accept (.symbol .leftParen)
  if (← check (.keyword .variavel)) || (← check (.keyword .constante)) then
    let declStart ← position
    let kind ← variableKind
    let id ← identifier .forStatement
    let type ← optionalType
    if ← accept (.keyword .de) then forEachRest inner start inParens kind id type
    else
      let bindings ← bindings inner .forStatement id type
      let declaration : Declaration := ⟨kind, bindings, ← spanFrom declStart⟩
      forLoopRest inner start inParens (some (.declaration declaration))
  else
    let init ← optionalExpression inner (.symbol .semicolon)
    forLoopRest inner start inParens (init.map .expression)

/-- Reads a return. Its value begins on the same line. -/
def returnStatement : m Stmt := do
  let start ← position
  let _ ← expect [.keyword .retorne] .statement
  let ends := [Kind.symbol .semicolon, .symbol .rightBrace, .eof].contains (← kind)
  let value ← do
    if ends || (← onNewLine) then pure none else pure (some (← inner.expression))
  let _ ← accept (.symbol .semicolon)
  return .ret value (← spanFrom start)

def expressionStatement : m Stmt := do
  let start ← position
  let e ← inner.expression
  let _ ← accept (.symbol .semicolon)
  return .expression e (← spanFrom start)

/-- Reads a statement. -/
def statement : m Stmt := do
  match ← kind with
  | .keyword .variavel | .keyword .constante => variablesStatement inner
  | .keyword .funcao => functionDeclaration inner
  | .keyword .classe => classDeclaration inner
  | .keyword .se => ifStatement inner
  | .keyword .enquanto => whileStatement inner
  | .keyword .para => forStatement inner
  | .keyword .retorne => returnStatement inner
  | .symbol .leftBrace => return .block (← block inner)
  | _ => expressionStatement inner

/-- Reads all statements up to the end. -/
def statements : m Program := do
  let start ← position
  skipSemicolons
  let body ← many do
    if ← atEnd then return none
    if (← check (.symbol .rightBrace)) || (← check (.symbol .rightParen)) then fail ["statement"] .topLevel
    let s ← inner.statement
    skipSemicolons
    return some s
  return ⟨body, ← spanFrom start⟩

end Grammar

end Vernacular
