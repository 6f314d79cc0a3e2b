import Vernacular.Grammar.Expression

/-!
# Classes

A member is told by what comes first: the word for a constructor, `get` or `set` before a name, or a name. A name with a
parenthesis behind it is a method, any other a field.
-/

namespace Vernacular

/-- The modifiers after one more keyword; `none` if the keyword is no modifier. -/
def Modifiers.add? (m : Modifiers) : Kind → Option Modifiers
  | .keyword .publico => some { m with access := some .everyone }
  | .keyword .privado => some { m with access := some .owner }
  | .keyword .protegido => some { m with access := some .family }
  | .keyword .estatico => some { m with isStatic := true }
  | .keyword .abstrato => some { m with isAbstract := true }
  | _ => none

namespace Grammar

open Vernacular.Parser

variable {m : Type → Type} [Monad m] [MonadStateOf Cursor m] [MonadExceptOf SyntaxError m] (inner : Productions m)

/-- The kinds of tokens that name classes. -/
def classKinds : List Kind := [.identifier, .builtin, .type]

/-- Reads the name of a class, with the properties through which it is reached. -/
def qualifiedName : m Expr := do
  let t ← expect classKinds .classDeclaration
  let links ← many do
    if ← accept (.symbol .dot) then ended (.member (.plain (← propertyWord .classDeclaration).text) false)
    else return none
  return links.foldl Link.apply (.ident t.text t.span)

/-- Reads a decorator, if one comes. -/
def decorator : m (Option Ident) := do
  if ← check (.symbol .atSign) then
    let sign ← advance
    let name ← propertyWord .classBody
    return some ⟨name.text, sign.start, name.stop⟩
  else return none

/-- Reads a modifier, if one comes, and gives its kind. -/
def modifier : m (Option Kind) := do
  let k ← kind
  if ((default : Modifiers).add? k).isSome then
    let _ ← advance
    return some k
  else return none

/-- What a leading `get` or `set` announces. -/
def accessor? : Kind → Option MethodKind
  | .keyword .get => some .getter
  | .keyword .set => some .setter
  | _ => none

/-- Reads what follows the name of a method. -/
def method (name : PropertyName) (kind : MethodKind) (modifiers : Modifiers) (decorators : List Ident)
    (start : Position) : m Member := do
  let callable ← callableRest inner none (← position) modifiers.isAbstract
  return .method name kind callable modifiers decorators (← spanFrom start)

/-- Reads what follows the name of a field. -/
def field (name : PropertyName) (modifiers : Modifiers) (decorators : List Ident) (start : Position) :
    m Member := do
  let type ← optionalType
  let value ← do
    if ← accept (.symbol .assign) then pure (some (← inner.expression)) else pure none
  let _ ← accept (.symbol .semicolon)
  return .field name type value modifiers decorators (← spanFrom start)

/-- Reads a member of a class. -/
def member : m Member := do
  let start ← position
  let decorators ← many decorator
  let modifiers := (← many modifier).foldl (fun m k => (m.add? k).getD m) default
  if ← accept (.keyword .construtor) then
    method inner (.plain "constructor") .constructor modifiers decorators start
  else
    let next := ((← get).peekNth 1).kind
    match accessor? (← kind), next.isWord || next == .symbol .hash with
    | some kind, true =>
      let _ ← advance
      method inner (← propertyName .classBody) kind modifiers decorators start
    | _, _ =>
      let name ← propertyName .classBody
      if ← check (.symbol .leftParen) then method inner name .ordinary modifiers decorators start
      else field inner name modifiers decorators start

/-- Reads the names of interfaces, if any are announced. -/
def interfaces : m (List Ident) := do
  let name : m Ident := do
    let t ← expect classKinds .classDeclaration
    return ⟨t.text, t.span⟩
  if ← accept (.keyword .implementa) then
    let first ← name
    let others ← afterCommas name
    return first :: others
  else return []

/-- Reads a class. -/
def classDeclaration : m Stmt := do
  let start ← position
  let _ ← expect [.keyword .classe] .classDeclaration
  let name ← identifier .classDeclaration
  let base ← do
    if ← accept (.keyword .estende) then pure (some (← qualifiedName)) else pure none
  let interfaces ← interfaces
  let _ ← expectSymbol .leftBrace .classBody
  let members ← separated (member inner)
  let _ ← expectSymbol .rightBrace .classBody
  return .classDecl name base interfaces members (← spanFrom start)

end Grammar

end Vernacular
