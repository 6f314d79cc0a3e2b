import Vernacular.Grammar.Block

/-!
# Expressions

The operators bind, from the loosest to the tightest: assignment, `||` and `??`, `&&`, `|`, `&`, equality, relations,
shifts, sums, products, powers, operators in front, operators behind, calls and properties. Each level reads operands of
the next; those from `||` to products group to the left (`leftChain`), powers and assignments to the right.
-/

namespace Vernacular

/-- A step in a chain of calls and properties. -/
inductive Link where
  | call (args : List Expr) (optional : Bool)
  | member (name : PropertyName) (optional : Bool)
  | index (key : Expr) (optional : Bool)

/-- The expression that a chain has reached after one more step, which ends at `stop`. -/
def Link.apply (e : Expr) : Link × Position → Expr
  | (.call args optional, stop) => .call e args optional ⟨e.span.start, stop⟩
  | (.member name optional, stop) => .member e name optional ⟨e.span.start, stop⟩
  | (.index key optional, stop) => .index e key optional ⟨e.span.start, stop⟩

/-- The expression of an operator and its operands. -/
def Expr.join (left : Expr) : BinaryOp × Expr → Expr
  | (op, right) => .binary op left right (left.span.merge right.span)

namespace Grammar

open Vernacular.Parser

variable {m : Type → Type} [Monad m] [MonadStateOf Cursor m] [MonadExceptOf SyntaxError m] (inner : Productions m)

/-! ## Operators by their tokens -/

def assignOp? : Kind → Option AssignOp
  | .symbol .assign => some .assign
  | .symbol .plusAssign => some .add
  | .symbol .minusAssign => some .subtract
  | .symbol .starAssign => some .multiply
  | .symbol .slashAssign => some .divide
  | .symbol .percentAssign => some .modulo
  | _ => none

def logicalOrOp? : Kind → Option BinaryOp
  | .symbol .logicalOr => some .or
  | .symbol .nullishCoalescing => some .nullish
  | _ => none

def logicalAndOp? : Kind → Option BinaryOp
  | .symbol .logicalAnd => some .and
  | _ => none

def bitwiseOrOp? : Kind → Option BinaryOp
  | .symbol .pipe => some .bitwiseOr
  | _ => none

def bitwiseAndOp? : Kind → Option BinaryOp
  | .symbol .ampersand => some .bitwiseAnd
  | _ => none

def equalityOp? : Kind → Option BinaryOp
  | .symbol .equal => some .equal
  | .symbol .notEqual => some .notEqual
  | .symbol .strictEqual => some .strictEqual
  | .symbol .strictNotEqual => some .strictNotEqual
  | _ => none

def relationalOp? : Kind → Option BinaryOp
  | .symbol .less => some .less
  | .symbol .lessEqual => some .lessEqual
  | .symbol .greater => some .greater
  | .symbol .greaterEqual => some .greaterEqual
  | .keyword .instanciaDe => some .instanceOf
  | _ => none

def shiftOp? : Kind → Option BinaryOp
  | .symbol .leftShift => some .leftShift
  | .symbol .rightShift => some .rightShift
  | .symbol .unsignedRightShift => some .unsignedRightShift
  | _ => none

def additiveOp? : Kind → Option BinaryOp
  | .symbol .plus => some .add
  | .symbol .minus => some .subtract
  | _ => none

def multiplicativeOp? : Kind → Option BinaryOp
  | .symbol .star => some .multiply
  | .symbol .slash => some .divide
  | .symbol .percent => some .modulo
  | _ => none

def unaryOp? : Kind → Option UnaryOp
  | .symbol .bang => some .not
  | .symbol .minus => some .negate
  | .symbol .plus => some .plus
  | .keyword .tipoDe => some .typeOf
  | _ => none

def updateOp? : Kind → Option UpdateOp
  | .symbol .increment => some .increment
  | .symbol .decrement => some .decrement
  | _ => none

/-- Fails unless the expression can be assigned to. -/
def assignable (e : Expr) : m Unit :=
  if e.isAssignable then pure () else throw (.notAssignable e.label e.span.start)

/-! ## Literals, lists and names -/

/-- A quoted text without its quotes. -/
def unquoted (text : String) : String := String.ofList (text.toList.drop 1).dropLast

/-- The quote of a quoted text. -/
def quoteOf (text : String) : Char := text.toList.head?.getD '"'

/-- Reads arguments in parentheses. -/
def arguments : m (List Expr) := do
  let _ ← expectSymbol .leftParen .argumentList
  let args ← commaList .rightParen inner.expression
  let _ ← expectSymbol .rightParen .argumentList
  return args

/-- Reads a list in brackets. -/
def arrayLiteral : m Expr := do
  let start ← position
  let _ ← expectSymbol .leftBracket .arrayLiteral
  let items ← commaList .rightBracket inner.expression
  let _ ← expectSymbol .rightBracket .arrayLiteral
  return .array items (← spanFrom start)

/-- The key that a token names in an object literal. -/
def objectKey? (t : Token) : Option ObjectKey :=
  match t.kind with
  | .string => some (.string (unquoted t.text) (quoteOf t.text))
  | .number => some (.number t.text)
  | k => if k.isWord then some (.name t.text) else none

/-- Reads a key, a colon and a value. -/
def property : m Property := do
  let start ← position
  match objectKey? (← peek) with
  | none => fail ["property name", "string", "number"] .objectLiteral
  | some key =>
    let _ ← advance
    let _ ← expectSymbol .colon .objectLiteral
    let value ← inner.expression
    return ⟨key, value, ← spanFrom start⟩

/-- Reads properties in braces. -/
def objectLiteral : m Expr := do
  let start ← position
  let _ ← expectSymbol .leftBrace .objectLiteral
  let properties ← commaList .rightBrace (property inner)
  let _ ← expectSymbol .rightBrace .objectLiteral
  return .object properties (← spanFrom start)

/-- Reads a function without or with a name of its own. -/
def functionExpression : m Expr := do
  let start ← position
  let _ ← expect [.keyword .funcao] .expression
  let name ← do
    if ← check .identifier then pure (some (← identifier .functionDeclaration)) else pure none
  return .function (← callableRest inner name start false)

/-- Reads an expression in parentheses, which leave no trace. -/
def parenthesized : m Expr := do
  let _ ← advance
  let e ← inner.expression
  let _ ← expectSymbol .rightParen .expression
  return e

/-- The expression that a single token stands for. The words `get` and `set` mean something only in classes. -/
def simple? (t : Token) : Option Expr :=
  match t.kind with
  | .number => some (.literal (.number t.text) t.span)
  | .string => some (.literal (.string (unquoted t.text) (quoteOf t.text)) t.span)
  | .template => some (.literal (.template (unquoted t.text)) t.span)
  | .keyword .verdadeiro => some (.literal (.boolean true) t.span)
  | .keyword .falso => some (.literal (.boolean false) t.span)
  | .keyword .nulo => some (.literal .null t.span)
  | .keyword .isso => some (.this t.span)
  | .keyword .super => some (.super t.span)
  | .identifier | .builtin | .type | .keyword .get | .keyword .set => some (.ident t.text t.span)
  | _ => none

/-- Reads an expression that is complete in itself, construction apart. -/
def atom : m Expr := do
  let t ← peek
  match simple? t with
  | some e =>
    let _ ← advance
    return e
  | none =>
    match t.kind with
    | .keyword .funcao => functionExpression inner
    | .symbol .leftParen => parenthesized inner
    | .symbol .leftBracket => arrayLiteral inner
    | .symbol .leftBrace => objectLiteral inner
    | _ => fail ["expression"] .expression

/-! ## Chains of calls and properties -/

/-- Reads the name of a property; `context` names what it belongs to. -/
def propertyName (context : Context) : m PropertyName := do
  if ← accept (.symbol .hash) then return .hashed (← propertyWord context).text
  else return .plain (← propertyWord context).text

/-- Reads a key in brackets. -/
def computedKey : m Expr := do
  let _ ← expectSymbol .leftBracket .memberAccess
  let key ← inner.expression
  let _ ← expectSymbol .rightBracket .memberAccess
  return key

/-- A link, with the end of the last token read. -/
def ended (link : Link) : m (Option (Link × Position)) := do
  return some (link, ((← get).previous.map Token.stop).getD (← position))

/-- Reads a property by name or by key, if one comes. -/
def propertyLink : m (Option (Link × Position)) := do
  match ← kind with
  | .symbol .dot =>
    let _ ← advance
    ended (.member (← propertyName .memberAccess) false)
  | .symbol .leftBracket => ended (.index (← computedKey inner) false)
  | _ => return none

/-- Reads a call or a property, if one comes. -/
def link : m (Option (Link × Position)) := do
  match ← kind with
  | .symbol .leftParen => ended (.call (← arguments inner) false)
  | .symbol .optionalChain =>
    let _ ← advance
    match ← kind with
    | .symbol .leftParen => ended (.call (← arguments inner) true)
    | .symbol .leftBracket => ended (.index (← computedKey inner) true)
    | _ => ended (.member (← propertyName .memberAccess) true)
  | _ => propertyLink inner

/-- Reads the word that begins a construction, and says where it began. -/
def newWord : m (Option Position) := do
  if ← check (.keyword .novo) then
    let start ← position
    let _ ← advance
    return some start
  else return none

/-- Reads what follows the class in constructions that began at the given places, innermost first: properties of the
class, and perhaps arguments. -/
def constructions : List Position → Expr → m Expr
  | [], e => return e
  | start :: starts, e => do
    let callee := (← many (propertyLink inner)).foldl Link.apply e
    let args ← do
      if ← check (.symbol .leftParen) then arguments inner else pure []
    constructions starts (.new callee args (← spanFrom start))

/-- Reads an expression that is complete in itself. -/
def primary : m Expr := do
  let starts ← many newWord
  constructions inner starts.reverse (← atom inner)

/-- Reads calls and properties. -/
def call : m Expr := do
  let e ← primary inner
  return (← many (link inner)).foldl Link.apply e

/-! ## Operators -/

/-- Reads an operand and perhaps an operator behind it, on the same line. -/
def postfixed : m Expr := do
  let e ← call inner
  match updateOp? (← kind) with
  | none => return e
  | some op =>
    if ← onNewLine then return e
    assignable e
    let _ ← advance
    return .update op false e (← spanFrom e.span.start)

/-- Reads an operand with the operators in front of it. -/
def unary : m Expr := do
  let start ← position
  match updateOp? (← kind), unaryOp? (← kind) with
  | some op, _ =>
    let _ ← advance
    let e ← inner.unary
    assignable e
    return .update op true e (← spanFrom start)
  | none, some op =>
    let _ ← advance
    let e ← inner.unary
    return .unary op e (← spanFrom start)
  | none, none => postfixed inner

/-- Reads a power, which groups to the right. -/
def exponent : m Expr := do
  let base ← unary inner
  if ← accept (.symbol .exponent) then return base.join (.exponent, ← inner.exponent)
  else return base

/-- Reads operands with operators of one level between them, which group to the left. -/
def leftChain (op? : Kind → Option BinaryOp) (operand : m Expr) : m Expr := do
  let first ← operand
  let others ← many do
    match op? (← kind) with
    | none => return none
    | some op =>
      let _ ← advance
      return some (op, ← operand)
  return others.foldl Expr.join first

def multiplicative : m Expr := leftChain multiplicativeOp? (exponent inner)

def additive : m Expr := leftChain additiveOp? (multiplicative inner)

def shift : m Expr := leftChain shiftOp? (additive inner)

def relational : m Expr := leftChain relationalOp? (shift inner)

def equality : m Expr := leftChain equalityOp? (relational inner)

def bitwiseAnd : m Expr := leftChain bitwiseAndOp? (equality inner)

def bitwiseOr : m Expr := leftChain bitwiseOrOp? (bitwiseAnd inner)

def logicalAnd : m Expr := leftChain logicalAndOp? (bitwiseOr inner)

def logicalOr : m Expr := leftChain logicalOrOp? (logicalAnd inner)

/-- Reads an expression; an assignment groups to the right. -/
def assignment : m Expr := do
  let target ← logicalOr inner
  match assignOp? (← kind) with
  | none => return target
  | some op =>
    assignable target
    let _ ← advance
    let value ← inner.expression
    return .assign op target value (target.span.merge value.span)

end Grammar

end Vernacular
