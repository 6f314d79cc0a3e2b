import Vernacular.Proofs.Token.Mark
import Vernacular.Proofs.Tree.Normal

/-!
# The marks of generated code

The marks of a tree's code, read off the tree: what `Expr.code` and `Stmt.code` spell out with blanks and margins
between. Here too a body is in braces and an operand in parentheses where the code needs them, and names are exchanged
by the tables.
-/

namespace Vernacular

/-! ## Small parts -/

/-- Marks, in parentheses if `b` holds. -/
def inParens (b : Bool) (ms : List Mark) : List Mark :=
  if b then .symbol .leftParen :: ms ++ [.symbol .rightParen] else ms

def inBraces (ms : List Mark) : List Mark := .symbol .leftBrace :: ms ++ [.symbol .rightBrace]

theorem inParens_append (ms more : List Mark) :
    inParens true ms ++ more = .symbol .leftParen :: (ms ++ .symbol .rightParen :: more) := by
  simp [inParens]

theorem inBraces_append (ms more : List Mark) :
    inBraces ms ++ more = .symbol .leftBrace :: (ms ++ .symbol .rightBrace :: more) := by
  simp [inBraces]

/-- Marks with commas between them. -/
def commaMarks : List (List Mark) → List Mark
  | [] => []
  | [ms] => ms
  | ms :: ns :: rest => ms ++ .symbol .comma :: commaMarks (ns :: rest)

/-- The first mark stands on the line on which the one before it ends. -/
def tighten : List Mark → List Mark
  | [] => []
  | m :: ms => { m with tight := true } :: ms

/-- A generated name: a word, or two with a point between. -/
def pathMarks (text : String) : List Mark :=
  match text.toList.dropWhile (· != '.') with
  | [] => [.word text]
  | _ :: name => [.word (String.ofList (text.toList.takeWhile (· != '.'))), .symbol .dot, .name (String.ofList name)]

def quotedMark (kind : Kind) (s : String) (quote : Char) : Mark := ⟨kind, requoted s quote, false⟩

def numberMark (s : String) : Mark := ⟨.number, s, false⟩

def Literal.mark : Literal → Mark
  | number s => numberMark s
  | string s q => quotedMark .string s q
  | template s => quotedMark .template s '`'
  | boolean true => .word "true"
  | boolean false => .word "false"
  | null => .word "null"

def ObjectKey.mark : ObjectKey → Mark
  | name s => .word s
  | string s q => quotedMark .string s q
  | number s => numberMark s

/-- The name of a class member as it is declared. -/
def PropertyName.declaredMarks : PropertyName → List Mark
  | plain s => [.word s]
  | hashed s => [.symbol .hash, .name s]

/-- The name of a property as it is used, its plain form exchanged by `f`. -/
def PropertyName.usedMarks (f : String → String) : PropertyName → List Mark
  | plain s => [.name (f s)]
  | hashed s => [.symbol .hash, .name s]

def BinaryOp.mark : BinaryOp → Mark
  | add => .symbol .plus
  | subtract => .symbol .minus
  | multiply => .symbol .star
  | divide => .symbol .slash
  | modulo => .symbol .percent
  | exponent => .symbol .exponent
  | bitwiseAnd => .symbol .ampersand
  | bitwiseOr => .symbol .pipe
  | leftShift => .symbol .leftShift
  | rightShift => .symbol .rightShift
  | unsignedRightShift => .symbol .unsignedRightShift
  | equal => .symbol .equal
  | notEqual => .symbol .notEqual
  | strictEqual => .symbol .strictEqual
  | strictNotEqual => .symbol .strictNotEqual
  | less => .symbol .less
  | lessEqual => .symbol .lessEqual
  | greater => .symbol .greater
  | greaterEqual => .symbol .greaterEqual
  | instanceOf => .word "instanceof"
  | and => .symbol .logicalAnd
  | or => .symbol .logicalOr
  | nullish => .symbol .nullishCoalescing

def AssignOp.symbol : AssignOp → Symbol
  | assign => .assign
  | add => .plusAssign
  | subtract => .minusAssign
  | multiply => .starAssign
  | divide => .slashAssign
  | modulo => .percentAssign

def UpdateOp.symbol : UpdateOp → Symbol
  | increment => .increment
  | decrement => .decrement

def UnaryOp.mark : UnaryOp → Mark
  | not => .symbol .bang
  | negate => .symbol .minus
  | plus => .symbol .plus
  | typeOf => .word "typeof"

def VariableKind.mark (kind : VariableKind) : Mark := .word kind.text

def Modifiers.marks (m : Modifiers) : List Mark := if m.isStatic then [.word "static"] else []

/-- What stands directly before the name of a method. -/
def MethodKind.marks : MethodKind → List Mark
  | getter => [.word "get"]
  | setter => [.word "set"]
  | constructor | ordinary => []

/-- Whether a line that begins so would be read as a block or a function declaration. -/
def opensAmbiguously : List Mark → Bool
  | [] => false
  | m :: _ => m.text == r"{" || m.text == "function"

/-- Parameters and body of a callable. -/
def callableMarks (params : List (List Mark)) (body : List Mark) : List Mark :=
  inParens true (commaMarks params) ++ inBraces body

/-! ## Expressions and statements -/

mutual

/-- The marks of an expression's code. -/
def Expr.marks (role : Role) : Expr → List Mark
  | .literal value _ => [value.mark]
  | .ident name _ => pathMarks (identifierName name)
  | .this _ => [.word "this"]
  | .super _ => [.word "super"]
  | .array items _ => .symbol .leftBracket :: commaMarks (exprsMarks items) ++ [.symbol .rightBracket]
  | .object properties _ => inBraces (commaMarks (propertiesMarks properties))
  | .function ⟨name, params, _, body, _⟩ =>
    .word "function" :: (name.map fun id => Mark.word id.name).toList ++ callableMarks (bindingsMarks params)
      (bodyMarks body)
  | .unary op operand _ => op.mark :: inParens (operand.precedence < unaryPrecedence) (operand.marks .value)
  | .update op before target _ =>
    if before then .symbol op.symbol :: target.marks .value
    else target.marks .value ++ tighten [.symbol op.symbol]
  | .binary op left right _ =>
    inParens (left.parensOnLeft op) (left.marks .value) ++ op.mark :: inParens (right.parensOnRight op)
      (right.marks .value)
  | .assign op target value _ => target.marks .value ++ .symbol op.symbol :: value.marks .value
  | .call callee args optional _ =>
    inParens (callee.precedence < callPrecedence) (callee.marks .callee)
      ++ (if optional then [.symbol .optionalChain] else []) ++ inParens true (commaMarks (exprsMarks args))
  | .new callee args _ =>
    .word "new" :: inParens callee.parensUnderNew (callee.marks .value) ++ inParens true (commaMarks (exprsMarks args))
  | .member object name optional _ =>
    inParens object.parensBeforeProperty (object.marks .value)
      ++ .symbol (if optional then .optionalChain else .dot) :: name.usedMarks role.rename
  | .index object key optional _ =>
    inParens object.parensBeforeProperty (object.marks .value) ++ (if optional then [.symbol .optionalChain] else [])
      ++ .symbol .leftBracket :: key.marks .value ++ [.symbol .rightBracket]

def exprsMarks : List Expr → List (List Mark)
  | [] => []
  | e :: es => e.marks .value :: exprsMarks es

def propertiesMarks : List Property → List (List Mark)
  | [] => []
  | ⟨key, value, _⟩ :: ps => (key.mark :: .symbol .colon :: value.marks .value) :: propertiesMarks ps

def bindingsMarks : List Binding → List (List Mark)
  | [] => []
  | ⟨id, _, value, _⟩ :: bs => (.word id.name :: valueMarks value) :: bindingsMarks bs

/-- A value behind the sign of assignment, if there is one. -/
def valueMarks : Option Expr → List Mark
  | none => []
  | some e => .symbol .assign :: e.marks .value

def bodyMarks : Option Block → List Mark
  | none => []
  | some ⟨body, _⟩ => stmtsMarks body

def declarationMarks : Declaration → List Mark
  | ⟨kind, bindings, _⟩ => kind.mark :: commaMarks (bindingsMarks bindings)

def initMarks : Option ForInit → List Mark
  | none => []
  | some (.declaration d) => declarationMarks d
  | some (.expression e) => e.marks .value

def clauseMarks : Option Expr → List Mark
  | none => []
  | some e => e.marks .value

/-- The marks of a statement's code, or of what stands inside its braces. -/
def Stmt.marks (place : Place) : Stmt → List Mark
  | .declaration d => declarationMarks d ++ [.symbol .semicolon]
  | .function ⟨name, params, _, body, _⟩ =>
    .word "function" :: (name.map fun id => Mark.word id.name).toList ++ callableMarks (bindingsMarks params)
      (bodyMarks body)
  | .classDecl name base _ members _ =>
    .word "class" :: .word name.name :: heritageMarks base ++ inBraces (membersMarks members)
  | .block ⟨body, _⟩ =>
    match place with
    | .lines => inBraces (stmtsMarks body)
    | .inside => stmtsMarks body
  | .ifElse test consequent alternate _ =>
    .word "if" :: inParens true (test.marks .value) ++ inBraces (consequent.marks .inside) ++ elseMarks alternate
  | .forLoop init test update body _ =>
    .word "for" :: inParens true (initMarks init ++ .symbol .semicolon :: clauseMarks test
      ++ .symbol .semicolon :: clauseMarks update) ++ inBraces (body.marks .inside)
  | .forEach kind id _ iterable body _ =>
    .word "for" :: inParens true (kind.mark :: .word id.name :: .word "of" :: iterable.marks .value)
      ++ inBraces (body.marks .inside)
  | .whileLoop test body _ => .word "while" :: inParens true (test.marks .value) ++ inBraces (body.marks .inside)
  | .ret none _ => [.word "return", .symbol .semicolon]
  | .ret (some value) _ => .word "return" :: tighten (value.marks .value) ++ [.symbol .semicolon]
  | .expression e _ => inParens (opensAmbiguously (e.marks .value)) (e.marks .value) ++ [.symbol .semicolon]

/-- The base of a class, if it has one. -/
def heritageMarks : Option Expr → List Mark
  | none => []
  | some e => .word "extends" :: e.marks .value

/-- The branches after the first. -/
def elseMarks : Option Stmt → List Mark
  | none => []
  | some s => .word "else" :: if s.isIf then s.marks .lines else inBraces (s.marks .inside)

def stmtsMarks : List Stmt → List Mark
  | [] => []
  | s :: ss => s.marks .lines ++ stmtsMarks ss

/-- The members of a class. Methods without a body have no marks. -/
def membersMarks : List Member → List Mark
  | [] => []
  | .method name kind ⟨_, params, _, some ⟨body, _⟩, _⟩ modifiers _ _ :: ms =>
    modifiers.marks ++ kind.marks ++ name.declaredMarks ++ callableMarks (bindingsMarks params) (stmtsMarks body)
      ++ membersMarks ms
  | .method _ _ ⟨_, _, _, none, _⟩ _ _ _ :: ms => membersMarks ms
  | .field name _ value modifiers _ _ :: ms =>
    modifiers.marks ++ name.declaredMarks ++ valueMarks value ++ .symbol .semicolon :: membersMarks ms

end

end Vernacular
