import Vernacular.Source.Position
import Vernacular.Tree.Operator

/-!
# Program trees

A program is a list of statements. Every node carries the stretch of text it was read from. Numbers, strings and
templates are kept as written, and so are type names, modifiers and decorators, although generated text shows nothing of
them.

Declared variables and parameters have one shape, `Binding`: a name, perhaps a type, perhaps a value. Functions,
function expressions and methods share `Callable`.
-/

namespace Vernacular

/-- A name and its place: a bound name, the name of a type, a decorator. -/
structure Ident where
  name : String
  span : Span
deriving DecidableEq, Repr, Inhabited

/-- The two ways to declare variables. -/
inductive VariableKind where
  | mutable | constant
deriving DecidableEq, Repr

/-- Values that are written out. A string keeps its quote and the text between the quotes. -/
inductive Literal where
  | number (text : String)
  | string (text : String) (quote : Char)
  | template (text : String)
  | boolean (value : Bool)
  | null
deriving DecidableEq, Repr

/-- The name of a property: plain, or private and then written with a hash. -/
inductive PropertyName where
  | plain (name : String)
  | hashed (name : String)
deriving DecidableEq, Repr

/-- The key of a property in an object literal. -/
inductive ObjectKey where
  | name (name : String)
  | string (text : String) (quote : Char)
  | number (text : String)
deriving DecidableEq, Repr

/-- Who may use a class member. -/
inductive Access where
  | everyone | owner | family
deriving DecidableEq, Repr

/-- The words in front of a class member. -/
structure Modifiers where
  access : Option Access
  isStatic : Bool
  isAbstract : Bool
deriving DecidableEq, Repr

instance : Inhabited Modifiers := ⟨⟨none, false, false⟩⟩

/-- What a method is for. -/
inductive MethodKind where
  | constructor | ordinary | getter | setter
deriving DecidableEq, Repr

mutual

/-- Expressions. -/
inductive Expr where
  | literal (value : Literal) (span : Span)
  | ident (name : String) (span : Span)
  | this (span : Span)
  | super (span : Span)
  | array (items : List Expr) (span : Span)
  | object (properties : List Property) (span : Span)
  | function (callable : Callable)
  | unary (op : UnaryOp) (operand : Expr) (span : Span)
  /-- `before` says that the operator stands in front of its target. -/
  | update (op : UpdateOp) (before : Bool) (target : Expr) (span : Span)
  | binary (op : BinaryOp) (left right : Expr) (span : Span)
  | assign (op : AssignOp) (target value : Expr) (span : Span)
  /-- `optional` says that the call is skipped if the callee is absent. -/
  | call (callee : Expr) (args : List Expr) (optional : Bool) (span : Span)
  | new (callee : Expr) (args : List Expr) (span : Span)
  /-- A property looked up by name. -/
  | member (object : Expr) (name : PropertyName) (optional : Bool) (span : Span)
  /-- A property looked up by a computed key. -/
  | index (object key : Expr) (optional : Bool) (span : Span)

/-- A property of an object literal. -/
structure Property where
  key : ObjectKey
  value : Expr
  span : Span

/-- A declared variable or a parameter. -/
structure Binding where
  id : Ident
  type : Option Ident
  value : Option Expr
  span : Span

/-- A function, function expression or method. Only an abstract method has no body. -/
structure Callable where
  name : Option Ident
  params : List Binding
  result : Option Ident
  body : Option Block
  span : Span

/-- Statements between braces. -/
structure Block where
  body : List Stmt
  span : Span

/-- A declaration of variables. -/
structure Declaration where
  kind : VariableKind
  bindings : List Binding
  span : Span

/-- What a counting loop does first. -/
inductive ForInit where
  | declaration (declaration : Declaration)
  | expression (expression : Expr)

/-- Statements. -/
inductive Stmt where
  | declaration (declaration : Declaration)
  | function (callable : Callable)
  | classDecl (name : Ident) (base : Option Expr) (interfaces : List Ident) (members : List Member) (span : Span)
  | block (block : Block)
  | ifElse (test : Expr) (consequent : Stmt) (alternate : Option Stmt) (span : Span)
  | forLoop (init : Option ForInit) (test update : Option Expr) (body : Stmt) (span : Span)
  | forEach (kind : VariableKind) (id : Ident) (type : Option Ident) (iterable : Expr) (body : Stmt) (span : Span)
  | whileLoop (test : Expr) (body : Stmt) (span : Span)
  | ret (value : Option Expr) (span : Span)
  | expression (expression : Expr) (span : Span)

/-- Class members. -/
inductive Member where
  | method (name : PropertyName) (kind : MethodKind) (callable : Callable) (modifiers : Modifiers)
      (decorators : List Ident) (span : Span)
  | field (name : PropertyName) (type : Option Ident) (value : Option Expr) (modifiers : Modifiers)
      (decorators : List Ident) (span : Span)

end

/-- A whole program. -/
structure Program where
  body : List Stmt
  span : Span

namespace Expr

/-- The stretch of text of an expression. -/
def span : Expr → Span
  | literal _ s | ident _ s | this s | super s | array _ s | object _ s | unary _ _ s | update _ _ _ s | binary _ _ _ s
  | assign _ _ _ s | call _ _ _ s | new _ _ s | member _ _ _ s | index _ _ _ s => s
  | function c => c.span

/-- The name of the kind of an expression in dumps and messages. -/
def label : Expr → String
  | literal .. => "Literal"
  | ident .. => "Identifier"
  | this .. => "ThisExpression"
  | super .. => "Super"
  | array .. => "ArrayExpression"
  | object .. => "ObjectExpression"
  | function .. => "FunctionExpression"
  | unary .. => "UnaryExpression"
  | update .. => "UpdateExpression"
  | binary op .. => if op.isLogical then "LogicalExpression" else "BinaryExpression"
  | assign .. => "AssignmentExpression"
  | call .. => "CallExpression"
  | new .. => "NewExpression"
  | member .. | index .. => "MemberExpression"

/-- Names and properties can be assigned to. -/
def isAssignable : Expr → Bool
  | ident .. | member .. | index .. => true
  | _ => false

end Expr

namespace Stmt

/-- The stretch of text of a statement. -/
def span : Stmt → Span
  | declaration d => d.span
  | function c => c.span
  | block b => b.span
  | classDecl _ _ _ _ s | ifElse _ _ _ s | forLoop _ _ _ _ s | forEach _ _ _ _ _ s | whileLoop _ _ s | ret _ s
  | expression _ s => s

/-- The name of the kind of a statement in dumps. -/
def label : Stmt → String
  | declaration .. => "VariableDeclaration"
  | function .. => "FunctionDeclaration"
  | classDecl .. => "ClassDeclaration"
  | block .. => "BlockStatement"
  | ifElse .. => "IfStatement"
  | forLoop .. => "ForStatement"
  | forEach .. => "ForOfStatement"
  | whileLoop .. => "WhileStatement"
  | ret .. => "ReturnStatement"
  | expression .. => "ExpressionStatement"

end Stmt

/-- The stretch of text of a class member. -/
def Member.span : Member → Span
  | method _ _ _ _ _ s | field _ _ _ _ _ s => s

end Vernacular
