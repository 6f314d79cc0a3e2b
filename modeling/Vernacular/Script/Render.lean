import Vernacular.Script.Layout
import Vernacular.Script.Names
import Vernacular.Script.Precedence

/-!
# Generated code

Expressions become texts, statements become lines of a `Layout`. Types, access, decorators and interfaces leave no
trace; bodies of conditions and loops always get braces.

Statements and expressions are counted as their generation begins, also if it fails later. A failure leaves the lines
that were written and closes the blocks that were opened.

- `Expr.render` gives the text of an expression, `Stmt.emit` writes a statement;
- `Program.script` is the whole program's code.
-/

namespace Vernacular

/-- Why a tree has no code. -/
inductive GenerationError where
  /-- A declaration declares nothing. -/
  | emptyDeclaration
  /-- A declared function has no name. -/
  | unnamedFunction
  /-- A function has no body; `declared` tells a declaration from an expression. -/
  | missingBody (declared : Bool)
  /-- A method that is not abstract has no body. -/
  | missingMethodBody
  /-- Something that cannot be assigned to is stepped. -/
  | fixedOperand
  /-- Something is assigned to what cannot be assigned to. -/
  | fixedTarget
deriving DecidableEq, Repr

namespace GenerationError

/-- The kind of node that has no code. -/
def node : GenerationError → String
  | emptyDeclaration => "VariableDeclaration"
  | unnamedFunction | missingBody true => "FunctionDeclaration"
  | missingBody false => "FunctionExpression"
  | missingMethodBody => "MethodDefinition"
  | fixedOperand => "UpdateExpression"
  | fixedTarget => "AssignmentExpression"

/-- What is wrong with the node. -/
def reason : GenerationError → String
  | emptyDeclaration => "no declarators"
  | unnamedFunction => "declaration has no name"
  | missingBody _ => "function has no body"
  | missingMethodBody => "non-abstract method has no body"
  | fixedOperand => "operand is not assignable"
  | fixedTarget => "target is not assignable"

/-- The error in words. -/
def message (e : GenerationError) : String :=
  "Internal compiler error: cannot generate " ++ e.node ++ ": " ++ e.reason

end GenerationError

/-- How many statements and expressions were begun. -/
structure Tally where
  statements : Nat
  expressions : Nat
deriving DecidableEq, Repr

/-- Nothing was begun. -/
def Tally.zero : Tally := ⟨0, 0⟩

/-- A layout, the unit by which lines inside of expressions are indented, and the count of what was begun. The unit need
not be that of the layout. -/
structure Page where
  layout : Layout
  unit : String
  tally : Tally
deriving DecidableEq, Repr

/-- The margin of what is written inside of an expression on the next line. -/
def Page.margin (p : Page) : Margin := ⟨p.unit, p.layout.margin.level⟩

/-- Generation of a text. -/
abbrev Counted (α : Type) : Type := EStateM GenerationError Tally α

/-- Generation of lines. -/
abbrev Emit (α : Type) : Type := EStateM GenerationError Page α

/-- Texts with commas between them. -/
def commaSeparated (parts : List String) : String := String.intercalate ", " parts

namespace Counted

/-- Counts an expression. -/
def expression : Counted Unit := modify fun t => { t with expressions := t.expressions + 1 }

end Counted

namespace Emit

/-- Counts a statement. -/
def statement : Emit Unit :=
  modify fun p => { p with tally := { p.tally with statements := p.tally.statements + 1 } }

/-- Changes the layout. -/
def layout (f : Layout → Layout) : Emit Unit := modify fun p => { p with layout := f p.layout }

/-- Writes a line. -/
def line (s : String) : Emit Unit := layout (·.line s)

/-- Writes a block. It is closed also if its inside fails. -/
def block (header : String) (inside : Emit Unit) : Emit Unit := fun p =>
  match inside { p with layout := p.layout.openBlock header } with
  | .ok () p => .ok () { p with layout := p.layout.close }
  | .error e p => .error e { p with layout := p.layout.close }

/-- Generates texts for the line that comes next. -/
def text {α : Type} (f : Margin → Counted α) : Emit α := fun p =>
  match f p.margin p.tally with
  | .ok a tally => .ok a { p with tally }
  | .error e tally => .error e { p with tally }

/-- Writes a callable: what stands before its parameters, the parameters, and the inside of its body. -/
def callable (header : String) (params : Emit (List String)) (inside : Emit Unit) : Emit Unit := do
  block (header ++ "(" ++ commaSeparated (← params) ++ ")") inside

/-- Lines of their own as a text that goes on a line with the given margin. -/
def detached (margin : Margin) (lines : Emit Unit) : Counted String := fun tally =>
  match lines ⟨.start margin, margin.unit, tally⟩ with
  | .ok () p => .ok (trimStart p.layout.build) p.tally
  | .error e p => .error e p.tally

end Emit

/-! ## Small parts -/

/-- A text, in parentheses if `b` holds. -/
def parens (b : Bool) (s : String) : String := if b then "(" ++ s ++ ")" else s

/-- A quoted text with its quotes. -/
def requoted (s : String) (quote : Char) : String := String.singleton quote ++ s ++ String.singleton quote

/-- Literals stand as they were written. -/
def Literal.text : Literal → String
  | number s => s
  | string s q => requoted s q
  | template s => "`" ++ s ++ "`"
  | boolean true => "true"
  | boolean false => "false"
  | null => "null"

def ObjectKey.text : ObjectKey → String
  | name s => s
  | string s q => requoted s q
  | number s => s

/-- The name of a class member as it is declared. -/
def PropertyName.declared : PropertyName → String
  | plain s => s
  | hashed s => "#" ++ s

/-- The name of a property as it is used, its plain form exchanged by `f`. -/
def PropertyName.used (f : String → String) : PropertyName → String
  | plain s => f s
  | hashed s => "#" ++ s

def VariableKind.text : VariableKind → String
  | mutable => "let"
  | constant => "const"

/-- An operator in front of its operand. A blank keeps two signs apart. -/
def UnaryOp.apply (op : UnaryOp) (operand : String) : String :=
  match op with
  | typeOf => "typeof " ++ operand
  | not => "!" ++ operand
  | negate => if operand.toList.head? = some '-' then "- " ++ operand else "-" ++ operand
  | plus => if operand.toList.head? = some '+' then "+ " ++ operand else "+" ++ operand

/-- Whether a line that begins so would be read as a block or a function declaration. -/
def startsAmbiguously (code : String) : Bool :=
  let cs := code.toList
  let word := "function".toList
  cs.head? == some '{'
    || word.isPrefixOf cs && !(cs.drop word.length).head?.any fun c => c.isAlphanum || c == '_' || c == '$'

/-- What stands before the name of a class member. -/
def Modifiers.text (m : Modifiers) : String := if m.isStatic then "static " else ""

/-- What stands directly before the name of a method. -/
def MethodKind.text : MethodKind → String
  | getter => "get "
  | setter => "set "
  | constructor | ordinary => ""

/-- Where an expression stands: alone, or as that which is called. -/
inductive Role where
  | value | callee
deriving DecidableEq, Repr

/-- Where a statement stands: on lines of its own, or as the inside of braces that are there already. -/
inductive Place where
  | lines | inside
deriving DecidableEq, Repr

/-- A property that is called belongs to the call and is not counted. -/
def Role.count (role : Role) : Expr → Counted Unit
  | .member .. | .index .. => if role = .callee then pure () else Counted.expression
  | _ => Counted.expression

/-- A block whose braces are there already is not counted. -/
def Place.count (place : Place) : Stmt → Emit Unit
  | .block _ => if place = .inside then pure () else Emit.statement
  | _ => Emit.statement

/-- Names of properties are exchanged by one table, names of called methods by another. -/
def Role.rename : Role → String → String
  | value => propertyText
  | callee => methodText

/-! ## Expressions and statements -/

mutual

/-- The text of an expression on a line with the given margin. -/
def Expr.render (margin : Margin) (role : Role) (e : Expr) : Counted String := do
  role.count e
  match e with
  | .literal value _ => return value.text
  | .ident name _ => return identifierName name
  | .this _ => return "this"
  | .super _ => return "super"
  | .array items _ => return "[" ++ commaSeparated (← renderExprs margin items) ++ "]"
  | .object [] _ => return "{}"
  | .object properties _ => return r"{ " ++ commaSeparated (← renderProperties margin properties) ++ r" }"
  | .function ⟨name, params, _, body, _⟩ =>
    match body with
    | none => throw (.missingBody false)
    | some ⟨body, _⟩ =>
      let header := "function " ++ (name.map Ident.name).getD ""
      Emit.detached margin (Emit.callable header (Emit.text fun m => bindingTexts m params) (emitAll body))
  | .unary op operand _ =>
    let code ← operand.render margin .value
    return op.apply (parens (operand.precedence < unaryPrecedence) code)
  | .update op before target _ =>
    if target.isAssignable then
      let code ← target.render margin .value
      return if before then op.text ++ code else code ++ op.text
    else throw .fixedOperand
  | .binary op left right _ =>
    let leftCode ← left.render margin .value
    let rightCode ← right.render margin .value
    return parens (left.parensOnLeft op) leftCode ++ " " ++ op.text ++ " " ++ parens (right.parensOnRight op) rightCode
  | .assign op target value _ =>
    if target.isAssignable then
      let targetCode ← target.render margin .value
      let valueCode ← value.render margin .value
      return targetCode ++ " " ++ op.text ++ " " ++ valueCode
    else throw .fixedTarget
  | .call callee args optional _ =>
    let code ← callee.render margin .callee
    let argCodes ← renderExprs margin args
    return parens (callee.precedence < callPrecedence) code ++ (if optional then "?." else "") ++ "("
      ++ commaSeparated argCodes ++ ")"
  | .new callee args _ =>
    let code ← callee.render margin .value
    let argCodes ← renderExprs margin args
    return "new " ++ parens callee.parensUnderNew code ++ "(" ++ commaSeparated argCodes ++ ")"
  | .member object name optional _ =>
    let code ← object.render margin .value
    return parens object.parensBeforeProperty code ++ (if optional then "?." else ".") ++ name.used role.rename
  | .index object key optional _ =>
    let code ← object.render margin .value
    let keyCode ← key.render margin .value
    return parens object.parensBeforeProperty code ++ (if optional then "?." else "") ++ "[" ++ keyCode ++ "]"

/-- The texts of expressions. -/
def renderExprs (margin : Margin) : List Expr → Counted (List String)
  | [] => return []
  | e :: es => return (← e.render margin .value) :: (← renderExprs margin es)

/-- The texts of the properties of an object. -/
def renderProperties (margin : Margin) : List Property → Counted (List String)
  | [] => return []
  | ⟨key, value, _⟩ :: ps =>
    return (key.text ++ ": " ++ (← value.render margin .value)) :: (← renderProperties margin ps)

/-- The texts of bound names with their values. -/
def bindingTexts (margin : Margin) : List Binding → Counted (List String)
  | [] => return []
  | ⟨id, _, none, _⟩ :: bs => return id.name :: (← bindingTexts margin bs)
  | ⟨id, _, some value, _⟩ :: bs =>
    return (id.name ++ " = " ++ (← value.render margin .value)) :: (← bindingTexts margin bs)

/-- A declaration without the semicolon behind it. -/
def renderDeclaration (margin : Margin) : Declaration → Counted String
  | ⟨_, [], _⟩ => throw .emptyDeclaration
  | ⟨kind, bindings, _⟩ => return kind.text ++ " " ++ commaSeparated (← bindingTexts margin bindings)

/-- The first part of a counting loop. -/
def renderInit (margin : Margin) : Option ForInit → Counted String
  | none => return ""
  | some (.declaration d) => renderDeclaration margin d
  | some (.expression e) => e.render margin .value

/-- A later part of a counting loop. -/
def renderClause (margin : Margin) : Option Expr → Counted String
  | none => return ""
  | some e => return " " ++ (← e.render margin .value)

/-- Writes a statement. -/
def Stmt.emit (place : Place) (s : Stmt) : Emit Unit := do
  place.count s
  match s with
  | .declaration d => Emit.line ((← Emit.text fun m => renderDeclaration m d) ++ ";")
  | .function ⟨name, params, _, body, _⟩ =>
    match name, body with
    | none, _ => throw .unnamedFunction
    | some _, none => throw (.missingBody true)
    | some id, some ⟨body, _⟩ =>
      Emit.callable ("function " ++ id.name) (Emit.text fun m => bindingTexts m params) (emitAll body)
  | .classDecl name base _ members _ =>
    let heritage ← match base with
      | none => pure ""
      | some e => do pure (" extends " ++ (← Emit.text fun m => e.render m .value))
    Emit.block ("class " ++ name.name ++ heritage) (emitMembers members)
  | .block ⟨body, _⟩ => if place = .inside then emitAll body else Emit.block "" (emitAll body)
  | .ifElse test consequent alternate _ =>
    let code ← Emit.text fun m => test.render m .value
    let headers ← elseHeaders alternate
    Emit.block ("if (" ++ code ++ ")") do
      consequent.emit .inside
      emitElse headers alternate
  | .forLoop init test update body _ =>
    let initCode ← Emit.text fun m => renderInit m init
    let testCode ← Emit.text fun m => renderClause m test
    let updateCode ← Emit.text fun m => renderClause m update
    Emit.block ("for (" ++ initCode ++ ";" ++ testCode ++ ";" ++ updateCode ++ ")") (body.emit .inside)
  | .forEach kind id _ iterable body _ =>
    let code ← Emit.text fun m => iterable.render m .value
    Emit.block ("for (" ++ kind.text ++ " " ++ id.name ++ " of " ++ code ++ ")") (body.emit .inside)
  | .whileLoop test body _ =>
    let code ← Emit.text fun m => test.render m .value
    Emit.block ("while (" ++ code ++ ")") (body.emit .inside)
  | .ret none _ => Emit.line "return;"
  | .ret (some value) _ => Emit.line ("return " ++ (← Emit.text fun m => value.render m .value) ++ ";")
  | .expression e _ =>
    let code ← Emit.text fun m => e.render m .value
    Emit.line (parens (startsAmbiguously code) code ++ ";")

/-- Writes statements. -/
def emitAll : List Stmt → Emit Unit
  | [] => return
  | s :: ss => do
    s.emit .lines
    emitAll ss

/-- The headers of the branches after the first; a chain of conditions is one statement. -/
def elseHeaders : Option Stmt → Emit (List String)
  | none => return []
  | some (.ifElse test _ alternate _) =>
    return ("else if (" ++ (← Emit.text fun m => test.render m .value) ++ ")") :: (← elseHeaders alternate)
  | some _ => return ["else"]

/-- Writes the branches after the first under the given headers. -/
def emitElse : List String → Option Stmt → Emit Unit
  | header :: headers, some (.ifElse _ consequent alternate _) => do
    Emit.layout (·.reopen header)
    consequent.emit .inside
    emitElse headers alternate
  | header :: _, some s => do
    Emit.layout (·.reopen header)
    s.emit .inside
  | _, _ => return

/-- Writes the members of a class. Abstract methods are left out. -/
def emitMembers : List Member → Emit Unit
  | [] => return
  | .method name kind ⟨_, params, _, body, _⟩ modifiers _ _ :: ms => do
    match body with
    | some ⟨body, _⟩ =>
      Emit.callable (modifiers.text ++ kind.text ++ name.declared) (Emit.text fun m => bindingTexts m params)
        (emitAll body)
    | none => if modifiers.isAbstract then pure () else throw .missingMethodBody
    emitMembers ms
  | .field name _ value modifiers _ _ :: ms => do
    let code ← match value with
      | none => pure ""
      | some e => do pure (" = " ++ (← Emit.text fun m => e.render m .value))
    Emit.line (modifiers.text ++ name.declared ++ code ++ ";")
    emitMembers ms

end

/-! ## Programs -/

/-- The code of a program, its lines indented by multiples of `unit`. -/
def Program.script (unit : String) (p : Program) : Counted String := fun tally =>
  match emitAll p.body ⟨.start ⟨unit, 0⟩, unit, tally⟩ with
  | .ok () page => .ok page.layout.build page.tally
  | .error e page => .error e page.tally

end Vernacular
