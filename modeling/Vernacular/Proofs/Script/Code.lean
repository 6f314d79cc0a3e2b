import Vernacular.Proofs.Tree.Normal

/-!
# The text of generated code

`Expr.code` and `Stmt.code` say what text a tree becomes, without counting, without failing and without a layout that is
filled line by line. A block is either empty and closes at once, or has its lines between its braces (`braced`).

For trees that keep their promises this is the text that generation writes (`Vernacular.Proofs.Script.Total`).
-/

namespace Vernacular

/-- One unit further in. -/
def Margin.deeper (m : Margin) : Margin := { m with level := m.level + 1 }

/-- Lines in braces, of which the closing one stands on a line with the given margin. -/
def braced (margin : Margin) (lines : String) : String :=
  if lines = "" then "{}" else r"{" ++ "\n" ++ lines ++ margin.text ++ r"}"

/-- A text on a line of its own. -/
def Margin.line (margin : Margin) (code : String) : String := margin.text ++ code ++ "\n"

/-- A statement's code as it goes on a line, or as the lines inside braces. -/
def Place.put (place : Place) (margin : Margin) (code : String) : String :=
  match place with
  | .lines => code
  | .inside => margin.line code

/-- A callable: what stands before its parameters, the parameters, and the lines of its body. -/
def callableCode (margin : Margin) (header : String) (params : List String) (lines : String) : String :=
  header ++ "(" ++ commaSeparated params ++ ") " ++ braced margin lines

mutual

/-- The text of an expression on a line with the given margin. -/
def Expr.code (margin : Margin) (role : Role) : Expr → String
  | .literal value _ => value.text
  | .ident name _ => identifierName name
  | .this _ => "this"
  | .super _ => "super"
  | .array items _ => "[" ++ commaSeparated (exprCodes margin items) ++ "]"
  | .object [] _ => "{}"
  | .object properties _ => r"{ " ++ commaSeparated (propertyCodes margin properties) ++ r" }"
  | .function ⟨name, params, _, body, _⟩ =>
    trimStart (margin.text ++ callableCode margin ("function " ++ (name.map Ident.name).getD "")
      (bindingCodes margin params) (bodyLines margin.deeper body))
  | .unary op operand _ => op.apply (parens (operand.precedence < unaryPrecedence) (operand.code margin .value))
  | .update op before target _ =>
    if before then op.text ++ target.code margin .value else target.code margin .value ++ op.text
  | .binary op left right _ =>
    parens (left.parensOnLeft op) (left.code margin .value) ++ " " ++ op.text ++ " "
      ++ parens (right.parensOnRight op) (right.code margin .value)
  | .assign op target value _ => target.code margin .value ++ " " ++ op.text ++ " " ++ value.code margin .value
  | .call callee args optional _ =>
    parens (callee.precedence < callPrecedence) (callee.code margin .callee) ++ (if optional then "?." else "") ++ "("
      ++ commaSeparated (exprCodes margin args) ++ ")"
  | .new callee args _ =>
    "new " ++ parens callee.parensUnderNew (callee.code margin .value) ++ "(" ++ commaSeparated (exprCodes margin args)
      ++ ")"
  | .member object name optional _ =>
    parens object.parensBeforeProperty (object.code margin .value) ++ (if optional then "?." else ".")
      ++ name.used role.rename
  | .index object key optional _ =>
    parens object.parensBeforeProperty (object.code margin .value) ++ (if optional then "?." else "") ++ "["
      ++ key.code margin .value ++ "]"

def exprCodes (margin : Margin) : List Expr → List String
  | [] => []
  | e :: es => e.code margin .value :: exprCodes margin es

def propertyCodes (margin : Margin) : List Property → List String
  | [] => []
  | ⟨key, value, _⟩ :: ps => (key.text ++ ": " ++ value.code margin .value) :: propertyCodes margin ps

def bindingCodes (margin : Margin) : List Binding → List String
  | [] => []
  | ⟨id, _, none, _⟩ :: bs => id.name :: bindingCodes margin bs
  | ⟨id, _, some value, _⟩ :: bs => (id.name ++ " = " ++ value.code margin .value) :: bindingCodes margin bs

/-- The lines of a body, if there is one. -/
def bodyLines (margin : Margin) : Option Block → String
  | none => ""
  | some ⟨body, _⟩ => stmtLines margin body

def declarationCode (margin : Margin) : Declaration → String
  | ⟨kind, bindings, _⟩ => kind.text ++ " " ++ commaSeparated (bindingCodes margin bindings)

def initCode (margin : Margin) : Option ForInit → String
  | none => ""
  | some (.declaration d) => declarationCode margin d
  | some (.expression e) => e.code margin .value

def clauseCode (margin : Margin) : Option Expr → String
  | none => ""
  | some e => " " ++ e.code margin .value

/-- The text of a statement: for a line with the given margin, or all lines inside braces. -/
def Stmt.code (margin : Margin) (place : Place) : Stmt → String
  | .declaration d => place.put margin (declarationCode margin d ++ ";")
  | .function ⟨name, params, _, body, _⟩ =>
    place.put margin (callableCode margin ("function " ++ (name.map Ident.name).getD "") (bindingCodes margin params)
      (bodyLines margin.deeper body))
  | .classDecl name base _ members _ =>
    place.put margin ("class " ++ name.name ++ heritageCode margin base ++ " "
      ++ braced margin (memberLines margin.deeper members))
  | .block ⟨body, _⟩ =>
    match place with
    | .lines => braced margin (stmtLines margin.deeper body)
    | .inside => stmtLines margin body
  | .ifElse test consequent alternate _ =>
    place.put margin ("if (" ++ test.code margin .value ++ ") " ++ braced margin (consequent.code margin.deeper .inside)
      ++ elseCode margin alternate)
  | .forLoop init test update body _ =>
    place.put margin ("for (" ++ initCode margin init ++ ";" ++ clauseCode margin test ++ ";" ++
      clauseCode margin update ++ ") " ++ braced margin (body.code margin.deeper .inside))
  | .forEach kind id _ iterable body _ =>
    place.put margin ("for (" ++ kind.text ++ " " ++ id.name ++ " of " ++ iterable.code margin .value ++ ") "
      ++ braced margin (body.code margin.deeper .inside))
  | .whileLoop test body _ =>
    place.put margin ("while (" ++ test.code margin .value ++ ") " ++ braced margin (body.code margin.deeper .inside))
  | .ret none _ => place.put margin "return;"
  | .ret (some value) _ => place.put margin ("return " ++ value.code margin .value ++ ";")
  | .expression e _ =>
    place.put margin (parens (startsAmbiguously (e.code margin .value)) (e.code margin .value) ++ ";")

/-- The base of a class, if it has one. -/
def heritageCode (margin : Margin) : Option Expr → String
  | none => ""
  | some e => " extends " ++ e.code margin .value

/-- The branches after the first. -/
def elseCode (margin : Margin) : Option Stmt → String
  | none => ""
  | some (.ifElse test consequent alternate _) =>
    " else if (" ++ test.code margin .value ++ ") " ++ braced margin (consequent.code margin.deeper .inside)
      ++ elseCode margin alternate
  | some s => " else " ++ braced margin (s.code margin.deeper .inside)

def stmtLines (margin : Margin) : List Stmt → String
  | [] => ""
  | s :: ss => margin.line (s.code margin .lines) ++ stmtLines margin ss

/-- The lines of the members of a class. Methods without a body have none. -/
def memberLines (margin : Margin) : List Member → String
  | [] => ""
  | .method name kind ⟨_, params, _, some ⟨body, _⟩, _⟩ modifiers _ _ :: ms =>
    margin.line (callableCode margin (modifiers.text ++ kind.text ++ name.declared) (bindingCodes margin params)
      (stmtLines margin.deeper body)) ++ memberLines margin ms
  | .method _ _ ⟨_, _, _, none, _⟩ _ _ _ :: ms => memberLines margin ms
  | .field name _ value modifiers _ _ :: ms =>
    margin.line (modifiers.text ++ name.declared ++ valueCode margin value ++ ";") ++ memberLines margin ms

/-- The value of a field, if it has one. -/
def valueCode (margin : Margin) : Option Expr → String
  | none => ""
  | some e => " = " ++ e.code margin .value

end

/-- The last branch, if it is no condition again. -/
theorem elseCode_of_not_isIf {s : Stmt} (h : s.isIf = false) (m : Margin) :
    elseCode m (some s) = " else " ++ braced m (s.code m.deeper .inside) := by
  cases s with
  | ifElse => cases h
  | _ => rfl

/-- The code of a program. -/
def Program.code (unit : String) (p : Program) : String :=
  ({ Layout.start ⟨unit, 0⟩ with code := stmtLines ⟨unit, 0⟩ p.body } : Layout).build

end Vernacular
