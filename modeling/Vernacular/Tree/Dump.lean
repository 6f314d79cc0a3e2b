import Vernacular.Json.Basic
import Vernacular.Token.Basic
import Vernacular.Tree.Basic

/-!
# Tokens and program trees as JSON

A token is an object with its kind, its text and its place. Every node of a tree is an object: statements, expressions
and class members begin with their kind under `type`; the other fields follow in a fixed order, absent parts as `null`.
-/

namespace Vernacular

open Json (nat tagged)

def Position.toJson (p : Position) : Json :=
  .object [("line", nat p.line), ("column", nat p.column), ("offset", nat p.offset)]

def Span.toJson (s : Span) : Json :=
  .object [("start", s.start.toJson), ("end", s.stop.toJson)]

/-! ## Tokens -/

/-- Keywords name themselves under `Keyword`; every other kind is its name alone. -/
def Kind.toJson : Kind → Json
  | eof => .text "Eof"
  | keyword k => tagged "Keyword" (Json.text k.label)
  | type => .text "Type"
  | builtin => .text "Builtin"
  | identifier => .text "Identifier"
  | number => .text "Number"
  | string => .text "String"
  | template => .text "Template"
  | symbol s => .text s.label

def Token.toJson (t : Token) : Json :=
  .object [("token_type", t.kind.toJson), ("text", .text t.text), ("start", t.start.toJson), ("end", t.stop.toJson)]

/-! ## Trees -/

def Ident.toJson (i : Ident) : Json :=
  .object [("name", .text i.name), ("span", i.span.toJson)]

def VariableKind.toJson : VariableKind → Json
  | mutable => .text "Let"
  | constant => .text "Const"

/-- A quoted text and its quote. -/
def Json.quoted (s : String) (quote : Char) : Json :=
  tagged "String" (.object [("value", .text s), ("quote", .text (String.singleton quote))])

def Literal.toJson : Literal → Json
  | number s => tagged "Number" (.text s)
  | string s q => Json.quoted s q
  | template s => tagged "Template" (.text s)
  | boolean b => tagged "Boolean" (.bool b)
  | null => .text "Null"

def PropertyName.toJson : PropertyName → Json
  | plain s => tagged "Identifier" (.text s)
  | hashed s => tagged "Private" (.text s)

def ObjectKey.toJson : ObjectKey → Json
  | name s => tagged "Identifier" (.text s)
  | string s q => Json.quoted s q
  | number s => tagged "Number" (.text s)

def Access.toJson : Access → Json
  | everyone => .text "Public"
  | owner => .text "Private"
  | family => .text "Protected"

def Modifiers.toJson (m : Modifiers) : Json :=
  .object [("access", Json.option Access.toJson m.access), ("is_static", .bool m.isStatic),
    ("is_abstract", .bool m.isAbstract)]

def MethodKind.toJson : MethodKind → Json
  | constructor => .text "Constructor"
  | ordinary => .text "Method"
  | getter => .text "Get"
  | setter => .text "Set"

/-- The fields of a node of the given kind. -/
def Json.node (kind : String) (fields : List (String × Json)) : Json :=
  .object (("type", .text kind) :: fields)

mutual

def Expr.toJson : Expr → Json
  | .literal v s => .node "Literal" [("value", v.toJson), ("span", s.toJson)]
  | .ident n s => .node "Identifier" [("name", .text n), ("span", s.toJson)]
  | .this s => .node "ThisExpression" [("span", s.toJson)]
  | .super s => .node "Super" [("span", s.toJson)]
  | .array es s => .node "ArrayExpression" [("elements", .array (exprsToJson es)), ("span", s.toJson)]
  | .object ps s => .node "ObjectExpression" [("properties", .array (propertiesToJson ps)), ("span", s.toJson)]
  | .function c => .node "FunctionExpression" c.fields
  | .unary op e s =>
    .node "UnaryExpression" [("op", .text op.label), ("operand", e.toJson), ("span", s.toJson)]
  | .update op before e s =>
    .node "UpdateExpression"
      [("op", .text op.label), ("prefix", .bool before), ("argument", e.toJson), ("span", s.toJson)]
  | .binary op l r s =>
    .node (if op.isLogical then "LogicalExpression" else "BinaryExpression")
      [("left", l.toJson), ("op", .text op.label), ("right", r.toJson), ("span", s.toJson)]
  | .assign op t v s =>
    .node "AssignmentExpression"
      [("op", .text op.label), ("target", t.toJson), ("value", v.toJson), ("span", s.toJson)]
  | .call c as opt s =>
    .node "CallExpression"
      [("callee", c.toJson), ("arguments", .array (exprsToJson as)), ("optional", .bool opt), ("span", s.toJson)]
  | .new c as s =>
    .node "NewExpression" [("callee", c.toJson), ("arguments", .array (exprsToJson as)), ("span", s.toJson)]
  | .member o n opt s =>
    .node "MemberExpression"
      [("object", o.toJson), ("property", n.toJson), ("optional", .bool opt), ("span", s.toJson)]
  | .index o k opt s =>
    .node "MemberExpression"
      [("object", o.toJson), ("property", tagged "Computed" k.toJson), ("optional", .bool opt), ("span", s.toJson)]

def exprsToJson : List Expr → List Json
  | [] => []
  | e :: es => e.toJson :: exprsToJson es

/-- An optional expression; absence is `null`. -/
def exprToJson? : Option Expr → Json
  | none => .null
  | some e => e.toJson

def propertiesToJson : List Property → List Json
  | [] => []
  | ⟨k, e, s⟩ :: ps =>
    .object [("key", k.toJson), ("value", e.toJson), ("span", s.toJson)] :: propertiesToJson ps

/-- Bindings, their name and value under the given fields. -/
def bindingsToJson (idField valueField : String) : List Binding → List Json
  | [] => []
  | ⟨i, t, v, s⟩ :: bs =>
    .object [(idField, i.toJson), ("type_annotation", Json.option Ident.toJson t), (valueField, exprToJson? v),
      ("span", s.toJson)] :: bindingsToJson idField valueField bs

def Callable.fields : Callable → List (String × Json)
  | ⟨n, ps, r, b, s⟩ =>
    [("name", Json.option Ident.toJson n), ("params", .array (bindingsToJson "name" "default" ps)),
      ("return_type", Json.option Ident.toJson r), ("body", blockToJson? b), ("span", s.toJson)]

def Block.fields : Block → List (String × Json)
  | ⟨ss, s⟩ => [("body", .array (stmtsToJson ss)), ("span", s.toJson)]

def blockToJson? : Option Block → Json
  | none => .null
  | some b => .object b.fields

def Declaration.fields : Declaration → List (String × Json)
  | ⟨k, bs, s⟩ =>
    [("kind", k.toJson), ("declarations", .array (bindingsToJson "id" "init" bs)), ("span", s.toJson)]

def initToJson? : Option ForInit → Json
  | none => .null
  | some (.declaration d) => tagged "Declaration" (.object d.fields)
  | some (.expression e) => tagged "Expression" e.toJson

def Stmt.toJson : Stmt → Json
  | .declaration d => .node "VariableDeclaration" d.fields
  | .function c => .node "FunctionDeclaration" c.fields
  | .classDecl n b is ms s =>
    .node "ClassDeclaration"
      [("name", n.toJson), ("super_class", exprToJson? b), ("implements", .array (is.map Ident.toJson)),
        ("members", .array (membersToJson ms)), ("span", s.toJson)]
  | .block b => .node "BlockStatement" b.fields
  | .ifElse t c a s =>
    .node "IfStatement"
      [("test", t.toJson), ("consequent", c.toJson), ("alternate", stmtToJson? a), ("span", s.toJson)]
  | .forLoop i t u b s =>
    .node "ForStatement"
      [("init", initToJson? i), ("test", exprToJson? t), ("update", exprToJson? u), ("body", b.toJson),
        ("span", s.toJson)]
  | .forEach k i t e b s =>
    .node "ForOfStatement"
      [("kind", k.toJson), ("binding", i.toJson), ("type_annotation", Json.option Ident.toJson t),
        ("iterable", e.toJson), ("body", b.toJson), ("span", s.toJson)]
  | .whileLoop t b s => .node "WhileStatement" [("test", t.toJson), ("body", b.toJson), ("span", s.toJson)]
  | .ret e s => .node "ReturnStatement" [("argument", exprToJson? e), ("span", s.toJson)]
  | .expression e s => .node "ExpressionStatement" [("expression", e.toJson), ("span", s.toJson)]

def stmtsToJson : List Stmt → List Json
  | [] => []
  | s :: ss => s.toJson :: stmtsToJson ss

/-- An optional statement; absence is `null`. -/
def stmtToJson? : Option Stmt → Json
  | none => .null
  | some s => s.toJson

def membersToJson : List Member → List Json
  | [] => []
  | .method n k c m ds s :: ms =>
    .node "MethodDefinition"
      [("key", n.toJson), ("kind", k.toJson), ("function", .object c.fields), ("modifiers", m.toJson),
        ("decorators", .array (ds.map Ident.toJson)), ("span", s.toJson)] :: membersToJson ms
  | .field n t v m ds s :: ms =>
    .node "FieldDefinition"
      [("key", n.toJson), ("type_annotation", Json.option Ident.toJson t), ("value", exprToJson? v),
        ("modifiers", m.toJson), ("decorators", .array (ds.map Ident.toJson)), ("span", s.toJson)] :: membersToJson ms

end

def Program.toJson (p : Program) : Json :=
  .node "Program" [("body", .array (stmtsToJson p.body)), ("span", p.span.toJson)]

end Vernacular
