import Vernacular.Tree.Basic

/-!
# Trees without annotations

`Program.erased` is a program without what is written for its readers and its checks only: types, interfaces, access and
decorators. Methods that are abstract and have no body are gone, and so are all places. What else a tree says is kept,
also if it is nothing that can be read: a function without a body, an assignment to what cannot be assigned to, a method
that has no body and is not abstract.
-/

namespace Vernacular

/-- A bound name without its place. -/
def Ident.erased (id : Ident) : Ident := { id with span := default }

/-- Modifiers without access. -/
def Modifiers.erased (m : Modifiers) : Modifiers := { m with access := none }

mutual

/-- An expression without annotations. -/
def Expr.erased : Expr → Expr
  | .literal value _ => .literal value default
  | .ident name _ => .ident name default
  | .this _ => .this default
  | .super _ => .super default
  | .array items _ => .array (exprsErased items) default
  | .object properties _ => .object (propertiesErased properties) default
  | .function callable => .function callable.erased
  | .unary op operand _ => .unary op operand.erased default
  | .update op before target _ => .update op before target.erased default
  | .binary op left right _ => .binary op left.erased right.erased default
  | .assign op target value _ => .assign op target.erased value.erased default
  | .call callee args optional _ => .call callee.erased (exprsErased args) optional default
  | .new callee args _ => .new callee.erased (exprsErased args) default
  | .member object name optional _ => .member object.erased name optional default
  | .index object key optional _ => .index object.erased key.erased optional default

def exprsErased : List Expr → List Expr
  | [] => []
  | e :: es => e.erased :: exprsErased es

def optExprErased : Option Expr → Option Expr
  | none => none
  | some e => some e.erased

def propertiesErased : List Property → List Property
  | [] => []
  | ⟨key, value, _⟩ :: ps => ⟨key, value.erased, default⟩ :: propertiesErased ps

def bindingsErased : List Binding → List Binding
  | [] => []
  | ⟨id, _, value, _⟩ :: bs => ⟨id.erased, none, optExprErased value, default⟩ :: bindingsErased bs

def Callable.erased : Callable → Callable
  | ⟨name, params, _, body, _⟩ => ⟨name.map Ident.erased, bindingsErased params, none, optBlockErased body, default⟩

def optBlockErased : Option Block → Option Block
  | none => none
  | some ⟨body, _⟩ => some ⟨stmtsErased body, default⟩

def Declaration.erased : Declaration → Declaration
  | ⟨kind, bindings, _⟩ => ⟨kind, bindingsErased bindings, default⟩

def optForInitErased : Option ForInit → Option ForInit
  | none => none
  | some (.declaration d) => some (.declaration d.erased)
  | some (.expression e) => some (.expression e.erased)

/-- A statement without annotations. -/
def Stmt.erased : Stmt → Stmt
  | .declaration d => .declaration d.erased
  | .function callable => .function callable.erased
  | .classDecl name base _ members _ =>
    .classDecl name.erased (optExprErased base) [] (membersErased members) default
  | .block ⟨body, _⟩ => .block ⟨stmtsErased body, default⟩
  | .ifElse test consequent alternate _ =>
    .ifElse test.erased consequent.erased (optStmtErased alternate) default
  | .forLoop init test update body _ =>
    .forLoop (optForInitErased init) (optExprErased test) (optExprErased update) body.erased default
  | .forEach kind id _ iterable body _ => .forEach kind id.erased none iterable.erased body.erased default
  | .whileLoop test body _ => .whileLoop test.erased body.erased default
  | .ret value _ => .ret (optExprErased value) default
  | .expression e _ => .expression e.erased default

def optStmtErased : Option Stmt → Option Stmt
  | none => none
  | some s => some s.erased

def stmtsErased : List Stmt → List Stmt
  | [] => []
  | s :: ss => s.erased :: stmtsErased ss

/-- Abstract methods without a body are left out. -/
def membersErased : List Member → List Member
  | [] => []
  | .method name kind callable modifiers _ _ :: ms =>
    if modifiers.isAbstract && callable.body.isNone then membersErased ms
    else .method name kind callable.erased modifiers.erased [] default :: membersErased ms
  | .field name _ value modifiers _ _ :: ms =>
    .field name none (optExprErased value) modifiers.erased [] default :: membersErased ms

end

/-- A program without annotations. -/
def Program.erased (p : Program) : Program := ⟨stmtsErased p.body, default⟩

end Vernacular
