import Vernacular.Check.Basic

/-!
# Checking a program

`check` looks up every name and every type of a program. Classes at the top level are known everywhere, functions and
classes in all of the statement list they belong to, other names from their declaration on. A variable is known in its
own first value, a parameter only after its default.
-/

namespace Vernacular

open Checker

mutual

def Expr.check (options : CheckOptions) : Expr → Checker → Checker
  | .ident name span, c => c.resolve options name span.start
  | .literal .., c | .this .., c | .super .., c => c
  | .array items _, c => checkExprs options items c
  | .object properties _, c => checkProperties options properties c
  | .function callable, c => callable.check options c
  | .unary _ e _, c => e.check options c
  | .update _ _ e _, c => e.check options c
  | .binary _ l r _, c => r.check options (l.check options c)
  | .assign _ t v _, c => v.check options (t.check options c)
  | .call e args _ _, c => checkExprs options args (e.check options c)
  | .new e args _, c => checkExprs options args (e.check options c)
  | .member o _ _ _, c => o.check options c
  | .index o k _ _, c => k.check options (o.check options c)

def checkExprs (options : CheckOptions) : List Expr → Checker → Checker
  | [], c => c
  | e :: es, c => checkExprs options es (e.check options c)

def checkExpr? (options : CheckOptions) : Option Expr → Checker → Checker
  | none, c => c
  | some e, c => e.check options c

def checkProperties (options : CheckOptions) : List Property → Checker → Checker
  | [], c => c
  | ⟨_, e, _⟩ :: ps, c => checkProperties options ps (e.check options c)

/-- Declared variables: each is declared before its type and value are looked at. -/
def checkVariables (options : CheckOptions) : List Binding → Checker → Checker
  | [], c => c
  | ⟨id, type, value, _⟩ :: bs, c =>
    checkVariables options bs (checkExpr? options value ((c.declare id).checkType options type))

/-- Parameters: each is declared after its type and default were looked at. -/
def checkParams (options : CheckOptions) : List Binding → Checker → Checker
  | [], c => c
  | ⟨id, type, value, _⟩ :: bs, c =>
    checkParams options bs ((checkExpr? options value (c.checkType options type)).declare id)

/-- A callable: its parameters and its body share one scope. -/
def Callable.check (options : CheckOptions) : Callable → Checker → Checker
  | ⟨name, params, result, body, _⟩, c =>
    let c := (c.enter .function).declareSelf name
    let c := (checkParams options params c).checkType options result
    (checkBody? options body c).exit

def checkBody? (options : CheckOptions) : Option Block → Checker → Checker
  | none, c => c
  | some ⟨body, _⟩, c => checkStmts options body (c.hoist body)

def checkInit? (options : CheckOptions) : Option ForInit → Checker → Checker
  | none, c => c
  | some (.declaration ⟨_, bindings, _⟩), c => checkVariables options bindings c
  | some (.expression e), c => e.check options c

def Stmt.check (options : CheckOptions) : Stmt → Checker → Checker
  | .declaration ⟨_, bindings, _⟩, c => checkVariables options bindings c
  | .function callable, c => callable.check options c
  | .classDecl name base _ members _, c =>
    checkMembers options members (checkExpr? options base (c.declareClass name))
  | .block ⟨body, _⟩, c => (checkStmts options body ((c.enter .block).hoist body)).exit
  | .ifElse test consequent alternate _, c =>
    checkStmt? options alternate (consequent.check options (test.check options c))
  | .forLoop init test update body _, c =>
    let c := checkInit? options init (c.enter .loop)
    let c := checkExpr? options update (checkExpr? options test c)
    (body.check options c).exit
  | .forEach _ id type iterable body _, c =>
    let c := ((iterable.check options c).enter .loop).checkType options type
    (body.check options (c.declare id)).exit
  | .whileLoop test body _, c => body.check options (test.check options c)
  | .ret value _, c => checkExpr? options value c
  | .expression e _, c => e.check options c

def checkStmts (options : CheckOptions) : List Stmt → Checker → Checker
  | [], c => c
  | s :: ss, c => checkStmts options ss (s.check options c)

def checkStmt? (options : CheckOptions) : Option Stmt → Checker → Checker
  | none, c => c
  | some s, c => s.check options c

def checkMembers (options : CheckOptions) : List Member → Checker → Checker
  | [], c => c
  | .method _ _ callable _ _ _ :: ms, c => checkMembers options ms (callable.check options c)
  | .field _ type value _ _ _ :: ms, c =>
    checkMembers options ms (checkExpr? options value (c.checkType options type))

end

/-- The names of the classes at the top level. -/
def topClasses (body : List Stmt) : List Ident :=
  body.filterMap fun
    | .classDecl name _ _ _ _ => some name
    | _ => none

/-- Makes classes types, and reports those whose name was seen before. -/
def collectClasses (options : CheckOptions) : (classes : List Ident) → (seen : List String) → Checker → Checker
  | [], _, c => c
  | id :: ids, seen, c =>
    let c := if seen.contains id.name then c.report options (.duplicateClass id.name id.span.start) else c
    collectClasses options ids (id.name :: seen) (c.addType id.name)

/-- What a check found, and how much it looked at. -/
structure Analysis where
  errors : List SemanticError
  /-- How many names were looked up. -/
  references : Nat
  /-- How many types were looked up. -/
  typeUses : Nat
  /-- How many scopes were opened, the outermost included. -/
  scopes : Nat
deriving DecidableEq, Repr

/-- Checks a program. -/
def Program.check (options : CheckOptions) (p : Program) : Analysis :=
  let c := (collectClasses options (topClasses p.body) [] (.start options)).hoist p.body
  let c := checkStmts options p.body c
  ⟨c.errors, c.references, c.typeUses, c.scopes.opened⟩

end Vernacular
