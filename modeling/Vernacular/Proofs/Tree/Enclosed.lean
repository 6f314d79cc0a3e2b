import Vernacular.Proofs.Tree.Normal

/-!
# Bodies in braces

`Program.enclosed` is a program with braces around every body of a condition or loop, and around every last branch that
is no condition again.

Around a declaration these braces are a scope that was not there before. In a tidy program (`Program.tidy`) no branch of
a condition and no body of a `while` loop is a declaration without braces. The body of a `for` loop may be one: it has
the scope of the loop around it.

- `Stmt.declares` and `hoisted` are kept by `enclosed` (in `Vernacular.Proofs.Check.Enclosed`);
- the code is kept as well (`Vernacular.Proofs.Script.Enclosed`).
-/

namespace Vernacular

/-! ## Adding braces -/

mutual

/-- An expression with braces around the bodies in its functions. -/
def Expr.enclosed : Expr → Expr
  | .literal value span => .literal value span
  | .ident name span => .ident name span
  | .this span => .this span
  | .super span => .super span
  | .array items span => .array (exprsEnclosed items) span
  | .object properties span => .object (propertiesEnclosed properties) span
  | .function callable => .function callable.enclosed
  | .unary op operand span => .unary op operand.enclosed span
  | .update op before target span => .update op before target.enclosed span
  | .binary op left right span => .binary op left.enclosed right.enclosed span
  | .assign op target value span => .assign op target.enclosed value.enclosed span
  | .call callee args optional span => .call callee.enclosed (exprsEnclosed args) optional span
  | .new callee args span => .new callee.enclosed (exprsEnclosed args) span
  | .member object name optional span => .member object.enclosed name optional span
  | .index object key optional span => .index object.enclosed key.enclosed optional span

def exprsEnclosed : List Expr → List Expr
  | [] => []
  | e :: es => e.enclosed :: exprsEnclosed es

def optExprEnclosed : Option Expr → Option Expr
  | none => none
  | some e => some e.enclosed

def propertiesEnclosed : List Property → List Property
  | [] => []
  | ⟨key, value, span⟩ :: ps => ⟨key, value.enclosed, span⟩ :: propertiesEnclosed ps

def bindingsEnclosed : List Binding → List Binding
  | [] => []
  | ⟨id, type, value, span⟩ :: bs => ⟨id, type, optExprEnclosed value, span⟩ :: bindingsEnclosed bs

def Callable.enclosed : Callable → Callable
  | ⟨name, params, result, body, span⟩ => ⟨name, bindingsEnclosed params, result, optBlockEnclosed body, span⟩

def optBlockEnclosed : Option Block → Option Block
  | none => none
  | some ⟨body, span⟩ => some ⟨stmtsEnclosed body, span⟩

def Declaration.enclosed : Declaration → Declaration
  | ⟨kind, bindings, span⟩ => ⟨kind, bindingsEnclosed bindings, span⟩

def optForInitEnclosed : Option ForInit → Option ForInit
  | none => none
  | some (.declaration d) => some (.declaration d.enclosed)
  | some (.expression e) => some (.expression e.enclosed)

/-- A statement with braces around the bodies in it. -/
def Stmt.enclosed : Stmt → Stmt
  | .declaration d => .declaration d.enclosed
  | .function callable => .function callable.enclosed
  | .classDecl name base interfaces members span =>
    .classDecl name (optExprEnclosed base) interfaces (membersEnclosed members) span
  | .block ⟨body, span⟩ => .block ⟨stmtsEnclosed body, span⟩
  | .ifElse test consequent alternate span =>
    .ifElse test.enclosed consequent.enclosed.braced (elseEnclosed alternate) span
  | .forLoop init test update body span =>
    .forLoop (optForInitEnclosed init) (optExprEnclosed test) (optExprEnclosed update) body.enclosed.braced span
  | .forEach kind id type iterable body span => .forEach kind id type iterable.enclosed body.enclosed.braced span
  | .whileLoop test body span => .whileLoop test.enclosed body.enclosed.braced span
  | .ret value span => .ret (optExprEnclosed value) span
  | .expression e span => .expression e.enclosed span

def elseEnclosed : Option Stmt → Option Stmt
  | none => none
  | some s => some s.enclosed.asElse

def stmtsEnclosed : List Stmt → List Stmt
  | [] => []
  | s :: ss => s.enclosed :: stmtsEnclosed ss

def membersEnclosed : List Member → List Member
  | [] => []
  | .method name kind callable modifiers decorators span :: ms =>
    .method name kind callable.enclosed modifiers decorators span :: membersEnclosed ms
  | .field name type value modifiers decorators span :: ms =>
    .field name type (optExprEnclosed value) modifiers decorators span :: membersEnclosed ms

end

/-- A program with braces around the bodies in it. -/
def Program.enclosed (p : Program) : Program := ⟨stmtsEnclosed p.body, p.span⟩

/-! ## Where braces change no scope -/

/-- Whether a statement declares a name for the statements after it. -/
def Stmt.isLoose : Stmt → Bool
  | .declaration _ | .classDecl .. => true
  | _ => false

mutual

/-- No branch of a condition and no body of a `while` loop in the expression is a declaration without braces. -/
def Expr.tidy : Expr → Bool
  | .literal .. | .ident .. | .this .. | .super .. => true
  | .array items _ => exprsTidy items
  | .object properties _ => propertiesTidy properties
  | .function callable => callable.tidy
  | .unary _ operand _ => operand.tidy
  | .update _ _ target _ => target.tidy
  | .binary _ left right _ => left.tidy && right.tidy
  | .assign _ target value _ => target.tidy && value.tidy
  | .call callee args _ _ => callee.tidy && exprsTidy args
  | .new callee args _ => callee.tidy && exprsTidy args
  | .member object _ _ _ => object.tidy
  | .index object key _ _ => object.tidy && key.tidy

def exprsTidy : List Expr → Bool
  | [] => true
  | e :: es => e.tidy && exprsTidy es

def optExprTidy : Option Expr → Bool
  | none => true
  | some e => e.tidy

def propertiesTidy : List Property → Bool
  | [] => true
  | ⟨_, value, _⟩ :: ps => value.tidy && propertiesTidy ps

def bindingsTidy : List Binding → Bool
  | [] => true
  | ⟨_, _, value, _⟩ :: bs => optExprTidy value && bindingsTidy bs

def Callable.tidy : Callable → Bool
  | ⟨_, params, _, body, _⟩ => bindingsTidy params && optBlockTidy body

def optBlockTidy : Option Block → Bool
  | none => true
  | some ⟨body, _⟩ => stmtsTidy body

def Declaration.tidy : Declaration → Bool
  | ⟨_, bindings, _⟩ => bindingsTidy bindings

def optForInitTidy : Option ForInit → Bool
  | none => true
  | some (.declaration d) => d.tidy
  | some (.expression e) => e.tidy

/-- No branch of a condition and no body of a `while` loop in the statement is a declaration without braces. -/
def Stmt.tidy : Stmt → Bool
  | .declaration d => d.tidy
  | .function callable => callable.tidy
  | .classDecl _ base _ members _ => optExprTidy base && membersTidy members
  | .block ⟨body, _⟩ => stmtsTidy body
  | .ifElse test consequent alternate _ =>
    test.tidy && !consequent.isLoose && consequent.tidy && elseTidy alternate
  | .forLoop init test update body _ => optForInitTidy init && optExprTidy test && optExprTidy update && body.tidy
  | .forEach _ _ _ iterable body _ => iterable.tidy && body.tidy
  | .whileLoop test body _ => test.tidy && !body.isLoose && body.tidy
  | .ret value _ => optExprTidy value
  | .expression e _ => e.tidy

def elseTidy : Option Stmt → Bool
  | none => true
  | some s => !s.isLoose && s.tidy

def stmtsTidy : List Stmt → Bool
  | [] => true
  | s :: ss => s.tidy && stmtsTidy ss

def membersTidy : List Member → Bool
  | [] => true
  | .method _ _ callable _ _ _ :: ms => callable.tidy && membersTidy ms
  | .field _ _ value _ _ _ :: ms => optExprTidy value && membersTidy ms

end

/-- No branch of a condition and no body of a `while` loop in the program is a declaration without braces. -/
def Program.tidy (p : Program) : Bool := stmtsTidy p.body

theorem Stmt.isIf_enclosed : ∀ s : Stmt, s.enclosed.isIf = s.isIf
  | .block ⟨_, _⟩ => rfl
  | .declaration _ | .function _ | .classDecl .. | .ifElse .. | .forLoop .. | .forEach .. | .whileLoop .. | .ret ..
  | .expression .. => rfl

theorem elseEnclosed_of_isIf {s : Stmt} (h : s.isIf = true) : elseEnclosed (some s) = some s.enclosed := by
  rw [elseEnclosed, Stmt.asElse, Stmt.isIf_enclosed, if_pos h]

theorem elseEnclosed_of_not_isIf {s : Stmt} (h : s.isIf = false) : elseEnclosed (some s) = some s.enclosed.braced := by
  rw [elseEnclosed, Stmt.asElse, Stmt.isIf_enclosed, h, if_neg Bool.false_ne_true]

end Vernacular
