import Vernacular.Check.Walk

/-!
# Checks with a bound on their errors

A check that reports at most so many errors goes on when it has reported them. It does what a check without a bound
does, but for the errors after the first ones (`Checker.capped`): the reports have no part in what is looked at,
declared or suggested.

- `Checker.report_capped`: a report that is made or not;
- `Expr.check_capped`, `Stmt.check_capped`: whole trees, by induction on the tree;
- `Program.check_capped`: programs.
-/

namespace Vernacular

/-- The first of some errors, up to a bound if there is one. -/
def cut : Option Nat → List SemanticError → List SemanticError
  | none, errors => errors
  | some k, errors => errors.take k

/-- The same settings without a bound on errors. -/
def CheckOptions.uncapped (options : CheckOptions) : CheckOptions := { options with maxErrors := none }

/-- The state with no more errors than the bound allows. -/
def Checker.capped (bound : Option Nat) (c : Checker) : Checker := { c with errors := cut bound c.errors }

/-- What was found, with no more errors than the bound allows. -/
def Analysis.capped (bound : Option Nat) (a : Analysis) : Analysis := { a with errors := cut bound a.errors }

namespace Checker

variable (options : CheckOptions)

/-- An error beyond the bound is not reported, and would be cut off. -/
theorem report_capped (error : SemanticError) (c : Checker) :
    (c.capped options.maxErrors).report options error = (c.report options.uncapped error).capped options.maxErrors := by
  have huncapped : c.report options.uncapped error = { c with errors := c.errors ++ [error] } := rfl
  rw [huncapped]
  unfold report capped cut
  cases options.maxErrors with
  | none => rfl
  | some k =>
    simp only [Option.any_some, decide_eq_true_eq, List.length_take, Nat.le_min, Nat.le_refl, true_and]
    by_cases hk : k ≤ c.errors.length
    · rw [if_pos hk, List.take_append_of_le_length hk]
    · have hlt : c.errors.length < k := Nat.lt_of_not_le hk
      rw [if_neg hk, List.take_of_length_le (Nat.le_of_lt hlt), List.take_of_length_le]
      rw [List.length_append, List.length_singleton]
      exact hlt

/-- A name is looked up and suggested for without regard to the errors. -/
theorem resolve_capped (name : String) (position : Position) (c : Checker) :
    (c.capped options.maxErrors).resolve options name position =
      (c.resolve options.uncapped name position).capped options.maxErrors := by
  show (if (options.names.contains name || c.scopes.isDeclared name) = true then _ else _) =
    capped _ (if (options.names.contains name || c.scopes.isDeclared name) = true then _ else _)
  by_cases h : (options.names.contains name || c.scopes.isDeclared name) = true
  · rw [if_pos h, if_pos h]
    rfl
  · rw [if_neg h, if_neg h]
    exact report_capped options _ { c with references := c.references + 1 }

/-- So is a type. -/
theorem checkType_capped (type : Option Ident) (c : Checker) :
    (c.capped options.maxErrors).checkType options type =
      (c.checkType options.uncapped type).capped options.maxErrors := by
  cases type with
  | none => rfl
  | some t =>
    show (if c.types.contains (itemType t.name) = true then _ else _) =
      capped _ (if c.types.contains (itemType t.name) = true then _ else _)
    by_cases h : c.types.contains (itemType t.name) = true
    · rw [if_pos h, if_pos h]
      rfl
    · rw [if_neg h, if_neg h]
      exact report_capped options _ { c with typeUses := c.typeUses + 1 }

variable (bound : Option Nat)

theorem enter_capped (kind : ScopeKind) (c : Checker) : (c.capped bound).enter kind = (c.enter kind).capped bound := rfl

theorem exit_capped (c : Checker) : (c.capped bound).exit = c.exit.capped bound := rfl

theorem declare_capped (id : Ident) (c : Checker) : (c.capped bound).declare id = (c.declare id).capped bound := rfl

theorem addType_capped (name : String) (c : Checker) : (c.capped bound).addType name = (c.addType name).capped bound :=
  rfl

/-- Declaring ahead reports nothing. -/
theorem hoist_capped (body : List Stmt) (c : Checker) : (c.capped bound).hoist body = (c.hoist body).capped bound := by
  have hone (c : Checker) (s : Stmt) : (c.capped bound).hoistOne s = (c.hoistOne s).capped bound := by
    unfold hoistOne
    split <;> rfl
  induction body generalizing c with
  | nil => rfl
  | cons s body ih => exact (congrArg (hoist body) (hone c s)).trans (ih (c.hoistOne s))

/-- Neither does declaring the name of a function inside of it. -/
theorem declareSelf_capped (name : Option Ident) (c : Checker) :
    (c.capped bound).declareSelf name = (c.declareSelf name).capped bound := by
  cases name with
  | none => rfl
  | some id =>
    show (if c.scopes.isDeclared id.name = true then _ else _) =
        capped bound (if c.scopes.isDeclared id.name = true then _ else _)
    by_cases h : c.scopes.isDeclared id.name = true
    · rw [if_pos h, if_pos h]
    · rw [if_neg h, if_neg h, declare_capped]

/-- Nor declaring a class. -/
theorem declareClass_capped (id : Ident) (c : Checker) :
    (c.capped bound).declareClass id = (c.declareClass id).capped bound := by
  show (if c.scopes.current.kind = .global then _ else _) =
      capped bound (if c.scopes.current.kind = .global then _ else _)
  by_cases h : c.scopes.current.kind = .global
  · rw [if_pos h, if_pos h, addType_capped]
  · rw [if_neg h, if_neg h, addType_capped, declare_capped]

end Checker

/-! ## Trees -/

section Trees

open Checker

variable (options : CheckOptions)

mutual

/-- A check of an expression reports the first errors of the check without a bound. By induction on the tree: each
part goes on from a state that is capped already. -/
theorem Expr.check_capped : (e : Expr) → (c : Checker) →
    e.check options (c.capped options.maxErrors) = (e.check options.uncapped c).capped options.maxErrors
  | .ident name span, c => resolve_capped options name span.start c
  | .literal .., _ | .this .., _ | .super .., _ => rfl
  | .array items _, c => checkExprs_capped items c
  | .object properties _, c => checkProperties_capped properties c
  | .function callable, c => callable.check_capped c
  | .unary _ e _, c => e.check_capped c
  | .update _ _ e _, c => e.check_capped c
  | .binary _ l r _, c => by rw [Expr.check, Expr.check, l.check_capped, r.check_capped]
  | .assign _ t v _, c => by rw [Expr.check, Expr.check, t.check_capped, v.check_capped]
  | .call e args _ _, c => by rw [Expr.check, Expr.check, e.check_capped, checkExprs_capped]
  | .new e args _, c => by rw [Expr.check, Expr.check, e.check_capped, checkExprs_capped]
  | .member o _ _ _, c => o.check_capped c
  | .index o k _ _, c => by rw [Expr.check, Expr.check, o.check_capped, k.check_capped]

theorem checkExprs_capped : (es : List Expr) → (c : Checker) →
    checkExprs options es (c.capped options.maxErrors) = (checkExprs options.uncapped es c).capped options.maxErrors
  | [], _ => rfl
  | e :: es, c => by rw [checkExprs, checkExprs, e.check_capped, checkExprs_capped]

theorem checkExpr?_capped : (e : Option Expr) → (c : Checker) →
    checkExpr? options e (c.capped options.maxErrors) = (checkExpr? options.uncapped e c).capped options.maxErrors
  | none, _ => rfl
  | some e, c => e.check_capped c

theorem checkProperties_capped : (ps : List Property) → (c : Checker) →
    checkProperties options ps (c.capped options.maxErrors) =
      (checkProperties options.uncapped ps c).capped options.maxErrors
  | [], _ => rfl
  | ⟨_, e, _⟩ :: ps, c => by rw [checkProperties, checkProperties, e.check_capped, checkProperties_capped]

theorem checkVariables_capped : (bs : List Binding) → (c : Checker) →
    checkVariables options bs (c.capped options.maxErrors) =
      (checkVariables options.uncapped bs c).capped options.maxErrors
  | [], _ => rfl
  | ⟨id, type, value, _⟩ :: bs, c => by
    rw [checkVariables, checkVariables, declare_capped, checkType_capped, checkExpr?_capped, checkVariables_capped]

theorem checkParams_capped : (bs : List Binding) → (c : Checker) →
    checkParams options bs (c.capped options.maxErrors) = (checkParams options.uncapped bs c).capped options.maxErrors
  | [], _ => rfl
  | ⟨id, type, value, _⟩ :: bs, c => by
    rw [checkParams, checkParams, checkType_capped, checkExpr?_capped, declare_capped, checkParams_capped]

/-- A callable, in the scope of its own. -/
theorem Callable.check_capped : (callable : Callable) → (c : Checker) →
    callable.check options (c.capped options.maxErrors) = (callable.check options.uncapped c).capped options.maxErrors
  | ⟨name, params, result, body, _⟩, c => by
    rw [Callable.check, Callable.check, enter_capped, declareSelf_capped, checkParams_capped, checkType_capped,
      checkBody?_capped, exit_capped]

theorem checkBody?_capped : (body : Option Block) → (c : Checker) →
    checkBody? options body (c.capped options.maxErrors) = (checkBody? options.uncapped body c).capped options.maxErrors
  | none, _ => rfl
  | some ⟨body, _⟩, c => by rw [checkBody?, checkBody?, hoist_capped, checkStmts_capped]

theorem checkInit?_capped : (init : Option ForInit) → (c : Checker) →
    checkInit? options init (c.capped options.maxErrors) = (checkInit? options.uncapped init c).capped options.maxErrors
  | none, _ => rfl
  | some (.declaration ⟨_, bindings, _⟩), c => checkVariables_capped bindings c
  | some (.expression e), c => e.check_capped c

/-- A check of a statement, by induction on the tree. -/
theorem Stmt.check_capped : (s : Stmt) → (c : Checker) →
    s.check options (c.capped options.maxErrors) = (s.check options.uncapped c).capped options.maxErrors
  | .declaration ⟨_, bindings, _⟩, c => checkVariables_capped bindings c
  | .function callable, c => callable.check_capped c
  | .classDecl name base _ members _, c => by
    rw [Stmt.check, Stmt.check, declareClass_capped, checkExpr?_capped, checkMembers_capped]
  | .block ⟨body, _⟩, c => by
    rw [Stmt.check, Stmt.check, enter_capped, hoist_capped, checkStmts_capped, exit_capped]
  | .ifElse test consequent alternate _, c => by
    rw [Stmt.check, Stmt.check, test.check_capped, consequent.check_capped, checkStmt?_capped]
  | .forLoop init test update body _, c => by
    rw [Stmt.check, Stmt.check, enter_capped, checkInit?_capped, checkExpr?_capped, checkExpr?_capped,
      body.check_capped, exit_capped]
  | .forEach _ id type iterable body _, c => by
    rw [Stmt.check, Stmt.check, iterable.check_capped, enter_capped, checkType_capped, declare_capped,
      body.check_capped, exit_capped]
  | .whileLoop test body _, c => by rw [Stmt.check, Stmt.check, test.check_capped, body.check_capped]
  | .ret value _, c => checkExpr?_capped value c
  | .expression e _, c => e.check_capped c

/-- Statements in a row. -/
theorem checkStmts_capped : (ss : List Stmt) → (c : Checker) →
    checkStmts options ss (c.capped options.maxErrors) = (checkStmts options.uncapped ss c).capped options.maxErrors
  | [], _ => rfl
  | s :: ss, c => by rw [checkStmts, checkStmts, s.check_capped, checkStmts_capped]

theorem checkStmt?_capped : (s : Option Stmt) → (c : Checker) →
    checkStmt? options s (c.capped options.maxErrors) = (checkStmt? options.uncapped s c).capped options.maxErrors
  | none, _ => rfl
  | some s, c => s.check_capped c

/-- Members of a class. -/
theorem checkMembers_capped : (ms : List Member) → (c : Checker) →
    checkMembers options ms (c.capped options.maxErrors) = (checkMembers options.uncapped ms c).capped options.maxErrors
  | [], _ => rfl
  | .method _ _ callable _ _ _ :: ms, c => by
    rw [checkMembers, checkMembers, callable.check_capped, checkMembers_capped]
  | .field _ type value _ _ _ :: ms, c => by
    rw [checkMembers, checkMembers, checkType_capped, checkExpr?_capped, checkMembers_capped]

end

/-! ## Programs -/

/-- Names of classes that are collected twice are reported, up to the bound. -/
theorem collectClasses_capped (classes : List Ident) (seen : List String) (c : Checker) :
    collectClasses options classes seen (c.capped options.maxErrors) =
      (collectClasses options.uncapped classes seen c).capped options.maxErrors := by
  induction classes generalizing seen c with
  | nil => rfl
  | cons id classes ih =>
    rw [collectClasses, collectClasses]
    by_cases h : seen.contains id.name = true
    · rw [if_pos h, if_pos h, report_capped, addType_capped, ih]
    · rw [if_neg h, if_neg h, addType_capped, ih]

/-- A bound on the errors cuts off those beyond it and changes nothing else. -/
theorem Program.check_capped (p : Program) :
    p.check options = (p.check options.uncapped).capped options.maxErrors := by
  have hstart : Checker.start options = (Checker.start options.uncapped).capped options.maxErrors := by
    unfold Checker.start Checker.capped cut
    cases options.maxErrors <;> simp [CheckOptions.types, CheckOptions.uncapped]
  rw [Program.check, Program.check, hstart, collectClasses_capped, hoist_capped, checkStmts_capped]
  rfl

end Trees

end Vernacular
