import Vernacular.Proofs.Check.Scopes

/-!
# What a check leaves of the scopes

A check opens a scope for a callable, a block or a loop and leaves it when it is done there. So whatever it looks at,
and whatever scopes are open before it does, the same scopes are open afterwards. Only a statement changes any of them,
and only the innermost one, in which it declares names.

- `Expr.toList_check`, `Callable.toList_check`: expressions and callables leave all scopes as they were;
- `Stmt.grows_check`, `grows_checkStmts`: what one statement, and a list of them, declares in the innermost scope;
- `check_innermost`: all trees in all states, and the scopes at the end of a check.
-/

namespace Vernacular

namespace Scopes

variable {names : List String} {s t : Scopes}

theorem sees_visibleNames (s : Scopes) : s.Sees s.visibleNames := fun name => (s.mem_visibleNames name).symm

/-- Where no name was declared, the scopes are the same. -/
theorem Grows.toList_eq (h : Grows [] s t) : t.toList = s.toList := by
  obtain ⟨scope, outer, new, hs, ht, hnew⟩ := h
  have hnil : new = [] := by
    rw [← List.map_eq_nil_iff (f := Prod.fst), List.eq_nil_iff_forall_not_mem]
    exact fun name hname => List.not_mem_nil ((hnew name).mp hname)
  rw [ht, hs, hnil, List.nil_append]

/-- The scopes around the innermost one are the same, and that one has its kind and its names, with others before
them. -/
theorem Grows.exists_new (h : Grows names s t) : ∃ new,
    t.toList = ⟨s.current.kind, new ++ s.current.names⟩ :: s.toList.tail ∧
      ∀ name, name ∈ new.map Prod.fst ↔ name ∈ names := by
  obtain ⟨scope, outer, new, hs, ht, hnew⟩ := h
  exact ⟨new, by rw [ht, hs, current_of_toList hs, List.tail_cons], hnew⟩

theorem Grows.depth_eq (h : Grows names s t) : t.depth = s.depth := by
  obtain ⟨scope, outer, new, hs, ht, -⟩ := h
  rw [depth, depth, hs, ht, List.length_cons, List.length_cons]

end Scopes

variable (options : CheckOptions)

theorem Expr.toList_check (e : Expr) (c : Checker) : (e.check options c).scopes.toList = c.scopes.toList :=
  (e.check_ran c.scopes.sees_visibleNames).scopes.toList_eq

theorem Callable.toList_check (callable : Callable) (c : Checker) :
    (callable.check options c).scopes.toList = c.scopes.toList :=
  (callable.check_ran c.scopes.sees_visibleNames).scopes.toList_eq

/-- One statement. -/
theorem Stmt.grows_check (s : Stmt) (c : Checker) :
    c.scopes.Grows (s.declares (c.scopes.current.kind = .global)) (s.check options c).scopes :=
  (s.check_ran decide_eq_true_iff.symm c.scopes.sees_visibleNames).scopes

/-- All statements. -/
theorem grows_checkStmts (ss : List Stmt) (c : Checker) :
    c.scopes.Grows (ss.flatMap (Stmt.declares (c.scopes.current.kind = .global))) (checkStmts options ss c).scopes := by
  induction ss generalizing c with
  | nil => exact .of_toList_eq rfl
  | cons s ss ih =>
    have hs := s.grows_check options c
    have hss := ih (s.check options c)
    rw [hs.kind] at hss
    exact hs.trans hss

/-- The state of a check when it has looked at all statements of a program. -/
def Program.walked (p : Program) : Checker :=
  checkStmts options p.body ((collectClasses options (topClasses p.body) [] (.start options)).hoist p.body)

theorem Program.check_eq_walked (p : Program) : p.check options =
    ⟨(p.walked options).errors, (p.walked options).references, (p.walked options).typeUses,
      (p.walked options).scopes.opened⟩ := rfl

/-- What a program declares at the top level: its functions and classes first, then the names of its statements. -/
theorem Program.grows_walked (p : Program) :
    Scopes.start.Grows (hoisted p.body ++ p.body.flatMap (Stmt.declares true)) (p.walked options).scopes := by
  have hclasses := (collectClasses_scopes_types options (topClasses p.body) [] (.start options)).1
  have hhoist := (Checker.hoist_ran options p.body
    (collectClasses options (topClasses p.body) [] (.start options))).scopes
  rw [hclasses] at hhoist
  have hwalk := grows_checkStmts options p.body
    ((collectClasses options (topClasses p.body) [] (.start options)).hoist p.body)
  rw [hhoist.kind] at hwalk
  exact hhoist.trans hwalk

/-- **A check touches the innermost scope only.** Whatever tree it looks at and whatever state it is in: an expression
or a callable leaves every open scope with its kind and its names. A statement leaves as many scopes open, all but the
innermost with their kinds and names, and the innermost with its kind and with names declared before those that it had,
which are the names that the statement declares. So at the end only the outermost scope is open. -/
theorem check_innermost :
    (∀ (e : Expr) (c : Checker), (e.check options c).scopes.toList = c.scopes.toList) ∧
    (∀ (callable : Callable) (c : Checker), (callable.check options c).scopes.toList = c.scopes.toList) ∧
    (∀ (s : Stmt) (c : Checker), (s.check options c).scopes.depth = c.scopes.depth ∧
      ∃ new,
        (s.check options c).scopes.toList =
          ⟨c.scopes.current.kind, new ++ c.scopes.current.names⟩ :: c.scopes.toList.tail ∧
        ∀ name, name ∈ new.map Prod.fst ↔ name ∈ s.declares (c.scopes.current.kind = .global)) ∧
    ∀ p : Program,
      p.check options = ⟨(p.walked options).errors, (p.walked options).references, (p.walked options).typeUses,
        (p.walked options).scopes.opened⟩ ∧
      ∃ names, (p.walked options).scopes.toList = [⟨.global, names⟩] ∧
        ∀ name, name ∈ names.map Prod.fst ↔ name ∈ hoisted p.body ++ p.body.flatMap (Stmt.declares true) := by
  refine ⟨Expr.toList_check options, Callable.toList_check options, fun s c => ?_, fun p => ?_⟩
  · have hs := s.grows_check options c
    exact ⟨hs.depth_eq, hs.exists_new⟩
  · obtain ⟨new, hscopes, hnew⟩ := (p.grows_walked options).exists_new
    have hstart : new ++ Scopes.start.current.names = new := List.append_nil new
    rw [hstart] at hscopes
    exact ⟨p.check_eq_walked options, new, hscopes, hnew⟩

end Vernacular
