import Vernacular.Proofs.Check.Resolution
import Vernacular.Proofs.Script.Enclosed
import Vernacular.Proofs.Token.Lossless

/-!
# Undefined names and braces

A check opens a scope for every block and for every `for` loop, and for nothing else: a branch or the body of a `while`
loop without braces belongs to the scope around it. Generation writes braces there. The two agree on what can be seen
where unless such a branch or body is a declaration.

- `Use.undefined?`: the name that a use reports, which depends on the set of visible names only;
- `Program.check_undefined`: the undefined names of a check without a bound on its errors are those of the uses;
- `Stmt.undefined_enclosed`: braces around the bodies in a tidy statement make no name undefined and none defined, by
  induction on the tree;
- `Program.check_enclosed`: for programs, with the code that is the same;
- `loose_branch`: a declaration that is a branch is seen after it, though its code is in braces.
-/

namespace Vernacular

/-! ## Undefined names -/

/-- The name of something undefined. -/
def SemanticError.undefined? : SemanticError → Option String
  | undefinedName n _ _ => some n
  | unknownType .. | duplicateClass .. => none

/-- The undefined names that a check reports. -/
def Analysis.undefined (a : Analysis) : List String := a.errors.filterMap SemanticError.undefined?

/-- The name of a use, if nothing declares it. -/
def Use.undefined? (options : CheckOptions) : Use → Option String
  | name n _ visible => if n ∈ options.names ∨ n ∈ visible then none else some n
  | type _ | reached _ => none

/-- The undefined names among uses. -/
def undefinedUses (options : CheckOptions) (us : List Use) : List String := us.filterMap (Use.undefined? options)

section Undefined

variable {options : CheckOptions}

/-- Names in a row of uses. -/
theorem undefinedUses_append (us vs : List Use) :
    undefinedUses options (us ++ vs) = undefinedUses options us ++ undefinedUses options vs := List.filterMap_append

theorem SemanticError.undefined?_plain (e : SemanticError) : e.plain.undefined? = e.undefined? := by
  cases e <;> rfl

/-- A name that is at fault is one that is undefined, whatever is suggested in its place. -/
theorem Use.undefined?_fault? (known : List String) (u : Use) :
    (u.fault? options known).bind SemanticError.undefined? = u.undefined? options := by
  cases u with
  | reached n => rfl
  | name n position visible =>
    rw [fault?, Use.undefined?]
    split <;> rfl
  | type t =>
    rw [fault?]
    split <;> rfl

/-- Among the findings, those about undefined names are told by the names in sight alone. -/
theorem findings_undefined (known : List String) (us : List Use) :
    (findings options known us).filterMap SemanticError.undefined? = undefinedUses options us := by
  induction us generalizing known with
  | nil => rfl
  | cons u us ih =>
    have hu : (u.fault? options known).toList.filterMap SemanticError.undefined? = (u.undefined? options).toList := by
      rw [← u.undefined?_fault? known]
      cases u.fault? options known with
      | none => rfl
      | some e => cases he : e.undefined? <;> simp [he]
    rw [findings, List.filterMap_append, ih, hu, undefinedUses, undefinedUses, List.filterMap_cons]
    cases u.undefined? options <;> rfl

/-- A class that is declared twice is no undefined name. -/
theorem duplicates_undefined (classes : List Ident) : (duplicates classes).filterMap SemanticError.undefined? = [] := by
  rw [List.filterMap_eq_nil_iff]
  intro e he
  obtain ⟨⟨id, i⟩, -, hid⟩ := List.mem_filterMap.mp he
  rw [duplicate?] at hid
  split at hid <;> cases hid
  rfl

/-- A check without a bound on its errors finds every undefined name among the uses. -/
theorem Program.check_undefined (hmax : options.maxErrors = none) (p : Program) :
    (p.check options).undefined = undefinedUses options p.uses := by
  rw [Analysis.undefined, check_filterMap hmax SemanticError.undefined?_plain, duplicates_undefined, findings_undefined,
    List.nil_append]

end Undefined

/-! ## Visible names -/

/-- The same names can be seen. -/
def SameNames (V W : List String) : Prop := ∀ n, n ∈ V ↔ n ∈ W

namespace SameNames

variable {V W : List String}

theorem refl (V : List String) : SameNames V V := fun _ => Iff.rfl

/-- Equal names in sight stay equal with further names in front. -/
theorem append (h : SameNames V W) (names : List String) : SameNames (names ++ V) (names ++ W) := by
  intro n
  rw [List.mem_append, List.mem_append, h n]

theorem cons (h : SameNames V W) (name : String) : SameNames (name :: V) (name :: W) := h.append [name]

/-- A name that is seen twice is seen. -/
theorem append_self (names V : List String) : SameNames (names ++ V) (names ++ (names ++ V)) := by
  intro n
  rw [List.mem_append, List.mem_append, List.mem_append, ← or_assoc, or_self]

theorem trans {U : List String} (h : SameNames U V) (h' : SameNames V W) : SameNames U W := fun n => (h n).trans (h' n)

end SameNames

/-- The names that are seen inside a callable, before its parameters. -/
def Callable.sees (visible : List String) (callable : Callable) : List String :=
  (callable.name.map Ident.name).toList ++ visible

/-- The names that are seen inside a statement from its beginning. -/
def Stmt.sees (top : Bool) (visible : List String) : Stmt → List String
  | .function callable => callable.sees visible
  | .classDecl name _ _ _ _ => if top then visible else name.name :: visible
  | _ => visible

/-- So do they after any statement. -/
theorem SameNames.sees {V W : List String} (h : SameNames V W) (top : Bool) (s : Stmt) :
    SameNames (s.sees top V) (s.sees top W) := by
  cases s with
  | function callable => exact h.append _
  | classDecl name =>
    cases top with
    | true => exact h
    | false => exact h.cons name.name
  | _ => exact h

/-- What hoisting a statement makes visible in it is visible in it already. -/
theorem Stmt.sees_hoisted (V : List String) (s : Stmt) :
    SameNames (s.sees false V) (s.sees false (hoisted [s] ++ V)) := by
  cases s with
  | function callable =>
    obtain ⟨name, params, result, body, span⟩ := callable
    cases name with
    | none => exact .refl _
    | some id => exact .append_self [id.name] V
  | classDecl name => exact .append_self [name.name] V
  | _ => exact .refl _

/-- Whether a statement is at the top matters only if it is a declaration without braces. -/
theorem Stmt.sees_of_not_isLoose {s : Stmt} (h : s.isLoose = false) (top : Bool) (V : List String) :
    s.sees top V = s.sees false V := by
  cases s with
  | classDecl => cases h
  | _ => rfl

/-! ## Names declared in tidy statements -/

/-- Braces change no binding. -/
theorem boundNames_enclosed (bs : List Binding) : boundNames (bindingsEnclosed bs) = boundNames bs := by
  induction bs with
  | nil => rfl
  | cons b bs ih =>
    obtain ⟨id, type, value, span⟩ := b
    exact congrArg (id.name :: ·) ih

theorem initDeclares_enclosed : ∀ init : Option ForInit,
    ((optForInitEnclosed init).map ForInit.declares).getD [] = (init.map ForInit.declares).getD []
  | none | some (.expression _) => rfl
  | some (.declaration ⟨_, bindings, _⟩) => boundNames_enclosed bindings

/-- Braces change no name that is declared ahead. -/
theorem hoisted_enclosed (ss : List Stmt) : hoisted (stmtsEnclosed ss) = hoisted ss := by
  induction ss with
  | nil => rfl
  | cons s ss ih =>
    have hs : hoisted [s.enclosed] = hoisted [s] := by
      cases s with
      | function callable =>
        obtain ⟨name, params, result, body, span⟩ := callable
        rfl
      | block block =>
        obtain ⟨body, span⟩ := block
        rfl
      | _ => rfl
    have hcons (s : Stmt) (ss : List Stmt) : hoisted (s :: ss) = hoisted [s] ++ hoisted ss := by
      rw [← List.singleton_append, hoisted, hoisted, hoisted, List.filterMap_append]
    rw [stmtsEnclosed, hcons, hcons s, hs, ih]

/-- A statement declares what it declares with braces around its bodies. -/
theorem Stmt.sees_enclosed (top : Bool) (V : List String) (s : Stmt) : s.enclosed.sees top V = s.sees top V := by
  cases s with
  | function callable =>
    obtain ⟨name, params, result, body, span⟩ := callable
    rfl
  | block block =>
    obtain ⟨body, span⟩ := block
    rfl
  | _ => rfl

/-- A block declares nothing for the statements after it. -/
theorem Stmt.declares_braced (top : Bool) (s : Stmt) : s.braced.declares top = [] := by
  cases s <;> rfl

mutual

/-- A tidy statement that is no declaration itself declares nothing for those after it. -/
theorem Stmt.declares_of_tidy {top : Bool} : ∀ s : Stmt, s.tidy = true → s.isLoose = false → s.declares top = []
  | .declaration _, _, hl | .classDecl .., _, hl => nomatch hl
  | .function _, _, _ | .block _, _, _ | .forLoop .., _, _ | .forEach .., _, _ | .ret .., _, _ | .expression .., _, _ =>
    rfl
  | .ifElse test consequent alternate _, h, _ => by
    simp only [Stmt.tidy, Bool.and_eq_true, Bool.not_eq_true'] at h
    obtain ⟨⟨⟨-, hl⟩, hc⟩, ha⟩ := h
    rw [Stmt.declares, consequent.declares_of_tidy hc hl, alternateDeclares_of_tidy alternate ha, List.append_nil]
  | .whileLoop test body _, h, _ => by
    simp only [Stmt.tidy, Bool.and_eq_true, Bool.not_eq_true'] at h
    rw [Stmt.declares, body.declares_of_tidy h.2 h.1.2]

/-- A tidy alternative declares nothing. -/
theorem alternateDeclares_of_tidy {top : Bool} : ∀ s : Option Stmt, elseTidy s = true → alternateDeclares top s = []
  | none, _ => rfl
  | some s, h => by
    simp only [elseTidy, Bool.and_eq_true, Bool.not_eq_true'] at h
    exact s.declares_of_tidy h.2 h.1

end

mutual

/-- A tidy statement declares the same with braces around its bodies: what these declare stays inside of them in any
case. -/
theorem Stmt.declares_enclosed {top : Bool} : ∀ s : Stmt, s.tidy = true → s.enclosed.declares top = s.declares top
  | .declaration ⟨_, bindings, _⟩, _ => boundNames_enclosed bindings
  | .function _, _ | .classDecl .., _ | .block ⟨_, _⟩, _ | .forLoop .., _ | .forEach .., _ | .ret .., _
  | .expression .., _ => rfl
  | .ifElse test consequent alternate s, h => by
    have hnone : Stmt.declares top _ = [] := Stmt.declares_of_tidy (.ifElse test consequent alternate s) h rfl
    simp only [Stmt.tidy, Bool.and_eq_true] at h
    rw [hnone, Stmt.enclosed, Stmt.declares, Stmt.declares_braced, elseDeclares_enclosed alternate h.2, List.append_nil]
  | .whileLoop test body s, h => by
    rw [Stmt.declares_of_tidy (.whileLoop test body s) h rfl, Stmt.enclosed, Stmt.declares, Stmt.declares_braced]

theorem elseDeclares_enclosed {top : Bool} : ∀ s : Option Stmt, elseTidy s = true →
    alternateDeclares top (elseEnclosed s) = []
  | none, _ => rfl
  | some s, h => by
    simp only [elseTidy, Bool.and_eq_true, Bool.not_eq_true'] at h
    cases hif : s.isIf with
    | true => rw [elseEnclosed_of_isIf hif, alternateDeclares, s.declares_enclosed h.2, s.declares_of_tidy h.2 h.1]
    | false => rw [elseEnclosed_of_not_isIf hif, alternateDeclares, Stmt.declares_braced]

end

/-! ## Undefined names in tidy trees -/

section Trees

variable {options : CheckOptions}

/-- Braces around a statement make a scope in which the statement is hoisted. -/
theorem Stmt.uses_braced (top : Bool) (V : List String) (s : Stmt) :
    s.braced.uses top V = s.uses false (hoisted [s] ++ V) := by
  cases s with
  | block block =>
    obtain ⟨body, span⟩ := block
    rfl
  | _ => exact List.append_nil _

/-- A body sees the same names in braces, unless it is a class that does not see itself. -/
theorem Stmt.undefined_braced {s : Stmt} {top : Bool} {V W : List String} (h : SameNames V W)
    (htop : s.sees top V = s.sees false V)
    (hs : ∀ W', SameNames (s.sees top V) (s.sees false W') →
      undefinedUses options (s.uses top V) = undefinedUses options (s.enclosed.uses false W')) (top' : Bool) :
    undefinedUses options (s.uses top V) = undefinedUses options (s.enclosed.braced.uses top' W) := by
  have hhoisted : SameNames (s.sees false W) (s.sees false (hoisted [s.enclosed] ++ W)) := by
    have h := s.enclosed.sees_hoisted W
    rw [s.sees_enclosed, s.sees_enclosed] at h
    exact h
  rw [uses_braced]
  refine hs _ ?_
  rw [htop]
  exact (h.sees false s).trans hhoisted

mutual

/-- In an expression the same names are undefined, with braces or without. By induction on the tree, for any two
lists of names in sight that hold the same. -/
theorem Expr.undefined_enclosed {V W : List String} (h : SameNames V W) : ∀ e : Expr, e.tidy = true →
    undefinedUses options (e.uses V) = undefinedUses options (e.enclosed.uses W)
  | .ident name span, _ => by
    simp only [Expr.enclosed, Expr.uses, undefinedUses, List.filterMap_cons, Use.undefined?, h name]
  | .literal .., _ | .this .., _ | .super .., _ => rfl
  | .array items _, ht => undefinedExprs_enclosed h items ht
  | .object properties _, ht => undefinedProperties_enclosed h properties ht
  | .function callable, ht => callable.undefined_enclosed (h.append _) ht
  | .unary _ e _, ht => e.undefined_enclosed h ht
  | .update _ _ e _, ht => e.undefined_enclosed h ht
  | .binary _ l r _, ht | .assign _ l r _, ht | .index l r _ _, ht => by
    obtain ⟨hl, hr⟩ := Bool.and_eq_true_iff.mp ht
    rw [Expr.enclosed, Expr.uses, Expr.uses, undefinedUses_append, undefinedUses_append, l.undefined_enclosed h hl,
      r.undefined_enclosed h hr]
  | .call e args _ _, ht | .new e args _, ht => by
    obtain ⟨he, hargs⟩ := Bool.and_eq_true_iff.mp ht
    rw [Expr.enclosed, Expr.uses, Expr.uses, undefinedUses_append, undefinedUses_append, e.undefined_enclosed h he,
      undefinedExprs_enclosed h args hargs]
  | .member o _ _ _, ht => o.undefined_enclosed h ht

/-- Expressions in a row. -/
theorem undefinedExprs_enclosed {V W : List String} (h : SameNames V W) : ∀ es : List Expr, exprsTidy es = true →
    undefinedUses options (exprUses V es) = undefinedUses options (exprUses W (exprsEnclosed es))
  | [], _ => rfl
  | e :: es, ht => by
    obtain ⟨he, hes⟩ := Bool.and_eq_true_iff.mp ht
    rw [exprsEnclosed, exprUses, exprUses, undefinedUses_append, undefinedUses_append, e.undefined_enclosed h he,
      undefinedExprs_enclosed h es hes]

theorem undefinedValue_enclosed {V W : List String} (h : SameNames V W) : ∀ e : Option Expr, optExprTidy e = true →
    undefinedUses options (valueUses V e) = undefinedUses options (valueUses W (optExprEnclosed e))
  | none, _ => rfl
  | some e, ht => e.undefined_enclosed h ht

theorem undefinedProperties_enclosed {V W : List String} (h : SameNames V W) : ∀ ps : List Property,
    propertiesTidy ps = true →
    undefinedUses options (propertyUses V ps) = undefinedUses options (propertyUses W (propertiesEnclosed ps))
  | [], _ => rfl
  | ⟨_, e, _⟩ :: ps, ht => by
    obtain ⟨he, hps⟩ := Bool.and_eq_true_iff.mp ht
    rw [propertiesEnclosed, propertyUses, propertyUses, undefinedUses_append, undefinedUses_append,
      e.undefined_enclosed h he, undefinedProperties_enclosed h ps hps]

/-- Variables, each of which is in sight in its own value. -/
theorem undefinedVariables_enclosed {V W : List String} (h : SameNames V W) :
    ∀ bs : List Binding, bindingsTidy bs = true →
    undefinedUses options (variableUses V bs) = undefinedUses options (variableUses W (bindingsEnclosed bs))
  | [], _ => rfl
  | ⟨id, _, value, _⟩ :: bs, ht => by
    obtain ⟨hvalue, hbs⟩ := Bool.and_eq_true_iff.mp ht
    have h := h.cons id.name
    simp only [bindingsEnclosed, variableUses, undefinedUses_append, undefinedValue_enclosed h value hvalue,
      undefinedVariables_enclosed h bs hbs]

/-- Parameters, each of which is in sight after its default. -/
theorem undefinedParams_enclosed {V W : List String} (h : SameNames V W) : ∀ bs : List Binding, bindingsTidy bs = true →
    undefinedUses options (paramUses V bs) = undefinedUses options (paramUses W (bindingsEnclosed bs))
  | [], _ => rfl
  | ⟨id, _, value, _⟩ :: bs, ht => by
    obtain ⟨hvalue, hbs⟩ := Bool.and_eq_true_iff.mp ht
    simp only [bindingsEnclosed, paramUses, undefinedUses_append, undefinedValue_enclosed h value hvalue,
      undefinedParams_enclosed (h.cons id.name) bs hbs]

/-- A callable: its own name is in sight inside of it. -/
theorem Callable.undefined_enclosed {V W : List String} : ∀ callable : Callable,
    SameNames (callable.sees V) (callable.sees W) → callable.tidy = true →
    undefinedUses options (callable.uses V) = undefinedUses options (callable.enclosed.uses W)
  | ⟨name, params, _, body, _⟩, h, ht => by
    obtain ⟨hparams, hbody⟩ := Bool.and_eq_true_iff.mp ht
    have h : SameNames ((name.map Ident.name).toList ++ V) ((name.map Ident.name).toList ++ W) := h
    simp only [Callable.enclosed, Callable.uses, undefinedUses_append, undefinedParams_enclosed h params hparams,
      boundNames_enclosed, undefinedBody_enclosed (h.append (boundNames params)) body hbody]

/-- The body of a callable. -/
theorem undefinedBody_enclosed {V W : List String} (h : SameNames V W) :
    ∀ body : Option Block, optBlockTidy body = true →
    undefinedUses options (bodyUses V body) = undefinedUses options (bodyUses W (optBlockEnclosed body))
  | none, _ => rfl
  | some ⟨body, _⟩, ht => by
    rw [optBlockEnclosed, bodyUses, bodyUses, hoisted_enclosed,
      undefinedStmts_enclosed (h.append (hoisted body)) body ht]

theorem undefinedInit_enclosed {V W : List String} (h : SameNames V W) : ∀ init : Option ForInit,
    optForInitTidy init = true →
    undefinedUses options (initUses V init) = undefinedUses options (initUses W (optForInitEnclosed init))
  | none, _ => rfl
  | some (.declaration ⟨_, bindings, _⟩), ht => undefinedVariables_enclosed h bindings ht
  | some (.expression e), ht => e.undefined_enclosed h ht

/-- Braces around the bodies in a tidy statement leave its undefined names as they are, also in another place where the
inside of the statement sees the same names. -/
theorem Stmt.undefined_enclosed {top top' : Bool} {V W : List String} : ∀ s : Stmt,
    SameNames (s.sees top V) (s.sees top' W) → s.tidy = true →
    undefinedUses options (s.uses top V) = undefinedUses options (s.enclosed.uses top' W)
  | .declaration ⟨_, bindings, _⟩, h, ht => undefinedVariables_enclosed h bindings ht
  | .function callable, h, ht => callable.undefined_enclosed h ht
  | .classDecl name base _ members _, h, ht => by
    obtain ⟨hbase, hmembers⟩ := Bool.and_eq_true_iff.mp ht
    simp only [Stmt.sees] at h
    simp only [Stmt.enclosed, Stmt.uses, ← List.singleton_append (l := _ ++ _), undefinedUses_append,
      undefinedValue_enclosed h base hbase, undefinedMembers_enclosed h members hmembers]
  | .block ⟨body, _⟩, h, ht => by
    simp only [Stmt.sees] at h
    rw [Stmt.enclosed, Stmt.uses, Stmt.uses, hoisted_enclosed,
      undefinedStmts_enclosed (h.append (hoisted body)) body ht]
  | .ifElse test consequent alternate _, h, ht => by
    simp only [Stmt.sees] at h
    simp only [Stmt.tidy, Bool.and_eq_true, Bool.not_eq_true'] at ht
    obtain ⟨⟨⟨htest, hl⟩, hc⟩, ha⟩ := ht
    have hconsequent := Stmt.undefined_braced h (Stmt.sees_of_not_isLoose hl top V)
      (fun W' h' => consequent.undefined_enclosed h' hc) top'
    have halternate : undefinedUses options (alternateUses top V alternate)
        = undefinedUses options (alternateUses top' W (elseEnclosed alternate)) := undefinedElse_enclosed h alternate ha
    -- neither form of the first branch declares a name for the last one
    rw [Stmt.enclosed, Stmt.uses, Stmt.uses, consequent.declares_of_tidy hc hl, Stmt.declares_braced]
    simp only [undefinedUses_append, test.undefined_enclosed h htest, hconsequent, List.nil_append, halternate]
  | .forLoop init test update body _, h, ht => by
    simp only [Stmt.sees] at h
    simp only [Stmt.tidy, Bool.and_eq_true] at ht
    obtain ⟨⟨⟨hinit, htest⟩, hupdate⟩, hbody⟩ := ht
    have hinside := h.append ((init.map ForInit.declares).getD [])
    have hbody := Stmt.undefined_braced hinside rfl (fun W' h' => body.undefined_enclosed h' hbody) false
    simp only [Stmt.enclosed, Stmt.uses, initDeclares_enclosed, undefinedUses_append,
      undefinedInit_enclosed h init hinit, undefinedValue_enclosed hinside test htest,
      undefinedValue_enclosed hinside update hupdate, hbody]
  | .forEach _ id _ iterable body _, h, ht => by
    obtain ⟨hiterable, hbody⟩ := Bool.and_eq_true_iff.mp ht
    simp only [Stmt.sees] at h
    have hinside := h.cons id.name
    have hbody := Stmt.undefined_braced hinside rfl (fun W' h' => body.undefined_enclosed h' hbody) false
    simp only [Stmt.enclosed, Stmt.uses, undefinedUses_append, iterable.undefined_enclosed h hiterable, hbody]
  | .whileLoop test body _, h, ht => by
    simp only [Stmt.sees] at h
    simp only [Stmt.tidy, Bool.and_eq_true, Bool.not_eq_true'] at ht
    obtain ⟨⟨htest, hl⟩, hbody⟩ := ht
    have hbody := Stmt.undefined_braced h (Stmt.sees_of_not_isLoose hl top V)
      (fun W' h' => body.undefined_enclosed h' hbody) top'
    simp only [Stmt.enclosed, Stmt.uses, undefinedUses_append, test.undefined_enclosed h htest, hbody]
  | .ret value _, h, ht => undefinedValue_enclosed h value ht
  | .expression e _, h, ht => e.undefined_enclosed h ht

/-- Statements in a row. The names in sight stay the same for both. -/
theorem undefinedStmts_enclosed {top : Bool} {V W : List String} (h : SameNames V W) : ∀ ss : List Stmt,
    stmtsTidy ss = true →
    undefinedUses options (stmtUses top V ss) = undefinedUses options (stmtUses top W (stmtsEnclosed ss))
  | [], _ => rfl
  | s :: ss, ht => by
    obtain ⟨hs, hss⟩ := Bool.and_eq_true_iff.mp ht
    rw [stmtsEnclosed, stmtUses, stmtUses, undefinedUses_append, undefinedUses_append, s.declares_enclosed hs,
      s.undefined_enclosed (h.sees top s) hs, undefinedStmts_enclosed (h.append (s.declares top)) ss hss]

/-- An alternative: a condition stays what it is, and anything else gets braces. -/
theorem undefinedElse_enclosed {top top' : Bool} {V W : List String} (h : SameNames V W) : ∀ s : Option Stmt,
    elseTidy s = true →
    undefinedUses options (alternateUses top V s) = undefinedUses options (alternateUses top' W (elseEnclosed s))
  | none, _ => rfl
  | some s, ht => by
    simp only [elseTidy, Bool.and_eq_true, Bool.not_eq_true'] at ht
    have hsees := Stmt.sees_of_not_isLoose ht.1
    cases hif : s.isIf with
    | true =>
      rw [elseEnclosed_of_isIf hif, alternateUses, alternateUses]
      refine s.undefined_enclosed ?_ ht.2
      rw [hsees top, hsees top']
      exact h.sees false s
    | false =>
      rw [elseEnclosed_of_not_isIf hif, alternateUses, alternateUses]
      exact Stmt.undefined_braced h (hsees top V) (fun W' h' => s.undefined_enclosed h' ht.2) top'

/-- Members of a class. -/
theorem undefinedMembers_enclosed {V W : List String} (h : SameNames V W) : ∀ ms : List Member, membersTidy ms = true →
    undefinedUses options (memberUses V ms) = undefinedUses options (memberUses W (membersEnclosed ms))
  | [], _ => rfl
  | .method _ _ callable _ _ _ :: ms, ht => by
    obtain ⟨hcallable, hms⟩ := Bool.and_eq_true_iff.mp ht
    rw [membersEnclosed, memberUses, memberUses, undefinedUses_append, undefinedUses_append,
      callable.undefined_enclosed (h.append _) hcallable, undefinedMembers_enclosed h ms hms]
  | .field _ _ value _ _ _ :: ms, ht => by
    obtain ⟨hvalue, hms⟩ := Bool.and_eq_true_iff.mp ht
    simp only [membersEnclosed, memberUses, undefinedUses_append, undefinedValue_enclosed h value hvalue,
      undefinedMembers_enclosed h ms hms]

end

end Trees

/-! ## Programs -/

/-- A check without a bound on its errors finds the same undefined names in a tidy program and in the program with
braces around its bodies, and both have the same code. -/
theorem Program.check_enclosed {options : CheckOptions} (hmax : options.maxErrors = none) {p : Program}
    (h : p.tidy = true) :
    (p.enclosed.check options).undefined = (p.check options).undefined ∧
      ∀ indent, writeScript indent p.enclosed = writeScript indent p := by
  have huses : undefinedUses options p.uses = undefinedUses options p.enclosed.uses := by
    rw [Program.uses, Program.uses, Program.enclosed, hoisted_enclosed]
    exact undefinedStmts_enclosed (.refl _) p.body h
  refine ⟨?_, fun indent => writeScript_enclosed indent p⟩
  rw [Program.check_undefined hmax, Program.check_undefined hmax, huses]

/-- The body of a `for` loop that is a declaration, a loop that is the body of a loop, and a function that is a
branch. -/
def loopBodies : String :=
  "enquanto (n) para (variavel i = n; i; i++) variavel b = i; se (i) mostrar(b) senao funcao f() { f() } f()"

theorem Program.check_enclosed_loops : ∃ ts p, tokenize loopBodies = .ok ts ∧ parse ts = .ok p ∧
    ({ maxErrors := none } : CheckOptions).maxErrors = none ∧ p.tidy = true ∧
    (p.check { maxErrors := none }).undefined = ["n", "n", "i", "b", "f"] ∧
    (p.enclosed.check { maxErrors := none }).undefined = ["n", "n", "i", "b", "f"] := by
  have hcheck : ((tokenize loopBodies).toOption.any fun ts => (parse ts).toOption.any fun p =>
      p.tidy && (p.check { maxErrors := none }).undefined == ["n", "n", "i", "b", "f"]) = true := by decide +kernel
  obtain ⟨ts, hts, hcheck⟩ := exists_ok_of_any hcheck
  obtain ⟨p, hp, hcheck⟩ := exists_ok_of_any hcheck
  obtain ⟨htidy, hundefined⟩ := Bool.and_eq_true_iff.mp hcheck
  have hundefined := eq_of_beq hundefined
  have hsame := (@Program.check_enclosed { maxErrors := none } rfl p htidy).1
  exact ⟨ts, p, hts, hp, rfl, htidy, hundefined, hsame.trans hundefined⟩

/-- A declaration that is a branch is seen after the condition, but not if it has the braces that its code has. -/
theorem loose_branch : ∃ ts p, tokenize "se (verdadeiro) variavel a = 1; mostrar(a)" = .ok ts ∧ parse ts = .ok p ∧
    (p.check { maxErrors := none }).errors = [] ∧ (p.enclosed.check { maxErrors := none }).undefined = ["a"] ∧
    writeScript "" p = .ok (String.intercalate "\n" [r"if (true) {", "let a = 1;", r"}", "console.log(a);"]) := by
  let source := "se (verdadeiro) variavel a = 1; mostrar(a)"
  have hcheck : ((tokenize source).toOption.any fun ts => (parse ts).toOption.any fun p =>
      (p.check { maxErrors := none }).errors == [] && (p.enclosed.check { maxErrors := none }).undefined == ["a"] &&
      (writeScript "" p).toOption
        == some (String.intercalate "\n" [r"if (true) {", "let a = 1;", r"}", "console.log(a);"])) = true := by
    decide +kernel
  obtain ⟨ts, hts, hcheck⟩ := exists_ok_of_any hcheck
  obtain ⟨p, hp, hcheck⟩ := exists_ok_of_any hcheck
  simp only [Bool.and_eq_true, beq_iff_eq] at hcheck
  obtain ⟨⟨herrors, hundefined⟩, hscript⟩ := hcheck
  exact ⟨ts, p, hts, hp, herrors, hundefined, ok_of_toOption hscript⟩

end Vernacular
