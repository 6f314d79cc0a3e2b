import Vernacular.Proofs.Script.Enclosed
import Vernacular.Proofs.Tree.Erased

/-!
# Annotations leave no trace

Generation never looks at types, interfaces, access, decorators and places, and writes nothing for an abstract method
without a body. So a program and `Program.erased` have the same code, or they have none for the same reason: both
generations write and count the same, step by step, up to the end or to the same error.

- `Expr.render_erased`, `Stmt.emit_erased`: by induction on the tree;
- `writeScript_erased`: for programs.
-/

namespace Vernacular

/-! ## What generation asks about parts of a tree -/

namespace Expr

/-- Generation asks nothing about an operand that erasing changes. -/
theorem alike_erased : ∀ e : Expr, e.erased.Alike e
  | .literal (.number _) _ | .literal (.string ..) _ | .literal (.template _) _ | .literal (.boolean _) _
  | .literal .null _ => ⟨rfl, rfl, fun _ => rfl, rfl, rfl⟩
  | .update _ true _ _ | .update _ false _ _ => ⟨rfl, rfl, fun _ => rfl, rfl, rfl⟩
  | .member o _ optional _ | .index o _ optional _ =>
    ⟨rfl, rfl, fun _ => rfl, congrArg (optional || ·) (alike_erased o).parensUnderNew, rfl⟩
  | .ident .. | .this .. | .super .. | .array .. | .object .. | .function .. | .unary .. | .binary .. | .assign ..
  | .call .. | .new .. => ⟨rfl, rfl, fun _ => rfl, rfl, rfl⟩

end Expr

theorem Stmt.isIf_erased : ∀ s : Stmt, s.erased.isIf = s.isIf
  | .block ⟨_, _⟩ => rfl
  | .declaration _ | .function _ | .classDecl .. | .ifElse .. | .forLoop .. | .forEach .. | .whileLoop .. | .ret ..
  | .expression .. => rfl

/-! ## Trees -/

mutual

/-- Erasing does not change the text of an expression. By induction on the tree. -/
theorem Expr.render_erased (margin : Margin) (role : Role) :
    ∀ e : Expr, e.erased.render margin role = e.render margin role
  | .literal .. | .ident .. | .this .. | .super .. => rfl
  | .array items _ => by
    simp only [Expr.erased, Expr.render, renderExprs_erased margin items]
    rfl
  | .object [] _ => rfl
  | .object (⟨key, value, s⟩ :: ps) _ => by
    have hps := renderProperties_erased margin (⟨key, value, s⟩ :: ps)
    simp only [Expr.erased, propertiesErased, Expr.render] at hps ⊢
    rw [hps]
    rfl
  | .function ⟨_, params, _, none, _⟩ => rfl
  | .function ⟨none, params, _, some ⟨body, _⟩, _⟩ | .function ⟨some _, params, _, some ⟨body, _⟩, _⟩ => by
    simp only [Expr.erased, Callable.erased, optBlockErased, Expr.render, bindingTexts_erased _ params,
      emitAll_erased body]
    rfl
  | .unary op operand _ => by
    simp only [Expr.erased, Expr.render, operand.render_erased margin .value, operand.alike_erased.precedence]
    rfl
  | .update op before target _ => by
    simp only [Expr.erased, Expr.render, target.render_erased margin .value, target.alike_erased.isAssignable]
    rfl
  | .binary op left right _ => by
    simp only [Expr.erased, Expr.render, left.render_erased margin .value, right.render_erased margin .value,
      left.alike_erased.parensOnLeft, right.alike_erased.parensOnRight]
    rfl
  | .assign op target value _ => by
    simp only [Expr.erased, Expr.render, target.render_erased margin .value, value.render_erased margin .value,
      target.alike_erased.isAssignable]
    rfl
  | .call callee args _ _ => by
    simp only [Expr.erased, Expr.render, callee.render_erased margin .callee, renderExprs_erased margin args,
      callee.alike_erased.precedence]
    rfl
  | .new callee args _ => by
    simp only [Expr.erased, Expr.render, callee.render_erased margin .value, renderExprs_erased margin args,
      callee.alike_erased.parensUnderNew]
    rfl
  | .member object _ _ _ => by
    simp only [Expr.erased, Expr.render, object.render_erased margin .value, object.alike_erased.parensBeforeProperty]
    rfl
  | .index object key _ _ => by
    simp only [Expr.erased, Expr.render, object.render_erased margin .value, key.render_erased margin .value,
      object.alike_erased.parensBeforeProperty]
    rfl

theorem renderExprs_erased (margin : Margin) :
    ∀ es : List Expr, renderExprs margin (exprsErased es) = renderExprs margin es
  | [] => rfl
  | e :: es => by
    rw [exprsErased, renderExprs, renderExprs, e.render_erased margin .value, renderExprs_erased margin es]

theorem renderProperties_erased (margin : Margin) :
    ∀ ps : List Property, renderProperties margin (propertiesErased ps) = renderProperties margin ps
  | [] => rfl
  | ⟨key, value, _⟩ :: ps => by
    rw [propertiesErased, renderProperties, renderProperties, value.render_erased margin .value,
      renderProperties_erased margin ps]

theorem bindingTexts_erased (margin : Margin) :
    ∀ bs : List Binding, bindingTexts margin (bindingsErased bs) = bindingTexts margin bs
  | [] => rfl
  | ⟨id, _, none, _⟩ :: bs => by
    rw [bindingsErased, optExprErased, bindingTexts, bindingTexts, bindingTexts_erased margin bs, Ident.erased]
  | ⟨id, _, some value, _⟩ :: bs => by
    rw [bindingsErased, optExprErased, bindingTexts, bindingTexts, value.render_erased margin .value,
      bindingTexts_erased margin bs, Ident.erased]

theorem renderDeclaration_erased (margin : Margin) :
    ∀ d : Declaration, renderDeclaration margin d.erased = renderDeclaration margin d
  | ⟨_, [], _⟩ => rfl
  | ⟨_, ⟨id, type, value, s⟩ :: bs, _⟩ => by
    have hbs := bindingTexts_erased margin (⟨id, type, value, s⟩ :: bs)
    simp only [Declaration.erased, bindingsErased, renderDeclaration] at hbs ⊢
    rw [hbs]

theorem renderInit_erased (margin : Margin) :
    ∀ init : Option ForInit, renderInit margin (optForInitErased init) = renderInit margin init
  | none => rfl
  | some (.declaration d) => renderDeclaration_erased margin d
  | some (.expression e) => e.render_erased margin .value

theorem renderClause_erased (margin : Margin) :
    ∀ e : Option Expr, renderClause margin (optExprErased e) = renderClause margin e
  | none => rfl
  | some e => by rw [optExprErased, renderClause, renderClause, e.render_erased margin .value]

/-- Erasing does not change what is written for a statement. By induction on the tree, with `Expr.render_erased` for
the expressions. -/
theorem Stmt.emit_erased (place : Place) : ∀ s : Stmt, s.erased.emit place = s.emit place
  | .declaration d => by
    simp only [Stmt.erased, Stmt.emit, renderDeclaration_erased _ d]
    rfl
  | .function ⟨none, _, _, _, _⟩ | .function ⟨some _, _, _, none, _⟩ => rfl
  | .function ⟨some id, params, _, some ⟨body, _⟩, _⟩ => by
    simp only [Stmt.erased, Callable.erased, optBlockErased, Stmt.emit, Option.map_some, Ident.erased,
      bindingTexts_erased _ params, emitAll_erased body]
    rfl
  | .classDecl _ none _ members _ => by
    simp only [Stmt.erased, optExprErased, Stmt.emit, Ident.erased, emitMembers_erased members]
    rfl
  | .classDecl _ (some base) _ members _ => by
    simp only [Stmt.erased, optExprErased, Stmt.emit, Ident.erased, base.render_erased _ .value,
      emitMembers_erased members]
    rfl
  | .block ⟨body, _⟩ => by
    simp only [Stmt.erased, Stmt.emit, emitAll_erased body]
    rfl
  | .ifElse test consequent alternate _ => by
    simp only [Stmt.erased, Stmt.emit, test.render_erased _ .value, elseHeaders_erased alternate,
      consequent.emit_erased .inside, emitElse_erased _ alternate]
    rfl
  | .forLoop init test update body _ => by
    simp only [Stmt.erased, Stmt.emit, renderInit_erased _ init, renderClause_erased _ test,
      renderClause_erased _ update, body.emit_erased .inside]
    rfl
  | .forEach _ _ _ iterable body _ => by
    simp only [Stmt.erased, Stmt.emit, Ident.erased, iterable.render_erased _ .value, body.emit_erased .inside]
    rfl
  | .whileLoop test body _ => by
    simp only [Stmt.erased, Stmt.emit, test.render_erased _ .value, body.emit_erased .inside]
    rfl
  | .ret none _ => rfl
  | .ret (some value) _ => by
    simp only [Stmt.erased, optExprErased, Stmt.emit, value.render_erased _ .value]
    rfl
  | .expression e _ => by
    simp only [Stmt.erased, Stmt.emit, e.render_erased _ .value]
    rfl

theorem elseHeaders_erased : ∀ s : Option Stmt, elseHeaders (optStmtErased s) = elseHeaders s
  | none => rfl
  | some s => by
    rw [optStmtErased]
    cases s with
    | ifElse test consequent alternate span =>
      rw [Stmt.erased, elseHeaders, elseHeaders, elseHeaders_erased alternate]
      simp only [test.render_erased _ .value]
    | _ => rw [elseHeaders_of_not_isIf (Stmt.isIf_erased _), elseHeaders_of_not_isIf rfl]

/-- An alternative with its headers. -/
theorem emitElse_erased : ∀ (headers : List String) (s : Option Stmt),
    emitElse headers (optStmtErased s) = emitElse headers s
  | _, none => rfl
  | [], some _ => rfl
  | header :: headers, some s => by
    rw [optStmtErased]
    cases s with
    | ifElse test consequent alternate span =>
      rw [Stmt.erased, emitElse, emitElse, consequent.emit_erased .inside, emitElse_erased headers alternate]
    | _ => rw [emitElse_of_not_isIf (Stmt.isIf_erased _), emitElse_of_not_isIf rfl, Stmt.emit_erased .inside]

/-- Statements in a row. -/
theorem emitAll_erased : ∀ ss : List Stmt, emitAll (stmtsErased ss) = emitAll ss
  | [] => rfl
  | s :: ss => by rw [stmtsErased, emitAll, emitAll, s.emit_erased .lines, emitAll_erased ss]

/-- Members of a class. -/
theorem emitMembers_erased : ∀ ms : List Member, emitMembers (membersErased ms) = emitMembers ms
  | [] => rfl
  | .method _ _ ⟨_, _, _, none, _⟩ ⟨_, _, true⟩ _ _ :: ms => by
    show emitMembers (membersErased ms) = _
    rw [emitMembers_erased ms]
    rfl
  | .method _ _ ⟨_, _, _, none, _⟩ ⟨_, _, false⟩ _ _ :: ms => rfl
  | .method _ _ ⟨_, params, _, some ⟨body, _⟩, _⟩ modifiers _ _ :: ms => by
    rw [membersErased, if_neg (by simp), Callable.erased, optBlockErased, emitMembers, emitMembers,
      emitMembers_erased ms]
    simp only [bindingTexts_erased _ params, emitAll_erased body]
    rfl
  | .field _ _ none _ _ _ :: ms => by
    rw [membersErased, optExprErased, emitMembers, emitMembers, emitMembers_erased ms]
    rfl
  | .field _ _ (some value) _ _ _ :: ms => by
    rw [membersErased, optExprErased, emitMembers, emitMembers, emitMembers_erased ms]
    simp only [value.render_erased _ .value]
    rfl

end

/-- **Annotations are erased without trace.** Without types, interfaces, access, decorators, places and abstract methods
that have no body, a program has the same code, or the same reason to have none. -/
theorem writeScript_erased (indent : String) (p : Program) : writeScript indent p.erased = writeScript indent p := by
  have hscript : p.erased.script indent = p.script indent := by
    funext tally
    rw [Program.script, Program.script, Program.erased, emitAll_erased]
  rw [writeScript, writeScript, hscript]

end Vernacular
