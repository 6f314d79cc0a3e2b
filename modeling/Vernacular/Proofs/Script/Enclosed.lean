import Vernacular.Compiler
import Vernacular.Proofs.Tree.Enclosed

/-!
# Braces that are written anyway

Generation writes braces around every body, so a program has the code of `Program.enclosed`. All of the generation is
the same: what is counted, and where it fails.

- `Expr.Alike`: what generation asks about an operand before it writes it;
- `Stmt.emit_braced`: inside braces, braces around a statement leave no trace;
- `Expr.render_enclosed`, `Stmt.emit_enclosed`: by induction on the tree;
- `Program.script_enclosed`: for programs.
-/

namespace Vernacular

/-! ## What generation asks about parts of a tree -/

/-- All that generation asks about an operand has the same answer for both expressions. -/
structure Expr.Alike (e e' : Expr) : Prop where
  isAssignable : e.isAssignable = e'.isAssignable
  precedence : e.precedence = e'.precedence
  mixesNullish : ∀ op, e.mixesNullish op = e'.mixesNullish op
  parensUnderNew : e.parensUnderNew = e'.parensUnderNew
  parensBeforeProperty : e.parensBeforeProperty = e'.parensBeforeProperty

namespace Expr

theorem Alike.parensOnLeft {e e' : Expr} (h : e.Alike e') (op : BinaryOp) : e.parensOnLeft op = e'.parensOnLeft op := by
  rw [Expr.parensOnLeft, Expr.parensOnLeft, h.precedence, h.mixesNullish]

theorem Alike.parensOnRight {e e' : Expr} (h : e.Alike e') (op : BinaryOp) :
    e.parensOnRight op = e'.parensOnRight op := by
  rw [Expr.parensOnRight, Expr.parensOnRight, h.precedence, h.mixesNullish]

/-- Generation asks nothing about an operand that braces inside of it change. -/
theorem alike_enclosed : ∀ e : Expr, e.enclosed.Alike e
  | .literal (.number _) _ | .literal (.string ..) _ | .literal (.template _) _ | .literal (.boolean _) _
  | .literal .null _ => ⟨rfl, rfl, fun _ => rfl, rfl, rfl⟩
  | .update _ true _ _ | .update _ false _ _ => ⟨rfl, rfl, fun _ => rfl, rfl, rfl⟩
  | .member o _ optional _ | .index o _ optional _ =>
    ⟨rfl, rfl, fun _ => rfl, congrArg (optional || ·) (alike_enclosed o).parensUnderNew, rfl⟩
  | .ident .. | .this .. | .super .. | .array .. | .object .. | .function .. | .unary .. | .binary .. | .assign ..
  | .call .. | .new .. => ⟨rfl, rfl, fun _ => rfl, rfl, rfl⟩

end Expr

/-! ## Statements inside braces -/

/-- Inside braces, a block is its statements. -/
theorem Stmt.emit_block_singleton (s : Stmt) (span : Span) : (Stmt.block ⟨[s], span⟩).emit .inside = s.emit .lines := by
  rw [Stmt.emit]
  simp [Place.count, emitAll]

/-- Inside braces, braces around a statement leave no trace. -/
theorem Stmt.emit_braced (s : Stmt) : s.braced.emit .inside = s.emit .inside := by
  cases s with
  | block => rfl
  | function callable =>
    obtain ⟨name, params, result, body, span⟩ := callable
    exact emit_block_singleton _ _
  | ret value s => cases value <;> exact emit_block_singleton _ _
  | _ => exact emit_block_singleton _ _

/-- An alternative that is no condition has one header. -/
theorem elseHeaders_of_not_isIf {s : Stmt} (h : s.isIf = false) : elseHeaders (some s) = pure ["else"] := by
  cases s with
  | ifElse => cases h
  | _ => rfl

/-- It is written inside the braces of that header. -/
theorem emitElse_of_not_isIf {s : Stmt} (h : s.isIf = false) (header : String) (headers : List String) :
    emitElse (header :: headers) (some s) = (do Emit.layout (·.reopen header); s.emit .inside) := by
  cases s with
  | ifElse => cases h
  | _ => rfl

/-! ## Trees -/

mutual

/-- Braces around bodies do not change the text of an expression. By induction on the tree. -/
theorem Expr.render_enclosed (margin : Margin) (role : Role) :
    ∀ e : Expr, e.enclosed.render margin role = e.render margin role
  | .literal .. | .ident .. | .this .. | .super .. => rfl
  | .array items _ => by
    simp only [Expr.enclosed, Expr.render, renderExprs_enclosed margin items]
    rfl
  | .object [] _ => rfl
  | .object (⟨key, value, s⟩ :: ps) _ => by
    have hps := renderProperties_enclosed margin (⟨key, value, s⟩ :: ps)
    simp only [Expr.enclosed, propertiesEnclosed, Expr.render] at hps ⊢
    rw [hps]
    rfl
  | .function ⟨_, params, _, none, _⟩ => rfl
  | .function ⟨_, params, _, some ⟨body, _⟩, _⟩ => by
    simp only [Expr.enclosed, Callable.enclosed, optBlockEnclosed, Expr.render, bindingTexts_enclosed _ params,
      emitAll_enclosed body]
    rfl
  | .unary op operand _ => by
    simp only [Expr.enclosed, Expr.render, operand.render_enclosed margin .value, operand.alike_enclosed.precedence]
    rfl
  | .update op before target _ => by
    simp only [Expr.enclosed, Expr.render, target.render_enclosed margin .value, target.alike_enclosed.isAssignable]
    rfl
  | .binary op left right _ => by
    simp only [Expr.enclosed, Expr.render, left.render_enclosed margin .value, right.render_enclosed margin .value,
      left.alike_enclosed.parensOnLeft, right.alike_enclosed.parensOnRight]
    rfl
  | .assign op target value _ => by
    simp only [Expr.enclosed, Expr.render, target.render_enclosed margin .value, value.render_enclosed margin .value,
      target.alike_enclosed.isAssignable]
    rfl
  | .call callee args _ _ => by
    simp only [Expr.enclosed, Expr.render, callee.render_enclosed margin .callee, renderExprs_enclosed margin args,
      callee.alike_enclosed.precedence]
    rfl
  | .new callee args _ => by
    simp only [Expr.enclosed, Expr.render, callee.render_enclosed margin .value, renderExprs_enclosed margin args,
      callee.alike_enclosed.parensUnderNew]
    rfl
  | .member object _ _ _ => by
    simp only [Expr.enclosed, Expr.render, object.render_enclosed margin .value,
      object.alike_enclosed.parensBeforeProperty]
    rfl
  | .index object key _ _ => by
    simp only [Expr.enclosed, Expr.render, object.render_enclosed margin .value, key.render_enclosed margin .value,
      object.alike_enclosed.parensBeforeProperty]
    rfl

theorem renderExprs_enclosed (margin : Margin) :
    ∀ es : List Expr, renderExprs margin (exprsEnclosed es) = renderExprs margin es
  | [] => rfl
  | e :: es => by
    rw [exprsEnclosed, renderExprs, renderExprs, e.render_enclosed margin .value, renderExprs_enclosed margin es]

theorem renderProperties_enclosed (margin : Margin) :
    ∀ ps : List Property, renderProperties margin (propertiesEnclosed ps) = renderProperties margin ps
  | [] => rfl
  | ⟨key, value, _⟩ :: ps => by
    rw [propertiesEnclosed, renderProperties, renderProperties, value.render_enclosed margin .value,
      renderProperties_enclosed margin ps]

theorem bindingTexts_enclosed (margin : Margin) :
    ∀ bs : List Binding, bindingTexts margin (bindingsEnclosed bs) = bindingTexts margin bs
  | [] => rfl
  | ⟨_, _, none, _⟩ :: bs => by
    rw [bindingsEnclosed, optExprEnclosed, bindingTexts, bindingTexts, bindingTexts_enclosed margin bs]
  | ⟨_, _, some value, _⟩ :: bs => by
    rw [bindingsEnclosed, optExprEnclosed, bindingTexts, bindingTexts, value.render_enclosed margin .value,
      bindingTexts_enclosed margin bs]

theorem renderDeclaration_enclosed (margin : Margin) :
    ∀ d : Declaration, renderDeclaration margin d.enclosed = renderDeclaration margin d
  | ⟨_, [], _⟩ => rfl
  | ⟨_, ⟨id, type, value, s⟩ :: bs, _⟩ => by
    have hbs := bindingTexts_enclosed margin (⟨id, type, value, s⟩ :: bs)
    simp only [Declaration.enclosed, bindingsEnclosed, renderDeclaration] at hbs ⊢
    rw [hbs]

theorem renderInit_enclosed (margin : Margin) :
    ∀ init : Option ForInit, renderInit margin (optForInitEnclosed init) = renderInit margin init
  | none => rfl
  | some (.declaration d) => renderDeclaration_enclosed margin d
  | some (.expression e) => e.render_enclosed margin .value

theorem renderClause_enclosed (margin : Margin) :
    ∀ e : Option Expr, renderClause margin (optExprEnclosed e) = renderClause margin e
  | none => rfl
  | some e => by rw [optExprEnclosed, renderClause, renderClause, e.render_enclosed margin .value]

/-- Braces around bodies do not change what is written for a statement. By induction on the tree; a body that is put
in braces is written as `Stmt.emit_braced` says. -/
theorem Stmt.emit_enclosed (place : Place) : ∀ s : Stmt, s.enclosed.emit place = s.emit place
  | .declaration d => by
    simp only [Stmt.enclosed, Stmt.emit, renderDeclaration_enclosed _ d]
    rfl
  | .function ⟨none, _, _, _, _⟩ | .function ⟨some _, _, _, none, _⟩ => rfl
  | .function ⟨some id, params, _, some ⟨body, _⟩, _⟩ => by
    simp only [Stmt.enclosed, Callable.enclosed, optBlockEnclosed, Stmt.emit, bindingTexts_enclosed _ params,
      emitAll_enclosed body]
    rfl
  | .classDecl _ none _ members _ => by
    simp only [Stmt.enclosed, optExprEnclosed, Stmt.emit, emitMembers_enclosed members]
    rfl
  | .classDecl _ (some base) _ members _ => by
    simp only [Stmt.enclosed, optExprEnclosed, Stmt.emit, base.render_enclosed _ .value, emitMembers_enclosed members]
    rfl
  | .block ⟨body, _⟩ => by
    simp only [Stmt.enclosed, Stmt.emit, emitAll_enclosed body]
    rfl
  | .ifElse test consequent alternate _ => by
    simp only [Stmt.enclosed, Stmt.emit, test.render_enclosed _ .value, elseHeaders_enclosed alternate,
      Stmt.emit_braced, consequent.emit_enclosed .inside, emitElse_enclosed _ alternate]
    rfl
  | .forLoop init test update body _ => by
    simp only [Stmt.enclosed, Stmt.emit, renderInit_enclosed _ init, renderClause_enclosed _ test,
      renderClause_enclosed _ update, Stmt.emit_braced, body.emit_enclosed .inside]
    rfl
  | .forEach _ _ _ iterable body _ => by
    simp only [Stmt.enclosed, Stmt.emit, iterable.render_enclosed _ .value, Stmt.emit_braced,
      body.emit_enclosed .inside]
    rfl
  | .whileLoop test body _ => by
    simp only [Stmt.enclosed, Stmt.emit, test.render_enclosed _ .value, Stmt.emit_braced, body.emit_enclosed .inside]
    rfl
  | .ret none _ => rfl
  | .ret (some value) _ => by
    simp only [Stmt.enclosed, optExprEnclosed, Stmt.emit, value.render_enclosed _ .value]
    rfl
  | .expression e _ => by
    simp only [Stmt.enclosed, Stmt.emit, e.render_enclosed _ .value]
    rfl

theorem elseHeaders_enclosed : ∀ s : Option Stmt, elseHeaders (elseEnclosed s) = elseHeaders s
  | none => rfl
  | some s => by
    cases s with
    | ifElse test consequent alternate s =>
      rw [elseEnclosed_of_isIf rfl, Stmt.enclosed, elseHeaders, elseHeaders, elseHeaders_enclosed alternate]
      simp only [test.render_enclosed _ .value]
    | _ =>
      rw [elseEnclosed_of_not_isIf rfl, elseHeaders_of_not_isIf (Stmt.isIf_braced _), elseHeaders_of_not_isIf rfl]

/-- An alternative with its headers. -/
theorem emitElse_enclosed : ∀ (headers : List String) (s : Option Stmt),
    emitElse headers (elseEnclosed s) = emitElse headers s
  | _, none => rfl
  | [], some _ => rfl
  | header :: headers, some s => by
    cases s with
    | ifElse test consequent alternate s =>
      rw [elseEnclosed_of_isIf rfl, Stmt.enclosed, emitElse, emitElse, Stmt.emit_braced,
        consequent.emit_enclosed .inside, emitElse_enclosed headers alternate]
    | _ =>
      rw [elseEnclosed_of_not_isIf rfl, emitElse_of_not_isIf (Stmt.isIf_braced _), emitElse_of_not_isIf rfl,
        Stmt.emit_braced, Stmt.emit_enclosed .inside]

/-- Statements in a row. -/
theorem emitAll_enclosed : ∀ ss : List Stmt, emitAll (stmtsEnclosed ss) = emitAll ss
  | [] => rfl
  | s :: ss => by rw [stmtsEnclosed, emitAll, emitAll, s.emit_enclosed .lines, emitAll_enclosed ss]

/-- Members of a class. -/
theorem emitMembers_enclosed : ∀ ms : List Member, emitMembers (membersEnclosed ms) = emitMembers ms
  | [] => rfl
  | .method _ _ ⟨_, _, _, none, _⟩ _ _ _ :: ms => by
    rw [membersEnclosed, Callable.enclosed, optBlockEnclosed, emitMembers, emitMembers, emitMembers_enclosed ms]
  | .method _ _ ⟨_, params, _, some ⟨body, _⟩, _⟩ _ _ _ :: ms => by
    rw [membersEnclosed, Callable.enclosed, optBlockEnclosed, emitMembers, emitMembers, emitMembers_enclosed ms]
    simp only [bindingTexts_enclosed _ params, emitAll_enclosed body]
  | .field _ _ none _ _ _ :: ms => by
    rw [membersEnclosed, optExprEnclosed, emitMembers, emitMembers, emitMembers_enclosed ms]
  | .field _ _ (some value) _ _ _ :: ms => by
    rw [membersEnclosed, optExprEnclosed, emitMembers, emitMembers, emitMembers_enclosed ms]
    simp only [value.render_enclosed _ .value]

end

/-- A program with braces around its bodies has the same code. -/
theorem writeScript_enclosed (indent : String) (p : Program) :
    writeScript indent p.enclosed = writeScript indent p := by
  have hscript : p.enclosed.script indent = p.script indent := by
    funext tally
    rw [Program.script, Program.script, Program.enclosed, emitAll_enclosed]
  rw [writeScript, writeScript, hscript]

end Vernacular
