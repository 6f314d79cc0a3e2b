import Vernacular.Proofs.Script.Enclosed
import Vernacular.Proofs.Script.RoundTrip

/-!
# Generated code generates itself

The code of a tree depends neither on the places in it (`Program.code_bare`) nor on anything else that its normal form
lacks (`Program.code_norm`): names that were exchanged are not exchanged again, and the braces and parentheses of a
normal form are those that generation would put anyway. Since generated code is read as the normal form, it is its own
code.

- `Expr.code_bare`, `Stmt.code_bare`: without places, by induction on the tree;
- `Expr.code_norm`, `Stmt.code_norm`: of the normal form, by induction on the tree;
- `compile_script_fixed`: what is compiled from code that was compiled.
-/

namespace Vernacular

open Grammar Vernacular.Parser

/-! ## Places do not show in code -/

/-- Places decide nothing about parentheses. -/
theorem Expr.alike_bare : ∀ e : Expr, e.bare.Alike e
  | .literal (.number _) _ | .literal (.string ..) _ | .literal (.template _) _ | .literal (.boolean _) _
  | .literal .null _ => ⟨rfl, rfl, fun _ => rfl, rfl, rfl⟩
  | .update _ true _ _ | .update _ false _ _ => ⟨rfl, rfl, fun _ => rfl, rfl, rfl⟩
  | .member o _ optional _ | .index o _ optional _ =>
    ⟨rfl, rfl, fun _ => rfl, congrArg (optional || ·) (alike_bare o).parensUnderNew, rfl⟩
  | .ident .. | .this .. | .super .. | .array .. | .object .. | .function .. | .unary .. | .binary .. | .assign ..
  | .call .. | .new .. => ⟨rfl, rfl, fun _ => rfl, rfl, rfl⟩

mutual

/-- The code of an expression does not depend on places. By induction on the tree. -/
theorem Expr.code_bare (m : Margin) (role : Role) : ∀ e : Expr, e.bare.code m role = e.code m role
  | .literal .. | .ident .. | .this .. | .super .. | .object [] _ => rfl
  | .array items _ => by
    rw [Expr.bare, Expr.code, Expr.code, exprCodes_bare m items]
  | .object (⟨key, value, s⟩ :: ps) _ => by
    have h := propertyCodes_bare m (⟨key, value, s⟩ :: ps)
    rw [propertiesBare] at h
    rw [Expr.bare, propertiesBare, Expr.code, Expr.code, h] <;> nofun
  | .function ⟨name, params, _, body, _⟩ => by
    rw [Expr.bare, Callable.bare, Expr.code, Expr.code, bindingCodes_bare m params, bodyLines_bare m.deeper body]
    cases name <;> rfl
  | .unary _ operand _ => by
    rw [Expr.bare, Expr.code, Expr.code, operand.alike_bare.precedence, operand.code_bare m .value]
  | .update _ _ target _ => by
    rw [Expr.bare, Expr.code, Expr.code, target.code_bare m .value]
  | .binary op left right _ => by
    rw [Expr.bare, Expr.code, Expr.code, left.alike_bare.parensOnLeft, right.alike_bare.parensOnRight,
      left.code_bare m .value, right.code_bare m .value]
  | .assign _ target value _ => by
    rw [Expr.bare, Expr.code, Expr.code, target.code_bare m .value, value.code_bare m .value]
  | .call callee args _ _ => by
    rw [Expr.bare, Expr.code, Expr.code, callee.alike_bare.precedence, callee.code_bare m .callee,
      exprCodes_bare m args]
  | .new callee args _ => by
    rw [Expr.bare, Expr.code, Expr.code, callee.alike_bare.parensUnderNew, callee.code_bare m .value,
      exprCodes_bare m args]
  | .member object _ _ _ => by
    rw [Expr.bare, Expr.code, Expr.code, object.alike_bare.parensBeforeProperty, object.code_bare m .value]
  | .index object key _ _ => by
    rw [Expr.bare, Expr.code, Expr.code, object.alike_bare.parensBeforeProperty, object.code_bare m .value,
      key.code_bare m .value]

theorem exprCodes_bare (m : Margin) : ∀ es : List Expr, exprCodes m (exprsBare es) = exprCodes m es
  | [] => rfl
  | e :: es => by
    rw [exprsBare, exprCodes, exprCodes, e.code_bare m .value, exprCodes_bare m es]

theorem propertyCodes_bare (m : Margin) : ∀ ps : List Property, propertyCodes m (propertiesBare ps) = propertyCodes m ps
  | [] => rfl
  | ⟨_, value, _⟩ :: ps => by
    rw [propertiesBare, propertyCodes, propertyCodes, value.code_bare m .value, propertyCodes_bare m ps]

theorem bindingCodes_bare (m : Margin) : ∀ bs : List Binding, bindingCodes m (bindingsBare bs) = bindingCodes m bs
  | [] => rfl
  | ⟨_, _, none, _⟩ :: bs => by
    rw [bindingsBare, optExprBare, bindingCodes, bindingCodes, bindingCodes_bare m bs]
    rfl
  | ⟨_, _, some value, _⟩ :: bs => by
    rw [bindingsBare, optExprBare, bindingCodes, bindingCodes, value.code_bare m .value, bindingCodes_bare m bs]
    rfl

theorem bodyLines_bare (m : Margin) : ∀ body : Option Block, bodyLines m (optBlockBare body) = bodyLines m body
  | none => rfl
  | some ⟨body, _⟩ => by
    rw [optBlockBare, Block.bare, bodyLines, bodyLines, stmtLines_bare m body]

theorem declarationCode_bare (m : Margin) : ∀ d : Declaration, declarationCode m d.bare = declarationCode m d
  | ⟨_, bindings, _⟩ => by
    rw [Declaration.bare, declarationCode, declarationCode, bindingCodes_bare m bindings]

theorem initCode_bare (m : Margin) : ∀ init : Option ForInit, initCode m (optForInitBare init) = initCode m init
  | none => rfl
  | some (.declaration d) => by
    rw [optForInitBare, initCode, initCode, declarationCode_bare m d]
  | some (.expression e) => by
    rw [optForInitBare, initCode, initCode, e.code_bare m .value]

theorem clauseCode_bare (m : Margin) : ∀ e : Option Expr, clauseCode m (optExprBare e) = clauseCode m e
  | none => rfl
  | some e => by
    rw [optExprBare, clauseCode, clauseCode, e.code_bare m .value]

/-- The code of a statement does not depend on places. -/
theorem Stmt.code_bare (m : Margin) (place : Place) : ∀ s : Stmt, s.bare.code m place = s.code m place
  | .declaration d => by
    rw [Stmt.bare, Stmt.code, Stmt.code, declarationCode_bare m d]
  | .function ⟨name, params, _, body, _⟩ => by
    rw [Stmt.bare, Callable.bare, Stmt.code, Stmt.code, bindingCodes_bare m params, bodyLines_bare m.deeper body]
    cases name <;> rfl
  | .classDecl _ base _ members _ => by
    rw [Stmt.bare, Stmt.code, Stmt.code, heritageCode_bare m base, memberLines_bare m.deeper members]
    rfl
  | .block ⟨body, _⟩ => by
    rw [Stmt.bare, Block.bare]
    cases place with
    | lines => rw [Stmt.code, Stmt.code, stmtLines_bare m.deeper body]
    | inside => rw [Stmt.code, Stmt.code, stmtLines_bare m body]
  | .ifElse test consequent alternate _ => by
    rw [Stmt.bare, Stmt.code, Stmt.code, test.code_bare m .value, consequent.code_bare m.deeper .inside,
      elseCode_bare m alternate]
  | .forLoop init test update body _ => by
    rw [Stmt.bare, Stmt.code, Stmt.code, initCode_bare m init, clauseCode_bare m test, clauseCode_bare m update,
      body.code_bare m.deeper .inside]
  | .forEach _ _ _ iterable body _ => by
    rw [Stmt.bare, Stmt.code, Stmt.code, iterable.code_bare m .value, body.code_bare m.deeper .inside]
    rfl
  | .whileLoop test body _ => by
    rw [Stmt.bare, Stmt.code, Stmt.code, test.code_bare m .value, body.code_bare m.deeper .inside]
  | .ret none _ => rfl
  | .ret (some value) _ => by
    rw [Stmt.bare, optExprBare, Stmt.code, Stmt.code, value.code_bare m .value]
  | .expression e _ => by
    rw [Stmt.bare, Stmt.code, Stmt.code, e.code_bare m .value]

theorem heritageCode_bare (m : Margin) : ∀ base : Option Expr, heritageCode m (optExprBare base) = heritageCode m base
  | none => rfl
  | some e => by
    rw [optExprBare, heritageCode, heritageCode, e.code_bare m .value]

theorem elseCode_bare (m : Margin) : ∀ s : Option Stmt, elseCode m (optStmtBare s) = elseCode m s
  | none => rfl
  | some s => by
    cases s with
    | ifElse test consequent alternate s =>
      rw [optStmtBare, Stmt.bare, elseCode, elseCode, test.code_bare m .value, consequent.code_bare m.deeper .inside,
        elseCode_bare m alternate]
    | declaration | function | classDecl | block | forLoop | forEach | whileLoop | ret | expression =>
      rw [optStmtBare, elseCode_of_not_isIf rfl, elseCode_of_not_isIf rfl, Stmt.code_bare m.deeper .inside]

theorem stmtLines_bare (m : Margin) : ∀ ss : List Stmt, stmtLines m (stmtsBare ss) = stmtLines m ss
  | [] => rfl
  | s :: ss => by
    rw [stmtsBare, stmtLines, stmtLines, s.code_bare m .lines, stmtLines_bare m ss]

theorem memberLines_bare (m : Margin) : ∀ ms : List Member, memberLines m (membersBare ms) = memberLines m ms
  | [] => rfl
  | .method _ _ ⟨_, params, _, some ⟨body, _⟩, _⟩ _ _ _ :: ms => by
    rw [membersBare, Member.bare, Callable.bare, optBlockBare, Block.bare, memberLines, memberLines,
      bindingCodes_bare m params, stmtLines_bare m.deeper body, memberLines_bare m ms]
  | .method _ _ ⟨_, _, _, none, _⟩ _ _ _ :: ms => by
    rw [membersBare, Member.bare, Callable.bare, optBlockBare, memberLines, memberLines, memberLines_bare m ms]
  | .field _ _ value _ _ _ :: ms => by
    rw [membersBare, Member.bare, memberLines, memberLines, valueCode_bare m value, memberLines_bare m ms]

theorem valueCode_bare (m : Margin) : ∀ value : Option Expr, valueCode m (optExprBare value) = valueCode m value
  | none => rfl
  | some e => by
    rw [optExprBare, valueCode, valueCode, e.code_bare m .value]

end

/-- The code of a program does not depend on places. -/
theorem Program.code_bare (unit : String) (p : Program) : p.bare.code unit = p.code unit := by
  rw [Program.code, Program.code, Program.bare, stmtLines_bare]

/-! ## Names are exchanged once -/

/-- A table that gives none of the names it exchanges leaves alone what it has given. -/
theorem lookup_getD_idem {table : List (String × String)} (h : (table.all fun e => (table.lookup e.2).isNone) = true)
    (s : String) : (table.lookup ((table.lookup s).getD s)).getD ((table.lookup s).getD s) =
      (table.lookup s).getD s := by
  cases hs : table.lookup s with
  | none => rw [Option.getD_none, hs, Option.getD_none]
  | some t =>
    have ht : table.lookup t = none := by
      obtain ⟨before, after, rfl, -⟩ := List.lookup_eq_some_iff.mp hs
      exact Option.isNone_iff_eq_none.mp (List.all_eq_true.mp h (s, t) (by simp))
    rw [Option.getD_some, ht, Option.getD_none]

/-- A name that has been exchanged is not exchanged again. -/
theorem Role.rename_rename (role : Role) (s : String) : role.rename (role.rename s) = role.rename s := by
  cases role with
  | value => exact lookup_getD_idem rfl s
  | callee =>
    have hboth (s : String) : methodText s = ((methodTable ++ propertyTable).lookup s).getD s := by
      rw [methodText, List.lookup_append]
    simp only [rename, hboth]
    exact lookup_getD_idem rfl s

/-- So the name of a property is used in the same way once more. -/
theorem PropertyName.used_renamed (role : Role) (name : PropertyName) :
    (name.renamed role.rename).used role.rename = name.used role.rename := by
  cases name with
  | plain s => exact role.rename_rename s
  | hashed s => rfl

/-- A name that was exchanged is written as it is. -/
theorem Expr.code_ofPath (m : Margin) (role : Role) {name : String} (h : Lexicon.spelled.ident name) :
    (Expr.ofPath (identifierName name)).code m role = identifierName name := by
  cases hl : identifierTable.lookup name with
  | none =>
    obtain ⟨k, hk, hs⟩ := h
    have hword := isWordText_of_mem (by decide) hk hs
    obtain ⟨-, hdrop⟩ := takeWhile_append_stop (r := []) (fun c hc => ne_point_of_isWordText hword hc) (by simp)
    rw [List.append_nil] at hdrop
    have hname : identifierName name = name := by rw [identifierName, hl, Option.getD_none]
    rw [hname, Expr.ofPath, hdrop, Expr.code, hname]
  | some text =>
    have hname : identifierName name = text := by rw [identifierName, hl, Option.getD_some]
    have hall : ∀ entry ∈ identifierTable, (Expr.ofPath entry.2).functionFree = true ∧
        (Expr.ofPath entry.2).code ⟨"", 0⟩ .value = entry.2 ∧ (Expr.ofPath entry.2).code ⟨"", 0⟩ .callee = entry.2 := by
      decide
    obtain ⟨before, after, htable, -⟩ := List.lookup_eq_some_iff.mp hl
    obtain ⟨hfree, hvalue, hcallee⟩ := hall (name, text) (by rw [htable]; simp)
    rw [hname, Expr.code_margin m ⟨"", 0⟩ role _ hfree]
    cases role with
    | value => exact hvalue
    | callee => exact hcallee

/-! ## Parentheses of normal forms -/

namespace Expr

/-- Only a name can change how tightly it binds, and it still does as tightly as calls do. -/
theorem precedence_norm (role : Role) (e : Expr) :
    (e.norm role).precedence = e.precedence ∨ callPrecedence ≤ e.precedence ∧
    callPrecedence ≤ (e.norm role).precedence := by
  cases e with
  | ident name s =>
    refine .inr ⟨show 17 ≤ 18 by decide, ?_⟩
    exact precedence_of_isAssignable (isAssignable_norm (e := .ident name s) rfl)
  | update op before target s => cases before <;> exact .inl rfl
  | _ => exact .inl rfl

/-- A normal form binds as tightly as the expression, as far as parentheses ask. -/
theorem precedence_norm_lt (role : Role) (e : Expr) {n : Nat} (hn : n ≤ callPrecedence) :
    (e.norm role).precedence < n ↔ e.precedence < n := by
  rcases e.precedence_norm role with h | h
  · rw [h]
  · omega

/-- Whether `??` meets another logical operator shows in the operators, which stay. -/
theorem mixesNullish_norm (op : BinaryOp) (role : Role) (e : Expr) :
    (e.norm role).mixesNullish op = e.mixesNullish op := by
  cases e with
  | ident name s =>
    rw [norm]
    rcases path_cases (identifierName name) with ⟨-, hpath⟩ | ⟨p, -, hpath⟩ <;> rw [hpath] <;> rfl
  | _ => rfl

/-- So parentheses on the left stay where they are. -/
theorem parensOnLeft_norm (op : BinaryOp) (role : Role) (e : Expr) :
    (e.norm role).parensOnLeft op = e.parensOnLeft op := by
  have hop : op.precedence ≤ callPrecedence := by cases op <;> decide
  have hlt := e.precedence_norm_lt role hop
  have hle : (e.norm role).precedence ≤ unaryPrecedence ↔ e.precedence ≤ unaryPrecedence := by
    simpa only [Nat.lt_succ_iff] using e.precedence_norm_lt role (n := unaryPrecedence + 1) (by decide)
  simp only [parensOnLeft, mixesNullish_norm, hlt, hle]

/-- Parentheses on the right stay where they are. -/
theorem parensOnRight_norm (op : BinaryOp) (role : Role) (e : Expr) :
    (e.norm role).parensOnRight op = e.parensOnRight op := by
  have hop : op.precedence + 1 ≤ callPrecedence := by cases op <;> decide
  have hlt := e.precedence_norm_lt role (Nat.le_of_succ_le hop)
  have hle : (e.norm role).precedence ≤ op.precedence ↔ e.precedence ≤ op.precedence := by
    simpa only [Nat.lt_succ_iff] using e.precedence_norm_lt role hop
  simp only [parensOnRight, mixesNullish_norm, hlt, hle]

/-- So do those of what is constructed. -/
theorem parensUnderNew_norm (role : Role) : ∀ e : Expr, (e.norm role).parensUnderNew = e.parensUnderNew
  | .ident name _ => by
    rw [norm]
    rcases path_cases (identifierName name) with ⟨-, hpath⟩ | ⟨p, -, hpath⟩ <;> rw [hpath] <;> rfl
  | .member o _ _ _ | .index o _ _ _ => by
    rw [norm, parensUnderNew, parensUnderNew, parensUnderNew_norm .value o]
  | .update _ true _ _ | .update _ false _ _ => rfl
  | .literal .. | .this .. | .super .. | .array .. | .object .. | .function .. | .unary .. | .binary .. | .assign ..
  | .call .. | .new .. => rfl

/-- And those in front of a property. -/
theorem parensBeforeProperty_norm (role : Role) (e : Expr) :
    (e.norm role).parensBeforeProperty = e.parensBeforeProperty := by
  cases e with
  | literal value s => cases value <;> rfl
  | ident name s =>
    rw [norm]
    rcases path_cases (identifierName name) with ⟨-, hpath⟩ | ⟨p, -, hpath⟩ <;> rw [hpath] <;> rfl
  | update op before target s => cases before <;> rfl
  | _ => rfl

end Expr

/-- Braces around a statement do not show inside braces. -/
theorem Stmt.code_braced (m : Margin) (s : Stmt) : s.braced.code m .inside = s.code m .inside := by
  cases s with
  | block => rfl
  | function callable =>
    obtain ⟨name, params, result, body, span⟩ := callable
    exact String.append_empty
  | ret value s => cases value <;> exact String.append_empty
  | _ => exact String.append_empty

/-- A branch that is no condition gets braces. -/
theorem elseNorm_of_not_isIf {s : Stmt} (h : s.isIf = false) : elseNorm (some s) = some s.norm.braced := by
  rw [elseNorm, Stmt.asElse, Stmt.isIf_norm, h, if_neg Bool.false_ne_true]

/-! ## Normal forms have the same code -/

mutual

/-- The code of a normal form is the code. By induction on the tree: at each node, the parts have the same code by
induction, and the tests for parentheses give the same. -/
theorem Expr.code_norm (m : Margin) (role : Role) :
    ∀ e : Expr, e.Sound .spelled → (e.norm role).code m role = e.code m role
  | .literal .., _ | .this .., _ | .super .., _ | .object [] _, _ => rfl
  | .ident name _, h => by
    rw [Expr.norm, Expr.code, Expr.code_ofPath m role h]
  | .array items _, h => by
    rw [Expr.norm, Expr.code, Expr.code, exprCodes_norm m items h]
  | .object (⟨key, value, s⟩ :: ps) _, h => by
    have hps := propertyCodes_norm m (⟨key, value, s⟩ :: ps) h
    rw [propertiesNorm] at hps
    rw [Expr.norm, propertiesNorm, Expr.code, Expr.code, hps] <;> nofun
  | .function ⟨name, params, _, body, _⟩, h => by
    rw [Expr.norm, Callable.norm, Expr.code, Expr.code, bindingCodes_norm m params h.2.2.1,
      bodyLines_norm m.deeper body h.2.2.2]
    cases name <;> rfl
  | .unary _ operand _, h => by
    rw [Expr.norm, Expr.code, Expr.code, operand.code_norm m .value h]
    simp only [operand.precedence_norm_lt .value (n := unaryPrecedence) (by decide)]
  | .update _ _ target _, h => by
    rw [Expr.norm, Expr.code, Expr.code, target.code_norm m .value h.2]
  | .binary op left right _, h => by
    rw [Expr.norm, Expr.code, Expr.code, left.parensOnLeft_norm, right.parensOnRight_norm, left.code_norm m .value h.1,
      right.code_norm m .value h.2]
  | .assign _ target value _, h => by
    rw [Expr.norm, Expr.code, Expr.code, target.code_norm m .value h.2.1, value.code_norm m .value h.2.2]
  | .call callee args _ _, h => by
    rw [Expr.norm, Expr.code, Expr.code, callee.code_norm m .callee h.1, exprCodes_norm m args h.2]
    simp only [callee.precedence_norm_lt .callee (Nat.le_refl callPrecedence)]
  | .new callee args _, h => by
    rw [Expr.norm, Expr.code, Expr.code, callee.parensUnderNew_norm, callee.code_norm m .value h.1,
      exprCodes_norm m args h.2]
  | .member object name _ _, h => by
    rw [Expr.norm, Expr.code, Expr.code, object.parensBeforeProperty_norm, object.code_norm m .value h.1,
      name.used_renamed]
  | .index object key _ _, h => by
    rw [Expr.norm, Expr.code, Expr.code, object.parensBeforeProperty_norm, object.code_norm m .value h.1,
      key.code_norm m .value h.2]

/-- Expressions in a row. -/
theorem exprCodes_norm (m : Margin) :
    ∀ es : List Expr, ExprsSound .spelled es → exprCodes m (exprsNorm es) = exprCodes m es
  | [], _ => rfl
  | e :: es, h => by
    rw [exprsNorm, exprCodes, exprCodes, e.code_norm m .value h.1, exprCodes_norm m es h.2]

theorem propertyCodes_norm (m : Margin) : ∀ ps : List Property, PropertiesSound .spelled ps →
    propertyCodes m (propertiesNorm ps) = propertyCodes m ps
  | [], _ => rfl
  | ⟨_, value, _⟩ :: ps, h => by
    rw [propertiesNorm, propertyCodes, propertyCodes, value.code_norm m .value h.1.2, propertyCodes_norm m ps h.2]

theorem bindingCodes_norm (m : Margin) : ∀ bs : List Binding, BindingsSound .spelled bs →
    bindingCodes m (bindingsNorm bs) = bindingCodes m bs
  | [], _ => rfl
  | ⟨_, _, none, _⟩ :: bs, h => by
    rw [bindingsNorm, optExprNorm, bindingCodes, bindingCodes, bindingCodes_norm m bs h.2]
    rfl
  | ⟨_, _, some value, _⟩ :: bs, h => by
    rw [bindingsNorm, optExprNorm, bindingCodes, bindingCodes, value.code_norm m .value h.1.2,
      bindingCodes_norm m bs h.2]
    rfl

theorem bodyLines_norm (m : Margin) : ∀ body : Option Block, OptBlockSound .spelled body →
    bodyLines m (optBlockNorm body) = bodyLines m body
  | none, _ => rfl
  | some ⟨body, _⟩, h => by
    rw [optBlockNorm, bodyLines, bodyLines, stmtLines_norm m body h]

theorem declarationCode_norm (m : Margin) : ∀ d : Declaration, d.Sound .spelled →
    declarationCode m d.norm = declarationCode m d
  | ⟨_, bindings, _⟩, h => by
    rw [Declaration.norm, declarationCode, declarationCode, bindingCodes_norm m bindings h.2]

theorem initCode_norm (m : Margin) : ∀ init : Option ForInit, OptForInitSound .spelled init →
    initCode m (optForInitNorm init) = initCode m init
  | none, _ => rfl
  | some (.declaration d), h => by
    rw [optForInitNorm, initCode, initCode, declarationCode_norm m d h]
  | some (.expression e), h => by
    rw [optForInitNorm, initCode, initCode, e.code_norm m .value h]

theorem clauseCode_norm (m : Margin) : ∀ e : Option Expr, OptExprSound .spelled e →
    clauseCode m (optExprNorm e) = clauseCode m e
  | none, _ => rfl
  | some e, h => by
    rw [optExprNorm, clauseCode, clauseCode, e.code_norm m .value h]

/-- The code of a statement's normal form is the statement's code: its braces are those that generation writes
anyway. -/
theorem Stmt.code_norm (m : Margin) (place : Place) :
    ∀ s : Stmt, s.Sound .spelled → s.norm.code m place = s.code m place
  | .declaration d, h => by
    rw [Stmt.norm, Stmt.code, Stmt.code, declarationCode_norm m d h]
  | .function ⟨name, params, _, body, _⟩, h => by
    rw [Stmt.norm, Callable.norm, Stmt.code, Stmt.code, bindingCodes_norm m params h.2.2.2.1,
      bodyLines_norm m.deeper body h.2.2.2.2]
    cases name <;> rfl
  | .classDecl _ base _ members _, h => by
    rw [Stmt.norm, Stmt.code, Stmt.code, heritageCode_norm m base h.2.2.1, memberLines_norm m.deeper members h.2.2.2]
    rfl
  | .block ⟨body, _⟩, h => by
    rw [Stmt.norm]
    cases place with
    | lines => rw [Stmt.code, Stmt.code, stmtLines_norm m.deeper body h]
    | inside => rw [Stmt.code, Stmt.code, stmtLines_norm m body h]
  | .ifElse test consequent alternate _, h => by
    rw [Stmt.norm, Stmt.code, Stmt.code, test.code_norm m .value h.1, Stmt.code_braced,
      consequent.code_norm m.deeper .inside h.2.1, elseCode_norm m alternate h.2.2]
  | .forLoop init test update body _, h => by
    rw [Stmt.norm, Stmt.code, Stmt.code, initCode_norm m init h.1, clauseCode_norm m test h.2.1,
      clauseCode_norm m update h.2.2.1, Stmt.code_braced, body.code_norm m.deeper .inside h.2.2.2]
  | .forEach _ _ _ iterable body _, h => by
    rw [Stmt.norm, Stmt.code, Stmt.code, iterable.code_norm m .value h.2.1, Stmt.code_braced,
      body.code_norm m.deeper .inside h.2.2]
    rfl
  | .whileLoop test body _, h => by
    rw [Stmt.norm, Stmt.code, Stmt.code, test.code_norm m .value h.1, Stmt.code_braced,
      body.code_norm m.deeper .inside h.2]
  | .ret none _, _ => rfl
  | .ret (some value) _, h => by
    rw [Stmt.norm, optExprNorm, Stmt.code, Stmt.code, value.code_norm m .value h]
  | .expression e _, h => by
    rw [Stmt.norm, Stmt.code, Stmt.code, e.code_norm m .value h]

theorem heritageCode_norm (m : Margin) : ∀ base : Option Expr, OptExprSound .spelled base →
    heritageCode m (optExprNorm base) = heritageCode m base
  | none, _ => rfl
  | some e, h => by
    rw [optExprNorm, heritageCode, heritageCode, e.code_norm m .value h]

/-- An alternative: a condition goes on in the same line, anything else is put in braces. -/
theorem elseCode_norm (m : Margin) : ∀ s : Option Stmt, OptStmtSound .spelled s → elseCode m (elseNorm s) = elseCode m s
  | none, _ => rfl
  | some s, h => by
    cases s with
    | ifElse test consequent alternate s =>
      have hnorm : elseNorm (some (.ifElse test consequent alternate s))
          = some (.ifElse (test.norm .value) consequent.norm.braced (elseNorm alternate) default) := rfl
      rw [hnorm, elseCode, elseCode, test.code_norm m .value h.1, Stmt.code_braced,
        consequent.code_norm m.deeper .inside h.2.1, elseCode_norm m alternate h.2.2]
    | declaration | function | classDecl | block | forLoop | forEach | whileLoop | ret | expression =>
      rw [elseNorm_of_not_isIf rfl, elseCode_of_not_isIf (Stmt.isIf_braced _), elseCode_of_not_isIf rfl,
        Stmt.code_braced, Stmt.code_norm m.deeper .inside _ h]

theorem stmtLines_norm (m : Margin) :
    ∀ ss : List Stmt, StmtsSound .spelled ss → stmtLines m (stmtsNorm ss) = stmtLines m ss
  | [], _ => rfl
  | s :: ss, h => by
    rw [stmtsNorm, stmtLines, stmtLines, s.code_norm m .lines h.1, stmtLines_norm m ss h.2]

/-- Members of a class. Those without a body are left out of the normal form, as they are of the code. -/
theorem memberLines_norm (m : Margin) : ∀ ms : List Member, MembersSound .spelled ms →
    memberLines m (membersNorm ms) = memberLines m ms
  | [], _ => rfl
  | .method _ _ ⟨_, params, _, some ⟨body, _⟩, _⟩ _ _ _ :: ms, h => by
    rw [membersNorm, memberLines, memberLines, bindingCodes_norm m params h.1.2.2.2.1,
      stmtLines_norm m.deeper body h.1.2.2.2.2, memberLines_norm m ms h.2]
    rfl
  | .method _ _ ⟨_, _, _, none, _⟩ _ _ _ :: ms, h => by
    rw [membersNorm, memberLines, memberLines_norm m ms h.2]
  | .field _ _ value _ _ _ :: ms, h => by
    rw [membersNorm, memberLines, memberLines, valueCode_norm m value h.1.2, memberLines_norm m ms h.2]
    rfl

theorem valueCode_norm (m : Margin) : ∀ value : Option Expr, OptExprSound .spelled value →
    valueCode m (optExprNorm value) = valueCode m value
  | none, _ => rfl
  | some e, h => by
    rw [optExprNorm, valueCode, valueCode, e.code_norm m .value h]

end

/-- The code of a program's normal form is the program's code. -/
theorem Program.code_norm (unit : String) {p : Program} (h : p.Sound .spelled) : p.norm.code unit = p.code unit := by
  rw [Program.code, Program.code, Program.norm, stmtLines_norm _ _ h]

/-! ## Compiling what was compiled -/

/-- Without a check, three stages follow one another. -/
theorem compile_unchecked {options : Options} (ha : options.analyze = false) (source : String) :
    compile options source =
      match tokenize source with
      | .error e => .error (.lexical e)
      | .ok ts =>
        match parse ts with
        | .error e => .error (.grammatical e)
        | .ok p =>
          match writeScript options.indent p with
          | .error e => .error e
          | .ok script => .ok ⟨ts, p, script⟩ := by
  simp only [compile, readTokens, readProgram, ha, bind, Except.bind]
  delta Except.mapError
  cases tokenize source with
  | error e => rfl
  | ok ts =>
    dsimp only
    cases parse ts with
    | error e => rfl
    | ok p =>
      dsimp only
      cases writeScript options.indent p <;> rfl

/-- Code that was compiled, without a check, from a program without loops over items and static members is compiled to
itself under the same settings, whatever blanks indent it, unless it is nested too deeply. -/
theorem compile_script_fixed {options : Options} (ha : options.analyze = false)
    (hi : ∀ c ∈ options.indent.toList, isBlank c = true) {source : String} {compiled : Compiled}
    (h : compile options source = .ok compiled) (hplain : compiled.program.plain = true) :
    (∃ pos context, compile options compiled.script = .error (.grammatical (.tooDeep pos context))) ∨
      ∃ again, compile options compiled.script = .ok again ∧ again.script = compiled.script := by
  rw [compile_unchecked ha] at h ⊢
  split at h
  · cases h
  rename_i ts ht
  split at h
  · cases h
  rename_i p hp
  have hsound := parse_spelled ht hp
  rw [writeScript_of_sound hsound] at h
  cases h
  obtain ⟨ts', hts', hfits⟩ := Program.tokenize_code hi hsound
  simp only [hts']
  rcases (Program.meets_norm hsound hplain hfits).cases with ⟨pos, context, c, hread⟩ | ⟨p', c, hread, hbare⟩
  · have hp' : parse ts' = .error (.tooDeep pos context) := by rw [parse, hread]
    exact .inl ⟨pos, context, by rw [hp']⟩
  · have hp' : parse ts' = .ok p' := by rw [parse, hread]
    -- the code of what was read is the code of the normal form, and that is the code it was read from
    have hcode : p'.code options.indent = p.code options.indent := by
      rw [← Program.code_bare, hbare, Program.code_norm options.indent hsound]
    refine .inr ⟨⟨ts', p', p'.code options.indent⟩, ?_, hcode⟩
    simp only [hp', writeScript_of_sound (parse_spelled hts' hp')]

/-- A source whose code differs from it in layout, names and braces. -/
def chained : String :=
  "se (a) mostrar(b.tamanho) senao se (b) (funcao () {})()"

/-- A chain of branches without braces, a name and a property that are exchanged, and a function that is called where it
stands. -/
theorem compile_script_fixed_chain : ∃ compiled again,
    compile { analyze := false, indent := "\t" } chained = .ok compiled ∧ compiled.program.plain = true ∧
    isBlank '\t' = true ∧ compile { analyze := false, indent := "\t" } compiled.script = .ok again ∧
    again.script = compiled.script := by
  let options : Options := { analyze := false, indent := "\t" }
  have hcheck : ((compile options chained).toOption.any fun compiled =>
      compiled.program.plain && (compile options compiled.script).toOption.isSome) = true := by decide +kernel
  obtain ⟨compiled, h, hcheck⟩ := exists_ok_of_any hcheck
  obtain ⟨hplain, hagain⟩ := Bool.and_eq_true_iff.mp hcheck
  have hfixed := @compile_script_fixed options rfl (List.all_eq_true.mp (by decide)) chained compiled h hplain
  rcases hfixed with ⟨pos, context, he⟩ | ⟨again, h', hscript⟩
  -- here the nesting is not too deep
  · simp [Except.toOption, he] at hagain
  · exact ⟨compiled, again, h, hplain, rfl, h', hscript⟩

end Vernacular
