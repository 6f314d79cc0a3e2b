import Vernacular.Proofs.Script.RoundTrip
import Vernacular.Proofs.Script.Strict
import Vernacular.Proofs.Script.Total

/-!
# Generated code obeys the stricter grammar

By induction on the tree, the marks of an expression's code are derived in the expression's own category
(`Expr.category`). An operand without parentheses is in a category that contains the one of its place, since the test
for parentheses fails (`Derives.asLeft`, `Derives.asRight`, `Derives.asMember` and others); with them it is a primary
expression.

- `Expr.derives`, `Stmt.derives`: the induction;
- `Expr.render_derives`: the text of any expression that has one;
- `Expr.render_numbered`: why functions have to be indented by blanks.
-/

namespace Vernacular

open Grammar

variable {ms : List Mark} {e : Expr}

/-! ## Operands -/

/-- Categories that are reached step by step. -/
theorem Derives.reached {n : Nat} {c c' : Category} (h : Derives c ms e) (hc : c' ∈ c.reach n) : Derives c' ms e := by
  induction n generalizing c with
  | zero =>
    obtain rfl := List.mem_singleton.mp hc
    exact h
  | succ n ih =>
    rcases List.mem_cons.mp hc with rfl | hc
    · exact h
    · obtain ⟨c'', hwider, hreach⟩ := List.mem_flatMap.mp hc
      exact ih (.widen h hwider) hreach

/-- What is derived in a category is derived in those that contain it. -/
theorem Derives.widened {c c' : Category} (h : Derives c ms e) (hc : c' ∈ c.above) : Derives c' ms e := h.reached hc

/-- The category in which the code of an expression is derived. A path of properties is a call if there is one in it. -/
def Expr.category : Expr → Category
  | .literal .. | .this .. | .super .. | .array .. | .object .. | .function .. => .primary
  | .ident .. | .new .. => .member
  | .member o _ optional _ | .index o _ optional _ => if optional || o.parensUnderNew then .call else .member
  | .call .. => .call
  | .update .. => .update
  | .unary .. => .unary
  | .binary op .. => op.production.whole
  | .assign .. => .assignment

/-- What binds as tightly as calls do is a call or tighter. -/
theorem Expr.category_of_callPrecedence (h : callPrecedence ≤ e.precedence) :
    e.category ∈ [Category.primary, .member, .call] := by
  cases e with
  | literal | ident | this | super | array | object | function | call | new => simp [category]
  | member o _ optional _ | index o _ optional _ =>
    show (if optional || o.parensUnderNew then Category.call else .member) ∈ _
    split <;> decide
  | update op before _ _ => cases before <;> simp [precedence, callPrecedence] at h
  | unary | assign => simp [precedence, callPrecedence, unaryPrecedence] at h
  | binary op _ _ _ => exact absurd op.precedence_lt (Nat.not_lt.mpr h)

/-- Every operator between two operands binds more loosely than one in front. -/
theorem BinaryOp.precedence_lt_unaryPrecedence (op : BinaryOp) : op.precedence < unaryPrecedence := by
  cases op <;> decide

/-- An expression binds more tightly than an operator in front of its operand, or it is one with an operator. -/
theorem Expr.binds_cases (e : Expr) : unaryPrecedence < e.precedence ∨ (∃ op x s, e = .unary op x s) ∨
    (∃ op l r s, e = .binary op l r s) ∨ ∃ op x v s, e = .assign op x v s := by
  cases e with
  | unary op x s => exact .inr (.inl ⟨op, x, s, rfl⟩)
  | binary op l r s => exact .inr (.inr (.inl ⟨op, l, r, s, rfl⟩))
  | assign op x v s => exact .inr (.inr (.inr ⟨op, x, v, s, rfl⟩))
  | update _ before _ _ => cases before <;> exact .inl (by simp [precedence, unaryPrecedence])
  | _ => exact .inl (by simp [precedence, unaryPrecedence, callPrecedence])

/-- A stepped variable may be a left operand, an operator with its operand may be a right one, and an operation may
stand where an assignment may. -/
theorem BinaryOp.mem_above (op : BinaryOp) : op.production.left ∈ Category.update.above ∧
    op.production.right ∈ Category.unary.above ∧ .assignment ∈ op.production.whole.above := by
  cases op <;> decide

/-- Between two operators: an operand without parentheses is in a category that its place contains. -/
theorem BinaryOp.mem_above_of_not_parens : ∀ op ∈ binaryOps, ∀ op' ∈ binaryOps,
    ((Expr.binary op' anyOperand anyOperand default).parensOnLeft op = false →
      op.production.left ∈ op'.production.whole.above) ∧
    ((Expr.binary op' anyOperand anyOperand default).parensOnRight op = false →
      op.production.right ∈ op'.production.whole.above) := by
  decide

namespace Derives

variable {t : Expr}

/-- What binds as tightly as calls do may be called. -/
theorem asCall (h : Derives e.category ms t) (he : callPrecedence ≤ e.precedence) : Derives .call ms t := by
  have hall : ∀ c ∈ [Category.primary, .member, .call], .call ∈ c.above := by decide
  exact h.widened (hall _ (Expr.category_of_callPrecedence he))

/-- What is constructed without parentheses. -/
theorem asMember (h : Derives e.category ms t) (he : e.parensUnderNew = false) : Derives .member ms t := by
  cases e with
  | literal | this | super | array | object | function => exact h.widened (show _ ∈ Category.primary.above by decide)
  | ident | new => exact h
  | member o _ optional _ | index o _ optional _ =>
    have hcategory : (if optional || o.parensUnderNew then Category.call else .member) = .member := by
      rw [show (optional || o.parensUnderNew) = false from he, if_neg Bool.false_ne_true]
    exact hcategory ▸ h
  | call | unary | assign => cases he
  | update op before _ _ => cases before <;> cases he
  | binary op _ _ _ => exact absurd op.precedence_lt (of_decide_eq_false he)

/-- What binds more tightly than an operator in front of its operand. -/
theorem asUpdate (h : Derives e.category ms t) (he : unaryPrecedence < e.precedence) : Derives .update ms t := by
  cases e with
  | update => exact h
  | unary | assign => simp [Expr.precedence, unaryPrecedence] at he
  | binary op _ _ _ => exact absurd op.precedence_lt_unaryPrecedence (Nat.lt_asymm he)
  | _ => exact (h.asCall (by simp [Expr.precedence, callPrecedence])).widened (by decide)

/-- What binds as tightly as operators in front of their operand may follow one. -/
theorem asUnary (h : Derives e.category ms t) (he : unaryPrecedence ≤ e.precedence) : Derives .unary ms t := by
  rcases e.binds_cases with htight | ⟨op, x, s, rfl⟩ | ⟨op, l, r, s, rfl⟩ | ⟨op, x, v, s, rfl⟩
  · exact (h.asUpdate htight).widened (by decide)
  · exact h
  · exact absurd op.precedence_lt_unaryPrecedence (Nat.not_lt.mpr he)
  · exact absurd he (show ¬14 ≤ 2 by decide)

/-- Every expression may stand where an assignment may. -/
theorem asAssignment (h : Derives e.category ms t) : Derives .assignment ms t := by
  rcases e.binds_cases with htight | ⟨op, x, s, rfl⟩ | ⟨op, l, r, s, rfl⟩ | ⟨op, x, v, s, rfl⟩
  · exact (h.asUpdate htight).widened (by decide)
  · exact h.widened (show _ ∈ Category.unary.above by decide)
  · exact h.widened op.mem_above.2.2
  · exact h

/-- The left operand of an operator, without parentheses. -/
theorem asLeft (h : Derives e.category ms t) {op : BinaryOp} (he : e.parensOnLeft op = false) :
    Derives op.production.left ms t := by
  rcases e.binds_cases with htight | ⟨op', x, s, rfl⟩ | ⟨op', l, r, s, rfl⟩ | ⟨op', x, v, s, rfl⟩
  · exact (h.asUpdate htight).widened op.mem_above.1
  · refine h.widened (show _ ∈ Category.unary.above from ?_)
    cases op with
    | exponent => cases he
    | _ => decide
  · exact h.widened ((BinaryOp.mem_above_of_not_parens op op.mem_binaryOps op' op'.mem_binaryOps).1 he)
  · cases op <;> cases he

/-- The right operand of an operator, without parentheses. -/
theorem asRight (h : Derives e.category ms t) {op : BinaryOp} (he : e.parensOnRight op = false) :
    Derives op.production.right ms t := by
  rcases e.binds_cases with htight | ⟨op', x, s, rfl⟩ | ⟨op', l, r, s, rfl⟩ | ⟨op', x, v, s, rfl⟩
  · exact (h.asUnary (Nat.le_of_lt htight)).widened op.mem_above.2.1
  · exact h.widened op.mem_above.2.1
  · exact h.widened ((BinaryOp.mem_above_of_not_parens op op.mem_binaryOps op' op'.mem_binaryOps).2 he)
  · cases op <;> cases he

/-- In parentheses an expression stands wherever a primary one does. -/
theorem inParens (h : Derives e.category ms t) {b : Bool} {c : Category} (hb : b = false → Derives c ms t)
    (hc : c ∈ Category.primary.above) : Derives c (inParens b ms) t := by
  cases b with
  | true => exact (Derives.parens h.asAssignment).widened hc
  | false => exact hb rfl

/-- What is called. -/
theorem called (h : Derives e.category ms t) :
    Derives .call (Vernacular.inParens (e.precedence < callPrecedence) ms) t :=
  h.inParens (fun hb => h.asCall (Nat.le_of_not_lt (of_decide_eq_false hb))) (by decide)

/-- What has a property: a number is in parentheses too. -/
theorem beforeProperty (h : Derives e.category ms t) :
    Derives .call (Vernacular.inParens e.parensBeforeProperty ms) t := by
  refine h.inParens (fun hb => h.asCall ?_) (by decide)
  unfold Expr.parensBeforeProperty at hb
  split at hb
  · cases hb
  · exact Nat.le_of_not_lt (of_decide_eq_false hb)

/-- What has a property and is constructed with it. -/
theorem beforePropertyUnderNew (h : Derives e.category ms t) (he : e.parensUnderNew = false) :
    Derives .member (Vernacular.inParens e.parensBeforeProperty ms) t :=
  h.inParens (fun _ => h.asMember he) (by decide)

end Derives

theorem PropertyName.usedMarks_renamed (f : String → String) (name : PropertyName) :
    (name.renamed f).usedMarks id = name.usedMarks f := by
  cases name <;> rfl

/-! ## One step of the induction on expressions -/

section Steps

variable {t : Expr}

/-- A name is derived as a name, or as a path if it was exchanged for one. -/
theorem derives_ident {name : String} (h : Lexicon.spelled.ident name) :
    Derives .member (pathMarks (identifierName name)) (.ofPath (identifierName name)) := by
  have hword := (Derives.ident (ofWord_identifierName h)).widened (show Category.member ∈ _ by decide)
  rcases path_cases (identifierName name) with ⟨hmarks, hpath⟩ | ⟨p, hmarks, hpath⟩
  · rw [hmarks, hpath]
    exact hword
  · rw [hmarks, hpath]
    exact hword.property (.plain p)

/-- A property. With a link that may be skipped, or behind a call, it is a call. -/
theorem derives_member (h : Derives e.category ms t) (name : PropertyName) (f : String → String)
    (optional : Bool) (s : Span) : Derives (Expr.member e name optional s).category
      (inParens e.parensBeforeProperty ms ++ Mark.symbol (if optional then .optionalChain else .dot) ::
        name.usedMarks f)
      (.member t (name.renamed f) optional default) := by
  rw [← PropertyName.usedMarks_renamed]
  show Derives (if optional || e.parensUnderNew then Category.call else .member) _ _
  split
  · exact h.beforeProperty.propertyOfCall _ optional
  · rename_i hnew
    obtain ⟨rfl, he⟩ := Bool.or_eq_false_iff.mp (Bool.eq_false_iff.mpr hnew)
    exact (h.beforePropertyUnderNew he).property _

/-- An item in brackets. -/
theorem derives_index (h : Derives e.category ms t) {k u : Expr} {ks : List Mark} (hk : Derives .assignment ks u)
    (optional : Bool) (s : Span) :
    Derives (Expr.index e k optional s).category
      (inParens e.parensBeforeProperty ms ++ (if optional then [Mark.symbol .optionalChain] else [])
        ++ Mark.symbol .leftBracket :: ks ++ [Mark.symbol .rightBracket])
      (.index t u optional default) := by
  show Derives (if optional || e.parensUnderNew then Category.call else .member) _ _
  split
  · exact h.beforeProperty.itemOfCall optional hk
  · rename_i hnew
    obtain ⟨rfl, he⟩ := Bool.or_eq_false_iff.mp (Bool.eq_false_iff.mpr hnew)
    rw [if_neg Bool.false_ne_true, List.append_nil]
    exact (h.beforePropertyUnderNew he).item hk

/-- An operator between two operands. Where an operand has no parentheses, its category is one that its place allows. -/
theorem derives_binary (op : BinaryOp) (h : Derives e.category ms t) {r u : Expr} {rs : List Mark}
    (hr : Derives r.category rs u) :
    Derives op.production.whole (inParens (e.parensOnLeft op) ms ++ op.mark :: inParens (r.parensOnRight op) rs)
      (.binary op t u default) := by
  have hprimary : op.production.left ∈ Category.primary.above ∧ op.production.right ∈ Category.primary.above := by
    cases op <;> decide
  exact (h.inParens h.asLeft hprimary.1).binary op (hr.inParens hr.asRight hprimary.2)

end Steps

/-! ## Trees -/

/-- The marks are derived as the statement: as it stands, or in the braces that it gets. -/
def Place.Derived (place : Place) (ms : List Mark) (s : Stmt) : Prop :=
  match place with
  | .lines => DerivesStmt ms s
  | .inside => ∃ ss, s.braced = .block ⟨ss, default⟩ ∧ DerivesBody ms ss

/-- A statement that is put in braces where it has to be is derived in every place. -/
theorem DerivesStmt.derived {s : Stmt} (h : DerivesStmt ms s) (hs : s.braced = .block ⟨[s], default⟩) (place : Place) :
    place.Derived ms s := by
  cases place with
  | lines => exact h
  | inside => exact ⟨[s], hs, by simpa using DerivesBody.cons h .nil⟩

theorem Place.Derived.block {s : Stmt} (h : Place.inside.Derived ms s) : DerivesStmt (inBraces ms) s.braced := by
  obtain ⟨ss, hss, hbody⟩ := h
  rw [hss]
  exact .block hbody

/-- A line that would begin like a block or a function declaration is in parentheses. -/
theorem derives_expressionStmt (h : Derives .assignment ms e) :
    DerivesStmt (inParens (opensAmbiguously ms) ms ++ [Mark.symbol .semicolon]) (.expression e default) := by
  cases hopens : opensAmbiguously ms with
  | true => exact .expression ((Derives.parens h).widened (by decide)) rfl
  | false => exact .expression h hopens

mutual

/-- The marks of an expression are derived as its normal form, in its own category. By induction on the tree: parts
in parentheses are primary expressions, and for parts without them the failed test for parentheses says that their
category is one that the place allows. -/
theorem Expr.derives (role : Role) : ∀ e : Expr, e.Shown .spelled True → Derives e.category (e.marks role) (e.norm role)
  | .literal value s, _ => by
    rw [Expr.marks, Expr.norm]
    exact .literal value
  | .ident name s, h => by
    rw [Expr.marks, Expr.norm]
    exact derives_ident h
  | .this s, _ => by
    rw [Expr.marks, Expr.norm]
    exact .this
  | .super s, _ => by
    rw [Expr.marks, Expr.norm]
    exact .super
  | .array items s, h => by
    rw [Expr.marks, Expr.norm]
    exact .array (derivesAll items h)
  | .object properties s, h => by
    rw [Expr.marks, Expr.norm]
    exact .object (derivesProperties properties h)
  | .function ⟨name, params, result, some ⟨body, s⟩, s'⟩, h => by
    rw [Expr.marks, Expr.norm, Callable.norm, optBlockNorm, bodyMarks]
    have hname : ∀ n ∈ name.map Ident.name, Kind.ofWord n = .identifier := by
      intro n hn
      obtain ⟨id, hid, rfl⟩ := Option.map_eq_some_iff.mp hn
      exact ofWord_of_bound (h.2.1 id hid)
    have hfunction := Derives.function hname (derivesBindings params h.2.2.1) (derivesBody body h.2.2.2)
    rw [Option.map_map, Option.map_map] at hfunction
    exact hfunction
  | .function ⟨_, _, _, none, _⟩, h => nomatch h.1 trivial
  | .unary op operand s, h => by
    rw [Expr.marks, Expr.norm]
    have hoperand := operand.derives .value h
    -- without parentheses the operand binds as tightly as the operator
    refine .unary op (hoperand.inParens (fun hb => hoperand.asUnary ?_) (by decide))
    exact Nat.le_of_not_lt (of_decide_eq_false hb)
  | .update op before target s, h => by
    rw [Expr.marks, Expr.norm]
    have htarget := (target.derives .value h.2).asCall (Expr.precedence_of_isAssignable (h.1 trivial))
    cases before with
    | true => exact .stepBefore op htarget (Expr.isAssignable_norm (h.1 trivial))
    | false => exact .stepAfter op htarget (Expr.isAssignable_norm (h.1 trivial))
  | .binary op left right s, h => by
    rw [Expr.marks, Expr.norm]
    exact derives_binary op (left.derives .value h.1) (right.derives .value h.2)
  | .assign op target value s, h => by
    rw [Expr.marks, Expr.norm]
    have htarget := (target.derives .value h.2.1).asCall (Expr.precedence_of_isAssignable (h.1 trivial))
    exact .assign op htarget (Expr.isAssignable_norm (h.1 trivial)) (value.derives .value h.2.2).asAssignment
  | .call callee args optional s, h => by
    rw [Expr.marks, Expr.norm]
    exact .call optional (callee.derives .callee h.1).called (derivesAll args h.2)
  | .new callee args s, h => by
    rw [Expr.marks, Expr.norm]
    have hcallee := callee.derives .value h.1
    exact .new (hcallee.inParens hcallee.asMember (by decide)) (derivesAll args h.2)
  | .member object name optional s, h => by
    rw [Expr.marks, Expr.norm]
    exact derives_member (object.derives .value h.1) name role.rename optional s
  | .index object key optional s, h => by
    rw [Expr.marks, Expr.norm]
    exact derives_index (object.derives .value h.1) (key.derives .value h.2).asAssignment optional s

/-- Expressions in a row. -/
theorem derivesAll : ∀ es : List Expr, ExprsShown .spelled True es → DerivesAll (exprsMarks es) (exprsNorm es)
  | [], _ => .nil
  | e :: es, h => .cons (e.derives .value h.1).asAssignment (derivesAll es h.2)

theorem derivesProperties : ∀ ps : List Property, PropertiesShown .spelled True ps →
    DerivesProperties (propertiesMarks ps) (propertiesNorm ps)
  | [], _ => .nil
  | ⟨key, value, _⟩ :: ps, h => .cons key (value.derives .value h.1.2).asAssignment (derivesProperties ps h.2)

/-- A value, a part of a loop's header, or the base of a class. -/
theorem derivesOptional : ∀ e : Option Expr, OptExprShown .spelled True e →
    DerivesOptional [.symbol .assign] (valueMarks e) (optExprNorm e) ∧
    DerivesOptional [] (clauseMarks e) (optExprNorm e) ∧
      DerivesOptional [.word "extends"] (heritageMarks e) (optExprNorm e)
  | none, _ => ⟨.none, .none, .none⟩
  | some e, h =>
    have he := (e.derives .value h).asAssignment
    ⟨.some he, .some he, .some he⟩

/-- Bindings with their values. -/
theorem derivesBindings : ∀ bs : List Binding, BindingsShown .spelled True bs →
    DerivesBindings (bindingsMarks bs) (bindingsNorm bs)
  | [], _ => .nil
  | ⟨_, _, value, _⟩ :: bs, h => .cons (ofWord_of_bound h.1.1) (derivesOptional value h.1.2).1 (derivesBindings bs h.2)

/-- A declaration without its semicolon. -/
theorem derivesDeclaration : ∀ d : Declaration, d.Shown .spelled True → DerivesDeclaration (declarationMarks d) d.norm
  | ⟨_, [], _⟩, h => absurd rfl (h.1 trivial)
  | ⟨kind, ⟨id, type, value, s⟩ :: bs, _⟩, h => by
    rw [declarationMarks, Declaration.norm]
    exact .bindings kind (List.cons_ne_nil _ _) (derivesBindings (⟨id, type, value, s⟩ :: bs) h.2)

theorem derivesInit : ∀ init : Option ForInit, OptForInitShown .spelled True init →
    DerivesInit (initMarks init) (optForInitNorm init)
  | none, _ => .none
  | some (.declaration d), h => .declaration (derivesDeclaration d h)
  | some (.expression e), h => .expression (e.derives .value h).asAssignment

/-- The marks of a statement are derived as its normal form. By induction on the tree, with `Expr.derives` for the
expressions. -/
theorem Stmt.derives (place : Place) : ∀ s : Stmt, s.Shown .spelled True → place.Derived (s.marks place) s.norm
  | .declaration d, h => by
    rw [Stmt.marks, Stmt.norm]
    exact (DerivesStmt.declaration (derivesDeclaration d h)).derived rfl place
  | .function ⟨some id, params, result, some ⟨body, s⟩, s'⟩, h => by
    rw [Stmt.marks, Stmt.norm, Callable.norm, optBlockNorm, bodyMarks]
    have hname : Kind.ofWord id.name = .identifier := ofWord_of_bound (h.2.1 id rfl)
    exact (DerivesStmt.function hname (derivesBindings params h.2.2.1) (derivesBody body h.2.2.2)).derived rfl place
  | .function ⟨none, _, _, _, _⟩, h => nomatch (h.1 trivial).1
  | .function ⟨some _, _, _, none, _⟩, h => nomatch (h.1 trivial).2
  | .classDecl name base interfaces members s, h => by
    rw [Stmt.marks, Stmt.norm]
    exact (DerivesStmt.classDecl (ofWord_of_bound h.1) (derivesOptional base h.2.1).2.2
      (derivesMembers members h.2.2)).derived rfl place
  | .block ⟨body, s⟩, h => by
    cases place with
    | lines =>
      rw [Stmt.marks, Stmt.norm]
      exact DerivesStmt.block (derivesBody body h)
    | inside =>
      rw [Stmt.marks, Stmt.norm]
      exact ⟨_, rfl, derivesBody body h⟩
  | .ifElse test consequent alternate s, h => by
    rw [Stmt.marks, Stmt.norm]
    exact (DerivesStmt.ifElse (test.derives .value h.1).asAssignment (consequent.derives .inside h.2.1).block
      (derivesElse alternate h.2.2)).derived rfl place
  | .forLoop init test update body s, h => by
    rw [Stmt.marks, Stmt.norm]
    exact (DerivesStmt.forLoop (derivesInit init h.1) (derivesOptional test h.2.1).2.1
      (derivesOptional update h.2.2.1).2.1 (body.derives .inside h.2.2.2).block).derived rfl place
  | .forEach kind id type iterable body s, h => by
    rw [Stmt.marks, Stmt.norm]
    exact (DerivesStmt.forEach kind (ofWord_of_bound h.1) (iterable.derives .value h.2.1).asAssignment
      (body.derives .inside h.2.2).block).derived rfl place
  | .whileLoop test body s, h => by
    rw [Stmt.marks, Stmt.norm]
    have hloop := DerivesStmt.whileLoop (test.derives .value h.1).asAssignment (body.derives .inside h.2).block
    exact hloop.derived rfl place
  | .ret none s, _ => by
    rw [Stmt.marks, Stmt.norm]
    exact DerivesStmt.ret.derived rfl place
  | .ret (some value) s, h => by
    rw [Stmt.marks, Stmt.norm]
    exact (DerivesStmt.retValue (value.derives .value h).asAssignment).derived rfl place
  | .expression e s, h => by
    rw [Stmt.marks, Stmt.norm]
    exact (derives_expressionStmt (e.derives .value h).asAssignment).derived rfl place

/-- An alternative: a condition that goes on in the same line, or a block. -/
theorem derivesElse : ∀ s : Option Stmt, OptStmtShown .spelled True s → DerivesElse (elseMarks s) (elseNorm s)
  | none, _ => .none
  | some s, h => by
    rw [elseMarks, elseNorm, Stmt.asElse, s.isIf_norm]
    cases s.isIf with
    | true => exact .some (s.derives .lines h)
    | false => exact .some (s.derives .inside h).block

/-- Statements in a row. -/
theorem derivesBody : ∀ ss : List Stmt, StmtsShown .spelled True ss → DerivesBody (stmtsMarks ss) (stmtsNorm ss)
  | [], _ => .nil
  | s :: ss, h => by
    rw [stmtsMarks, stmtsNorm]
    exact .cons (s.derives .lines h.1) (derivesBody ss h.2)

/-- Members of a class. -/
theorem derivesMembers : ∀ ms : List Member, MembersShown .spelled True ms →
    DerivesMembers (membersMarks ms) (membersNorm ms)
  | [], _ => .nil
  | .method name kind ⟨_, params, _, some ⟨body, _⟩, _⟩ modifiers _ _ :: ms, h => by
    rw [membersMarks, membersNorm]
    exact .method name kind modifiers.shown (derivesBindings params h.1.2.1) (derivesBody body h.1.2.2)
      (derivesMembers ms h.2)
  | .method _ _ ⟨_, _, _, none, _⟩ _ _ _ :: ms, h => by
    rw [membersMarks, membersNorm]
    exact derivesMembers ms h.2
  | .field name _ value modifiers _ _ :: ms, h => by
    rw [membersMarks, membersNorm]
    exact .field name modifiers.shown (derivesOptional value h.1.2).1 (derivesMembers ms h.2)

end

/-! ## Whole expressions -/

/-- **Generated expressions obey the stricter grammar.** Whatever the shape of the tree, if its names and literals can
be spelled and it has a text, then the text has tokens, and they are derived as the tree that generated code stands for.
Only functions show the margin, which must then be made of blanks. -/
theorem Expr.render_derives {e : Expr} (h : e.Shown .spelled False) {margin : Margin}
    (hm : margin.Blank ∨ e.functionFree = true) {role : Role} {tally tally' : Tally} {text : String}
    (hrun : e.render margin role tally = .ok text tally') :
    ∃ ts ms, tokenize text = .ok ts ∧ Fits none ts (ms ++ [Mark.eof]) ∧ Derives .assignment ms (e.norm role) := by
  obtain ⟨hkept, rfl⟩ := e.eq_code_of_render h hrun
  have hderives := (e.derives role hkept).asAssignment
  rcases hm with hm | hfree
  · obtain ⟨ts, hts, hfits⟩ := e.tokenize_shown hm role hkept
    exact ⟨ts, _, hts, hfits, hderives⟩
  · have hblank : (⟨"", 0⟩ : Margin).Blank := by simp [Margin.Blank]
    obtain ⟨ts, hts, hfits⟩ := e.tokenize_shown hblank role hkept
    rw [e.code_margin margin ⟨"", 0⟩ role hfree]
    exact ⟨ts, _, hts, hfits, hderives⟩

/-- A conjunction beside `??`, a base with an operator in front of it, and the construction of a link that may be
skipped, in a function that is called at once. -/
def sampleOperators : Expr :=
  let power := Expr.binary .exponent (.unary .negate (.ident "b" default) default) (.ident "c" default) default
  let link := Expr.member (.call (.ident "f" default) [] false default) (.plain "x") true default
  let value := Expr.binary .nullish (.binary .and (.ident "a" default) power default) (.new link [] default) default
  .call (.function ⟨none, [], none, some ⟨[.ret (some value) default], default⟩, default⟩) [] false default

/-- Its code, with a margin of one unit. -/
def operatorsCode : String :=
  String.intercalate "\n" [r"function () {", "    return (a && (-b) ** c) ?? new (f()?.x)();", r"  }()"]

theorem Expr.render_derives_operators : sampleOperators.Shown .spelled False ∧ (⟨"  ", 1⟩ : Margin).Blank ∧
    ∃ tally ts ms, sampleOperators.render ⟨"  ", 1⟩ .value .zero = .ok operatorsCode tally ∧
      tokenize operatorsCode = .ok ts ∧
      Fits none ts (ms ++ [Mark.eof]) ∧ Derives .assignment ms (sampleOperators.norm .value) := by
  have hname {s : String} (hk : Kind.ofWord s ∈ identKinds) (hs : isWordText s.toList = true) :
      Lexicon.spelled.ident s :=
    ⟨.ofWord s, hk, isLexeme_word hs⟩
  have hx : Lexicon.spelled.word "x" := ⟨_, Kind.isWord_ofWord _, isLexeme_word rfl⟩
  have ha : Lexicon.spelled.ident "a" := hname (by decide) rfl
  have hb : Lexicon.spelled.ident "b" := hname (by decide) rfl
  have hc : Lexicon.spelled.ident "c" := hname (by decide) rfl
  have hf : Lexicon.spelled.ident "f" := hname (by decide) rfl
  have hshown : sampleOperators.Shown .spelled False :=
    ⟨⟨fun _ => rfl, by simp, trivial, ⟨⟨ha, hb, hc⟩, ⟨⟨hf, trivial⟩, hx⟩, trivial⟩, trivial⟩, trivial⟩
  have hblank : (⟨"  ", 1⟩ : Margin).Blank := by simp [Margin.Blank, isBlank]
  have htext : (sampleOperators.render ⟨"  ", 1⟩ .value).run' .zero = some operatorsCode := by decide
  obtain ⟨tally, hrun⟩ := ok_of_run' htext
  obtain ⟨ts, ms, hts, hfits, hderives⟩ := Expr.render_derives hshown (.inl hblank) hrun
  exact ⟨hshown, hblank, tally, ts, ms, hrun, hts, hfits, hderives⟩

/-- A function with a body that is a name. -/
def sampleFunction : Expr :=
  .function ⟨none, [], none, some ⟨[.expression (.ident "x" default) default], default⟩, default⟩

/-- In no derivation of the function does a number follow its opening brace. -/
theorem sampleFunction_marks {c : Category} {ms : List Mark} (h : Derives c ms sampleFunction) (more : List Mark)
    (ks : List Kind) : (ms ++ more).map Mark.kind ≠
      .keyword .funcao :: .symbol .leftParen :: .symbol .rightParen :: .symbol .leftBrace :: .number :: ks := by
  rcases h.bare with ⟨pss, body, hps, hbody, rfl⟩ | ⟨inner, rfl, -⟩
  -- the body is one statement, so what follows the brace is the name or a parenthesis
  · cases hps
    cases hbody with | cons hstmt hrest => ?_
    cases hrest
    cases hstmt with | expression hname _ => ?_
    have hx : (Mark.word "x").kind ≠ .number := by decide
    rcases hname.bare with rfl | ⟨inner, rfl, -⟩
    · simp [callableMarks, inParens, inBraces, commaMarks, hx]
    · simp [callableMarks, inParens, inBraces, commaMarks, Mark.symbol]
  · simp [inParens, Mark.symbol]

/-- Indented by something else than blanks, the text of a function is no code for it. -/
theorem Expr.render_numbered : sampleFunction.Shown .spelled False ∧
    ∃ tally text, sampleFunction.render ⟨"1 ", 0⟩ .value .zero = .ok text tally ∧
      text = String.intercalate "\n" [r"function () {", "1 x;", r"}"] ∧
      ¬∃ ts ms, tokenize text = .ok ts ∧ Fits none ts (ms ++ [Mark.eof]) ∧
        Derives .assignment ms (sampleFunction.norm .value) := by
  have hx : Lexicon.spelled.ident "x" := ⟨.ofWord "x", by decide, isLexeme_word rfl⟩
  have hshown : sampleFunction.Shown .spelled False := ⟨fun _ => rfl, by simp, trivial, hx, trivial⟩
  have htext : (sampleFunction.render ⟨"1 ", 0⟩ .value).run' .zero
      = some (String.intercalate "\n" [r"function () {", "1 x;", r"}"]) := by decide
  obtain ⟨tally, hrun⟩ := ok_of_run' htext
  refine ⟨hshown, tally, _, hrun, rfl, ?_⟩
  rintro ⟨ts, ms, hts, hfits, hderives⟩
  have hscan : (tokenize (String.intercalate "\n" [r"function () {", "1 x;", r"}"])).toOption.map (·.map Token.kind)
      = some [.keyword .funcao, .symbol .leftParen, .symbol .rightParen, .symbol .leftBrace, .number, .identifier,
          .symbol .semicolon, .symbol .rightBrace, .eof] := by decide +kernel
  rw [hts] at hscan
  have hkinds := congrArg (List.map Prod.fst) hfits.kinds_texts
  rw [List.map_map, List.map_map] at hkinds
  exact sampleFunction_marks hderives _ _ (hkinds.symm.trans (Option.some.inj hscan))

end Vernacular
