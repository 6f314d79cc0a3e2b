import Vernacular.Proofs.Grammar.Extension
import Vernacular.Proofs.Grammar.Sound
import Vernacular.Proofs.Tree.Nesting

/-!
# How deep expressions of a program stand in one another

Every production opens a level before it goes further in, so with `n` levels to go no expression is read that is higher
than `n`. The one exception is the class of a construction, which may be a construction again without a level for it;
heights do not count it.

With other levels the same tokens give the same program, unless the nesting is too deep.

- `builds_shallowness`: what building adds to heights;
- `parse_nesting`: chains of expressions in a program, and lists of tokens that are nested more deeply.
-/

namespace Vernacular

open Grammar Vernacular.Parser

/-! ## Heights -/

/-- None of the expressions is higher than `n`. -/
def shallowness (n : Nat) : Invariant where
  expr e := Shallow n e.nodes
  stmt s := Shallow n s.nodes

namespace Shallow

variable {n : Nat}

theorem optExpr {o : Option Expr} (h : ∀ e ∈ o, Shallow n e.nodes) : Shallow (n + 1) (optExprNodes o) := by
  cases o with
  | none => exact .nil
  | some e => exact (h e rfl).mono

theorem of_bindings {bs : List Binding} (h : ∀ b ∈ bs, (shallowness n).Binding .everything b) :
    Shallow (n + 1) (bindingsNodes bs) :=
  bindings.mpr fun b hb => optExpr (h b hb).2

theorem of_stmts {ss : List Stmt} (h : ∀ s ∈ ss, Shallow n s.nodes) : Shallow (n + 1) (stmtsNodes ss) :=
  stmts.mpr fun s hs => (h s hs).mono

theorem of_callable {name : Option Ident} {callable : Callable}
    (h : (shallowness n).Callable .everything name callable) : Shallow (n + 1) callable.nodes := by
  obtain ⟨self, params, result, body, span⟩ := callable
  refine append.mpr ⟨of_bindings h.params, ?_⟩
  cases body with
  | none => exact .nil
  | some block =>
    obtain ⟨body, span⟩ := block
    exact of_stmts (h.body _ rfl)

theorem of_member {m : Member} (h : (shallowness n).Member .everything m) : Shallow (n + 1) (membersNodes [m]) := by
  cases m with
  | method name kind callable modifiers decorators span => exact append.mpr ⟨of_callable h.2.2, .nil⟩
  | field name type value modifiers decorators span => exact append.mpr ⟨optExpr h.2, .nil⟩

theorem of_init {init : Option ForInit} (h : ∀ i ∈ init, (shallowness n).Init .everything i) :
    Shallow (n + 1) (optForInitNodes init) := by
  cases init with
  | none => exact .nil
  | some i =>
    have hi : (shallowness n).Init .everything i := h i rfl
    cases i with
    | declaration d =>
      obtain ⟨kind, bs, span⟩ := d
      exact of_bindings hi.2
    | expression e => exact Shallow.mono hi

end Shallow

/-- What stands further in is counted once more, but for the class of a construction. -/
theorem builds_shallowness (n : Nat) : Builds .everything (shallowness n) (shallowness (n + 1)) where
  weaken h := Shallow.mono h
  literal _ := Shallow.cons.mpr ⟨Nat.le_add_left .., .nil⟩
  ident _ := Shallow.cons.mpr ⟨Nat.le_add_left .., .nil⟩
  this := Shallow.cons.mpr ⟨Nat.le_add_left .., .nil⟩
  super := Shallow.cons.mpr ⟨Nat.le_add_left .., .nil⟩
  array h := by
    have hitems := Shallow.exprs.mpr h
    exact Shallow.cons.mpr ⟨Nat.succ_le_succ hitems.exprsHeight_le, hitems.mono⟩
  object h := by
    have hproperties := Shallow.properties.mpr fun p hp => (h p hp).2
    exact Shallow.cons.mpr ⟨Nat.succ_le_succ hproperties.propertiesHeight_le, hproperties.mono⟩
  function _ h := Shallow.cons.mpr ⟨Nat.le_add_left .., .of_callable h⟩
  call hcallee h := by
    have hargs := Shallow.exprs.mpr h
    exact Shallow.cons.mpr ⟨Nat.succ_le_succ hargs.exprsHeight_le, Shallow.append.mpr ⟨hcallee, hargs.mono⟩⟩
  new hcallee h := by
    have hargs := Shallow.exprs.mpr h
    refine Shallow.cons.mpr ⟨?_, Shallow.append.mpr ⟨hcallee, hargs.mono⟩⟩
    exact Nat.max_le.mpr ⟨Shallow.height_le hcallee, Nat.succ_le_succ hargs.exprsHeight_le⟩
  member h _ := Shallow.cons.mpr ⟨Nat.le_add_left .., h⟩
  index hobject hkey :=
    Shallow.cons.mpr ⟨Nat.succ_le_succ (Shallow.height_le hkey), Shallow.append.mpr ⟨hobject, Shallow.mono hkey⟩⟩
  stepped _ h := Shallow.cons.mpr ⟨Nat.le_add_left .., h⟩
  step _ h := Shallow.cons.mpr ⟨Nat.succ_le_succ (Shallow.height_le h), Shallow.mono h⟩
  unary h := Shallow.cons.mpr ⟨Nat.succ_le_succ (Shallow.height_le h), Shallow.mono h⟩
  power hleft hright :=
    Shallow.cons.mpr ⟨Nat.succ_le_succ (Shallow.height_le hright), Shallow.append.mpr ⟨hleft, Shallow.mono hright⟩⟩
  binary hop hleft hright := by
    refine Shallow.cons.mpr ⟨?_, Shallow.append.mpr ⟨hleft, hright⟩⟩
    rw [Expr.height]
    · exact Nat.le_add_left ..
    all_goals simp_all
  assign _ htarget hvalue :=
    Shallow.cons.mpr ⟨Nat.succ_le_succ (Shallow.height_le hvalue), Shallow.append.mpr ⟨htarget, Shallow.mono hvalue⟩⟩
  weakenStmt h := Shallow.mono h
  declaration {d} h := by
    obtain ⟨kind, bs, span⟩ := d
    exact Shallow.of_bindings h.2
  functionDecl _ h := .of_callable h
  classDecl {_ base _ _ _} _ hbase hmembers := by
    refine Shallow.append.mpr ⟨?_, Shallow.members.mpr fun m hm => .of_member (hmembers m hm)⟩
    cases base with
    | none => exact .nil
    | some e => exact (hbase e rfl).2
  block {b} h := by
    obtain ⟨body, span⟩ := b
    exact Shallow.of_stmts h
  ifElse {_ _ alternate _} htest hconsequent halternate := by
    refine Shallow.append.mpr ⟨Shallow.append.mpr ⟨Shallow.mono htest, Shallow.mono hconsequent⟩, ?_⟩
    cases alternate with
    | none => exact .nil
    | some s => exact Shallow.mono (halternate s rfl)
  forLoop hinit htest hupdate hbody := by
    refine Shallow.append.mpr ⟨Shallow.append.mpr ⟨Shallow.append.mpr ⟨.of_init hinit, ?_⟩, ?_⟩, hbody⟩
    · exact .optExpr htest
    · exact .optExpr hupdate
  forEach _ hiterable hbody := Shallow.append.mpr ⟨Shallow.mono hiterable, Shallow.mono hbody⟩
  whileLoop htest hbody := Shallow.append.mpr ⟨Shallow.mono htest, Shallow.mono hbody⟩
  ret h := .optExpr h
  expression h := Shallow.mono h

/-! ## Other levels -/

/-- Two runs over the same tokens, of which the second may find the nesting too deep. -/
def sameTokens : Comparison where
  view := .exact
  near := Eq
  bound := 0
  lenient := True
  merge := @Span.merge_exact
  length := by
    rintro c _ rfl
    exact Nat.le_refl _
  peek := by
    rintro c _ rfl -
    exact .refl _ _
  advance := by
    rintro c _ rfl - -
    rfl
  stop := by
    rintro c _ rfl
    rfl
  second := by
    rintro c _ rfl -
    exact .inl rfl
  updateLine := by
    rintro c _ rfl - -
    rfl
  returnLine := by
    rintro c _ rfl - - -
    rfl

/-- With other levels the same program is read, unless the nesting is too deep. -/
theorem Grammar.statements_levels (n m : Nat) {c d : Cursor} {p : Program} (h : statements (level n) c = .ok p d) :
    statements (level m) c = .ok p d ∨ ∃ pos context d', statements (level m) c = .error (.tooDeep pos context) d' := by
  have hagree := (agree_statements (Inner.Agree.levels (X := sameTokens) trivial n m)).run c c trivial rfl
  rcases hagree with hlost | hfits
  · exact absurd hlost (Nat.not_lt_zero _)
  rw [h] at hfits
  cases hm : statements (level m) c with
  | ok p' d' =>
    rw [hm] at hfits
    obtain ⟨hlike, rfl⟩ := hfits
    obtain rfl : p = p' := hlike.eq_of Program.view_exact
    exact .inl rfl
  | error e d' =>
    rw [hm] at hfits
    obtain ⟨-, pos, context, rfl⟩ := hfits
    exact .inr ⟨pos, context, d', rfl⟩

/-! ## Programs -/

theorem parse_of_statements {ts : List Token} {p : Program} {d : Cursor}
    (h : statements outermost (.ofTokens ts) = .ok p d) : parse ts = .ok p := by
  have h : program (.ofTokens ts) = .ok p d := h
  rw [parse, h]

theorem shallow_of_parse {ts : List Token} {p : Program} (h : parse ts = .ok p) : Shallow maxDepth p.nodes :=
  Shallow.stmts.mpr (parse_upholds builds_shallowness h)

/-- Expressions of a program stand in one another at most `maxDepth` deep, where a step to the class of a construction
does not count; tokens that stand for a program with a longer chain, if more levels are allowed, are nested too
deeply. -/
theorem parse_nesting (ts : List Token) :
    (∀ p, parse ts = .ok p → ∀ e ∈ p.nodes, ∀ es k, Chain (e :: es) k → (e :: es).length ≤ maxDepth + k) ∧
      ∀ n p c, statements (level n) (.ofTokens ts) = .ok p c →
        (∃ e ∈ p.nodes, ∃ es k, Chain (e :: es) k ∧ maxDepth + k < (e :: es).length) →
        ∃ pos context, parse ts = .error (.tooDeep pos context) := by
  have hbound (p : Program) (h : parse ts = .ok p) (e : Expr) (he : e ∈ p.nodes) (es : List Expr) (k : Nat)
      (hchain : Chain (e :: es) k) : (e :: es).length ≤ maxDepth + k := by
    have hheight := shallow_of_parse h e he
    have hlength := hchain.length_le
    omega
  refine ⟨hbound, ?_⟩
  rintro n p c hrun ⟨e, he, es, k, hchain, hlong⟩
  rcases statements_levels n maxDepth hrun with hsame | ⟨pos, context, d, hdeep⟩
  · have := hbound p (parse_of_statements hsame) e he es k hchain
    omega
  · have hdeep : program (.ofTokens ts) = .error (.tooDeep pos context) d := hdeep
    exact ⟨pos, context, by rw [parse, hdeep]⟩

/-- A token of which only the kind matters. -/
def bareToken (k : Kind) : Token := ⟨k, "x", .start, .start⟩

/-- As many tokens of a kind, a name, and the end. -/
def tower (k : Kind) (n : Nat) : List Token := List.replicate n (bareToken k) ++ [bareToken .identifier, bareToken .eof]

/-- A name under as many signs as there may be, and one under more than that. -/
theorem parse_nesting_signs : ∃ p q c, parse (tower (.symbol .minus) 126) = .ok p ∧
    (∀ e ∈ p.nodes, ∀ es k, Chain (e :: es) k → (e :: es).length ≤ maxDepth + k) ∧
    statements (level 200) (.ofTokens (tower (.symbol .minus) 128)) = .ok q c ∧
    (∃ e ∈ q.nodes, ∃ es k, Chain (e :: es) k ∧ maxDepth + k < (e :: es).length) ∧
    ∃ pos context, parse (tower (.symbol .minus) 128) = .error (.tooDeep pos context) := by
  have hread : ((parse (tower (.symbol .minus) 126)).toOption.any fun _ => true) = true := by decide +kernel
  have hhigh : (((statements (level 200)).run' (.ofTokens (tower (.symbol .minus) 128))).filter fun q =>
      q.nodes.any fun e => decide (maxDepth < e.height)).isSome = true := by decide +kernel
  obtain ⟨p, hp, -⟩ := exists_ok_of_any hread
  obtain ⟨q, hhigh⟩ := Option.isSome_iff_exists.mp hhigh
  obtain ⟨hq, hnodes⟩ := Option.filter_eq_some_iff.mp hhigh
  obtain ⟨c, hq⟩ := ok_of_run' hq
  obtain ⟨e, he, hheight⟩ := List.any_eq_true.mp hnodes
  obtain ⟨es, k, hchain, hlength⟩ := e.attains_height
  have hlong : maxDepth + k < (e :: es).length := by
    rw [hlength]
    exact Nat.add_lt_add_right (of_decide_eq_true hheight) k
  refine ⟨p, q, c, hp, (parse_nesting _).1 p hp, hq, ⟨e, he, es, k, hchain, hlong⟩, ?_⟩
  exact (parse_nesting _).2 200 q c hq ⟨e, he, es, k, hchain, hlong⟩

/-- The class is a construction, and so on for `n` steps. -/
def Expr.constructs : Nat → Expr → Bool
  | 0, _ => true
  | n + 1, .new callee _ _ => constructs n callee
  | _, _ => false

theorem Expr.exists_chain_of_constructs {n : Nat} {e : Expr} (h : Expr.constructs n e = true) :
    ∃ es, Chain (e :: es) n ∧ (e :: es).length = n + 1 := by
  induction n generalizing e with
  | zero => exact ⟨[], .single e, rfl⟩
  | succ n ih =>
    cases e with
    | new callee args s =>
      obtain ⟨es, hchain, hlength⟩ := ih h
      exact ⟨callee :: es, .constructs hchain, by rw [List.length_cons, hlength]⟩
    | _ => cases h

/-- Steps to the class of a construction do count where a chain has only those: nothing limits them. -/
theorem parse_constructions_unlimited : ∃ p, parse (tower (.keyword .novo) 200) = .ok p ∧
    ∃ e ∈ p.nodes, ∃ es k, Chain (e :: es) k ∧ (e :: es).length = 201 ∧ maxDepth < (e :: es).length := by
  have hcheck : ((parse (tower (.keyword .novo) 200)).toOption.any fun p =>
      p.nodes.any (Expr.constructs 200)) = true := by decide +kernel
  obtain ⟨p, hp, hnodes⟩ := exists_ok_of_any hcheck
  obtain ⟨e, he, hconstructs⟩ := List.any_eq_true.mp hnodes
  obtain ⟨es, hchain, hlength⟩ := Expr.exists_chain_of_constructs hconstructs
  refine ⟨p, hp, e, he, es, 200, hchain, hlength, ?_⟩
  rw [hlength]
  decide

end Vernacular
