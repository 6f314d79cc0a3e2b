import Vernacular.Proofs.Grammar.Whole
import Vernacular.Proofs.Tree.Normal

/-!
# Headers with and without parentheses

The header of a condition or a loop may stand in parentheses. What is read inside them is read in the same way without
them, since an expression stops before the parenthesis that closes the header where it stops before the brace of the
body.

- `Header`: the headers that can do without parentheses;
- `Header.meets_statement`: a statement with such a header, with or without parentheses around the header;
- `parse_header`: both are read as the same tree.
-/

namespace Vernacular

open Grammar Vernacular.Parser

variable {β : Type}
variable {c : Cursor}

/-! ## Reading single tokens -/

namespace Parser.Meets

variable {t : Token} {ts : List Token} {previous : Option Token} {k : Kind}

theorem expect_head {allowed : List Kind} {context : Context} {Q : Token → Cursor → Prop} (ht : t.kind ∈ allowed)
    (hq : Q t ⟨some t, ts⟩) : Meets (Parser.expect allowed context) ⟨previous, t :: ts⟩ Q :=
  Meets.ite_pos (List.contains_iff_mem.mpr ht) hq

theorem accept_head {Q : Bool → Cursor → Prop} (ht : t.kind = k) (hq : Q true ⟨some t, ts⟩) :
    Meets (accept k) ⟨previous, t :: ts⟩ Q := by
  rw [Meets, accept_eq, if_pos (show (Cursor.peek ⟨previous, t :: ts⟩).kind = k from ht)]
  exact hq

theorem accept_other {Q : Bool → Cursor → Prop} (hc : c.peek.kind ≠ k) (hq : Q false c) : Meets (accept k) c Q := by
  rw [Meets, accept_eq, if_neg hc]
  exact hq

theorem positionAhead {f : Position → Parser β} {Q : β → Cursor → Prop} (h : Meets (f c.peek.start) c Q) :
    Meets (Parser.position >>= f) c Q := h

variable {k' : Kind} {p q : Parser β} {Q : β → Cursor → Prop}

theorem either_pos (hc : c.peek.kind ∈ [k, k']) (h : Meets p c Q) :
    Meets (do if (← Parser.check k) || (← Parser.check k') then p else q) c Q := by
  show Meets (if (c.peek.kind == k || c.peek.kind == k') = true then p else q) c Q
  exact ite_pos (by simpa using hc) h

theorem either_neg (hc : c.peek.kind ∉ [k, k']) (h : Meets q c Q) :
    Meets (do if (← Parser.check k) || (← Parser.check k') then p else q) c Q := by
  show Meets (if (c.peek.kind == k || c.peek.kind == k') = true then p else q) c Q
  exact ite_neg (by simpa using hc) h

end Parser.Meets

/-! ## Headers -/

/-- The two parentheses around a header. -/
structure Parens where
  left : TokenOf (.symbol .leftParen)
  right : TokenOf (.symbol .rightParen)

namespace Parens

/-- What stands before a header that has perhaps parentheses. -/
def before : Option Parens → List Token
  | none => []
  | some parens => [parens.left.1]

def behind : Option Parens → List Token
  | none => []
  | some parens => [parens.right.1]

/-- A closing parenthesis or the brace of the body comes behind a header. -/
theorem firstKind_behind (parens : Option Parens) (body : BlockRun) (final : List Token) :
    firstKind (behind parens ++ (body.tokens ++ final)) ∈ closers := by
  cases parens with
  | none =>
    rw [behind, List.nil_append, body.kind_append]
    decide
  | some parens =>
    show parens.right.1.kind ∈ closers
    rw [parens.right.2]
    decide

end Parens

open Parens

section Forms

variable {final : List Token} (hfinal : firstKind final = .eof) (parens : Option Parens) (body : BlockRun)
  {previous : Option Token} (n : Nat)

theorem meets_condition (test : ExprRun) (htest : firstKind test.tokens ≠ .symbol .leftParen) (context : Context)
    {Q : Expr → Cursor → Prop} (hq : ∀ previous, Q test.value ⟨previous, body.tokens ++ final⟩) :
    Meets (condition (level n) context)
      ⟨previous, before parens ++ (test.tokens ++ (behind parens ++ (body.tokens ++ final)))⟩ Q := by
  have hbehind := firstKind_behind parens body final
  cases parens with
  | none =>
    refine .bind (.accept_other ?_ (.ite_neg Bool.false_ne_true (test.meets hbehind n hq)))
    exact fun h => htest ((test.kind_append _).symm.trans h)
  | some parens =>
    refine .bind (.accept_head parens.left.2 (.ite_pos rfl (.bind ?_)))
    refine test.meets hbehind n fun previous => .bind (.expect_head ?_ (.pure (hq _)))
    exact List.mem_singleton.mpr parens.right.2

include hfinal in
theorem meets_forEachRest (items : ExprRun) (start : Position) (kind : VariableKind) (id : Ident)
    {Q : Stmt → Cursor → Prop}
    (hq : ∀ span previous, Q (.forEach kind id none items.value (.block body.value) span) ⟨previous, final⟩) :
    Meets (forEachRest (level n) start parens.isSome kind id none)
      ⟨previous, items.tokens ++ (behind parens ++ (body.tokens ++ final))⟩ Q := by
  have hmore : firstKind final ∈ closers := by
    rw [hfinal]
    decide
  have hbody (previous : Option Token) : Meets (do
      let body ← (level n).statement
      return .forEach kind id none items.value body (← spanFrom start)) ⟨previous, body.tokens ++ final⟩ Q :=
    Meets.bind (body.meets_statement hmore n fun previous => .bind (.spanFrom fun span => hq span previous))
  refine .bind (items.meets (firstKind_behind parens body final) n fun previous => ?_)
  cases parens with
  | none => exact hbody previous
  | some parens => exact .bind (.expect_head (List.mem_singleton.mpr parens.right.2) (hbody _))

/-- The tokens of an expression that may be left out. -/
def clauseTokens : Option ExprRun → List Token
  | none => []
  | some e => e.tokens

theorem meets_optionalExpression (clause : Option ExprRun) {closing : Kind} {more : List Token}
    (hclosing : firstKind more = closing)
    (hmore : closing ∈ closers) (hne : ∀ e ∈ clause, firstKind e.tokens ≠ closing) {Q : Option Expr → Cursor → Prop}
    (hq : ∀ previous, Q (clause.map TokenRun.value) ⟨previous, more⟩) :
    Meets (optionalExpression (level n) closing) ⟨previous, clauseTokens clause ++ more⟩ Q := by
  cases clause with
  | none =>
    have hk : (Cursor.peek ⟨previous, more⟩).kind = closing := hclosing
    exact .ite_pos (beq_iff_eq.mpr hk) (.pure (hq previous))
  | some e =>
    have hk : (Cursor.peek ⟨previous, e.tokens ++ more⟩).kind ≠ closing :=
      fun h => hne e rfl ((e.kind_append more).symm.trans h)
    refine .ite_neg (fun h => hk (beq_iff_eq.mp h)) (.bind ?_)
    exact e.meets (hclosing ▸ hmore) n fun previous => .pure (hq previous)

include hfinal in
/-- The tests and steps of a counting loop: only a block can follow the last of them without parentheses, and what
follows it in parentheses is a block, too. -/
theorem meets_forLoopRest (first second : TokenOf (.symbol .semicolon)) (test update : Option ExprRun)
    (hupdate : ∀ e ∈ update, firstKind e.tokens ≠ .symbol .leftBrace) (start : Position) (init : Option ForInit)
    {Q : Stmt → Cursor → Prop}
    (hq : ∀ span previous, Q (.forLoop init (test.map TokenRun.value) (update.map TokenRun.value)
      (.block body.value) span) ⟨previous, final⟩) :
    Meets (forLoopRest (level n) start parens.isSome init) ⟨previous, first.1 :: (clauseTokens test ++ second.1 ::
      (clauseTokens update ++ (behind parens ++ (body.tokens ++ final))))⟩ Q := by
  have hmore : firstKind final ∈ closers := by
    rw [hfinal]
    decide
  refine .bind (.expect_head (List.mem_singleton.mpr first.2) (.bind ?_))
  refine meets_optionalExpression n test (second.firstKind _) (by decide)
    (fun e _ => e.kind_ne (by decide)) fun previous => ?_
  refine .bind (.expect_head (List.mem_singleton.mpr second.2) ?_)
  cases parens with
  | none =>
    refine .bind (meets_optionalExpression n update (body.kind_append _) (by decide) hupdate ?_)
    refine fun previous => .bind (body.meets hmore n .forStatement fun previous => .bind ?_)
    exact .spanFrom fun span => hq span previous
  | some parens =>
    refine .bind (meets_optionalExpression n update (parens.right.firstKind _) (by decide) (fun e _ =>
      e.kind_ne (by decide)) ?_)
    refine fun previous => .bind (.expect_head (List.mem_singleton.mpr parens.right.2) (.bind ?_))
    exact body.meets_statement hmore n fun previous => .bind (.spanFrom fun span => hq span previous)

/-- A run of a declaration. -/
abbrev DeclarationRun : Type := TokenRun (variableDeclaration outermost)

theorem DeclarationRun.kind (d : DeclarationRun) :
    firstKind d.tokens ∈ [Kind.keyword .variavel, .keyword .constante] := by
  obtain ⟨tokens, value, c, hrun, hrest⟩ := d
  obtain ⟨start, c₀, hstart, hrun⟩ := ok_of_bind hrun
  cases hstart
  obtain ⟨kind, c₁, hkind, -⟩ := ok_of_bind hrun
  obtain ⟨t, c₂, ht, -⟩ := ok_of_bind hkind
  change (if _ then _ else _ : Parser Token) _ = _ at ht
  split at ht
  · rename_i hk
    exact List.contains_iff_mem.mp hk
  · cases ht

/-- Where items would follow, a declaration has no more to read. -/
theorem bindings_of_de {inner : Inner} {context : Context} {id : Ident} {type : Option Ident}
    (hk : c.peek.kind = .keyword .de) : Meets (bindings inner context id type) c fun _ d => d = c := by
  have hrest : Meets (bindingRest inner id type) c fun _ d => d = c := by
    refine .bind (.accept_other (by rw [hk]; nofun) (.ite_neg Bool.false_ne_true ?_))
    exact .bind (@Meets.spanFrom c _ id.span.start fun _ => rfl)
  refine .bind (hrest.mono fun first d hd => ?_)
  subst hd
  refine .bind (.many_none (.bind (.accept_other (by rw [hk]; nofun) ?_)))
  exact .ite_neg Bool.false_ne_true (.pure ⟨rfl, rfl⟩)

/-- A declaration at the beginning of a counting loop. -/
theorem meets_declaration (d : DeclarationRun) {more : List Token} (hmore : firstKind more = .symbol .semicolon)
    {g : VariableKind → Ident → Option Ident → Parser Stmt} {f : Declaration → Parser Stmt} {Q : Stmt → Cursor → Prop}
    (hq : ∀ previous, Meets (f d.value) ⟨previous, more⟩ Q) :
    Meets (do
      let declStart ← position
      let kind ← variableKind
      let id ← identifier .forStatement
      let type ← optionalType
      if ← accept (.keyword .de) then g kind id type
      else
        let bindings ← bindings (level n) .forStatement id type
        let declaration : Declaration := ⟨kind, bindings, ← spanFrom declStart⟩
        f declaration) ⟨previous, d.tokens ++ more⟩ Q := by
  obtain ⟨tokens, value, c, hrun, hrest⟩ := d
  have hclosers : firstKind more ∈ closers := by
    rw [hmore]
    decide
  obtain ⟨start, c₀, hstart, hrun⟩ := ok_of_bind hrun
  cases hstart
  obtain ⟨kind, c₁, hkind, hrun⟩ := ok_of_bind hrun
  obtain ⟨id, c₂, hid, hrun⟩ := ok_of_bind hrun
  obtain ⟨type, c₃, htype, hrun⟩ := ok_of_bind hrun
  obtain ⟨bs, c₄, hbs, hrun⟩ := ok_of_bind hrun
  obtain ⟨span, c₅, hspan, hrun⟩ := ok_of_bind hrun
  cases hspan
  cases hrun
  cases tokens with
  | nil => cases hkind
  | cons t ts =>
    have hfresh : Fresh variableKind := .bind .expect
    have hword (c : Cursor) : Extends more variableKind variableKind c :=
      (Extends.expect (by decide)).bind fun _ _ _ => .pure
    -- behind the type there is no word for items, or it would have been left
    have hde : (c₃.extend more).peek.kind ≠ .keyword .de := by
      obtain ⟨previous, rest⟩ := c₃
      intro hk
      cases rest with
      | nil =>
        have hk : firstKind more = .keyword .de := hk
        rw [hmore] at hk
        cases hk
      | cons u us =>
        have hstop : Meets (bindings outermost .variableDeclaration id type) ⟨previous, u :: us⟩ fun _ d => d = _ :=
          bindings_of_de hk
        rw [Meets, hbs] at hstop
        rw [hstop] at hrest
        cases hrest
    have hend : c.extend more = ⟨c.previous, more⟩ := by rw [Cursor.extend, hrest, List.nil_append]
    have hkind := hword _ kind c₁ (hfresh none previous t ts kind c₁ hkind)
    refine .positionAhead (.bind (hkind.mono fun _ _ h => ?_))
    rw [h.1, h.2]
    refine .bind ((extends_identifier c₁ id c₂ hid).mono fun _ _ h => ?_)
    rw [h.1, h.2]
    refine .bind ((extends_optionalType hclosers c₂ type c₃ htype).mono fun _ _ h => ?_)
    rw [h.1, h.2]
    refine .bind (.accept_other hde (.ite_neg Bool.false_ne_true ?_))
    refine .bind ((extends_bindings hclosers maxDepth n id type c₃ bs c hbs).mono fun _ _ h => ?_)
    rw [h.1, h.2, hend]
    exact hq c.previous

/-- The first part of a counting loop. -/
inductive InitRun where
  | none
  | declaration (d : DeclarationRun)
  | expression (e : ExprRun) (h : firstKind e.tokens ≠ .symbol .leftParen)

namespace InitRun

def tokens : InitRun → List Token
  | none => []
  | declaration d => d.tokens
  | expression e _ => e.tokens

def value : InitRun → Option ForInit
  | none => .none
  | declaration d => some (.declaration d.value)
  | expression e _ => some (.expression e.value)

end InitRun

def VariableKind.keyword : VariableKind → Keyword
  | .mutable => .variavel
  | .constant => .constante

/-- What stands between the first word and the body of a condition or a loop, if it can do without parentheses: a
condition does not begin with one, and no update begins with a brace. -/
inductive Header where
  | ifElse (test : ExprRun) (h : firstKind test.tokens ≠ .symbol .leftParen)
  | whileLoop (test : ExprRun) (h : firstKind test.tokens ≠ .symbol .leftParen)
  | forEach (kind : VariableKind) (word : TokenOf (.keyword kind.keyword)) (name : TokenOf .identifier)
      (de : TokenOf (.keyword .de)) (items : ExprRun)
  | forLoop (init : InitRun) (first second : TokenOf (.symbol .semicolon)) (test update : Option ExprRun)
      (h : ∀ e ∈ update, firstKind e.tokens ≠ .symbol .leftBrace)

namespace Header

/-- The word before the header. -/
def keyword : Header → Keyword
  | ifElse .. => .se
  | whileLoop .. => .enquanto
  | forEach .. | forLoop .. => .para

def tokens : Header → List Token
  | ifElse test _ | whileLoop test _ => test.tokens
  | forEach _ word name de items => word.1 :: name.1 :: de.1 :: items.tokens
  | forLoop init first second test update _ =>
    init.tokens ++ first.1 :: (clauseTokens test ++ second.1 :: clauseTokens update)

/-- The statement with the header and the body, without places. -/
def statement (body : Block) : Header → Stmt
  | ifElse test _ => .ifElse test.value.bare (.block body.bare) none default
  | whileLoop test _ => .whileLoop test.value.bare (.block body.bare) default
  | forEach kind _ name _ items => .forEach kind ⟨name.1.text, default⟩ none items.value.bare (.block body.bare) default
  | forLoop init _ _ test update _ =>
    .forLoop (optForInitBare init.value) (optExprBare (test.map TokenRun.value))
      (optExprBare (update.map TokenRun.value))
      (.block body.bare) default

end Header

/-- A parenthesis is read where the header has one. -/
theorem meets_accept_before {ts : List Token} (hts : firstKind ts ≠ .symbol .leftParen) {Q : Bool → Cursor → Prop}
    (hq : ∀ previous, Q parens.isSome ⟨previous, ts⟩) :
    Meets (accept (.symbol .leftParen)) ⟨previous, before parens ++ ts⟩ Q := by
  cases parens with
  | none => exact .accept_other hts (hq previous)
  | some parens => exact .accept_head parens.left.2 (hq _)

include hfinal in
theorem meets_forEach (kind : VariableKind) (word : TokenOf (.keyword kind.keyword)) (name : TokenOf .identifier)
    (de : TokenOf (.keyword .de)) (items : ExprRun) (para : TokenOf (.keyword .para)) {Q : Stmt → Cursor → Prop}
    (hq : ∀ span previous, Q (.forEach kind ⟨name.1.text, name.1.span⟩ none items.value (.block body.value) span)
      ⟨previous, final⟩) :
    Meets (forStatement (level n)) ⟨previous, para.1 :: (before parens ++ word.1 :: name.1 :: de.1 :: (items.tokens ++
      (behind parens ++ (body.tokens ++ final))))⟩ Q := by
  have hword : word.1.kind ∈ [Kind.keyword .variavel, .keyword .constante] := by
    rw [word.2]
    cases kind <;> decide
  have hkind : (if word.1.kind = .keyword .constante then VariableKind.constant else .mutable) = kind := by
    rw [word.2]
    cases kind <;> rfl
  refine .bind (.position fun start => .bind (.expect_head (List.mem_singleton.mpr para.2) (.bind ?_)))
  refine meets_accept_before parens ?_ fun previous => ?_
  · rw [word.firstKind]
    exact nofun
  refine .either_pos hword ?_
  refine .bind (.position fun _ => .bind (.bind (.expect_head hword (.pure ?_))))
  refine .bind (.bind (.expect_head (List.mem_singleton.mpr name.2) (.pure (.bind ?_))))
  refine .bind (.accept_other ?_ (.ite_neg Bool.false_ne_true (.pure (.bind ?_))))
  · show de.1.kind ≠ _
    rw [de.2]
    exact nofun
  refine .accept_head de.2 (.ite_pos rfl ?_)
  rw [hkind]
  exact meets_forEachRest hfinal parens body n items start kind _ hq

include hfinal in
theorem meets_forLoop (init : InitRun) (first second : TokenOf (.symbol .semicolon)) (test update : Option ExprRun)
    (hupdate : ∀ e ∈ update, firstKind e.tokens ≠ .symbol .leftBrace) (para : TokenOf (.keyword .para))
    {Q : Stmt → Cursor → Prop}
    (hq : ∀ span previous, Q (.forLoop init.value (test.map TokenRun.value) (update.map TokenRun.value)
      (.block body.value) span) ⟨previous, final⟩) :
    Meets (forStatement (level n)) ⟨previous,
      para.1 :: (before parens ++ (init.tokens ++ first.1 :: (clauseTokens test ++
      second.1 :: (clauseTokens update ++ (behind parens ++ (body.tokens ++ final))))))⟩ Q := by
  have hrest (start : Position) (previous : Option Token) :=
    @meets_forLoopRest final hfinal parens body previous n first second test update hupdate start init.value Q hq
  refine .bind (.position fun start => .bind (.expect_head (List.mem_singleton.mpr para.2) (.bind ?_)))
  cases init with
  | none =>
    refine meets_accept_before parens ?_ fun previous => .either_neg ?_ (.bind ?_)
    · rw [InitRun.tokens, List.nil_append, first.firstKind]
      exact nofun
    · show first.1.kind ∉ _
      rw [first.2]
      decide
    exact meets_optionalExpression n none (first.firstKind _) (by decide) (by simp) (hrest start)
  | declaration d =>
    have hne {k : Kind} (hk : k ∉ [Kind.keyword .variavel, .keyword .constante]) : firstKind d.tokens ≠ k := by
      rintro rfl
      exact hk d.kind
    refine meets_accept_before parens ?_ fun previous => .either_pos ?_ ?_
    · rw [InitRun.tokens, firstKind_append (hne (by decide))]
      exact hne (by decide)
    · show firstKind (d.tokens ++ _) ∈ _
      rw [firstKind_append (hne (by decide))]
      exact d.kind
    exact meets_declaration n d (first.firstKind _)
      (g := fun kind id type => forEachRest (level n) start parens.isSome kind id type)
      (f := fun d => forLoopRest (level n) start parens.isSome (some (.declaration d))) (hrest start)
  | expression e he =>
    refine meets_accept_before parens ?_ fun previous => .either_neg ?_ (.bind ?_)
    · rw [InitRun.tokens, e.kind_append]
      exact he
    · show firstKind (e.tokens ++ _) ∉ _
      rw [e.kind_append]
      intro hmem
      rcases List.mem_cons.mp hmem with h | h
      · exact e.kind_ne (by decide) h
      · exact e.kind_ne (by decide) (List.mem_singleton.mp h)
    refine meets_optionalExpression n (some e) (first.firstKind _) (by decide) ?_ (hrest start)
    rintro _ ⟨⟩
    exact e.kind_ne (by decide)

include hfinal in
/-- A statement with a header is read as it is said, with and without parentheses around the header. -/
theorem Header.meets_statement (h : Header) (word : TokenOf (.keyword h.keyword)) :
    Meets (level n).statement
      ⟨previous, word.1 :: (before parens ++ (h.tokens ++ (behind parens ++ (body.tokens ++ final))))⟩
      fun s d => s.bare = h.statement body.value ∧ d.rest = final := by
  have hmore : firstKind final ∈ closers := by
    rw [hfinal]
    decide
  cases n with
  | zero => exact .tooDeep
  | succ n =>
    refine .kindAhead ?_
    rw [show (Cursor.peek ⟨previous, word.1 :: _⟩).kind = _ from word.2]
    cases h with
    | ifElse test htest =>
      refine .bind (.position fun start => .bind ?_)
      refine .expect_head (List.mem_singleton.mpr word.2) (.bind ?_)
      refine meets_condition parens body n test htest _ fun previous => .bind ?_
      refine body.meets_statement hmore n fun previous => .bind (.accept_other ?_ ?_)
      · show firstKind final ≠ _
        rw [hfinal]
        exact nofun
      refine .ite_neg Bool.false_ne_true (.bind (.pure (.bind ?_)))
      exact .spanFrom fun span => ⟨rfl, rfl⟩
    | whileLoop test htest =>
      refine .bind (.position fun start => .bind ?_)
      refine .expect_head (List.mem_singleton.mpr word.2) (.bind ?_)
      refine meets_condition parens body n test htest _ fun previous => .bind ?_
      exact body.meets_statement hmore n fun previous => .bind (.spanFrom fun span => ⟨rfl, rfl⟩)
    | forEach kind first name de items =>
      exact meets_forEach hfinal parens body n kind first name de items word fun span previous => ⟨rfl, rfl⟩
    | forLoop init first second test update hupdate =>
      rw [Header.tokens, List.append_assoc, List.cons_append, List.append_assoc, List.cons_append]
      exact meets_forLoop hfinal parens body n init first second test update hupdate word fun span previous =>
        ⟨rfl, rfl⟩

end Forms

/-! ## Programs -/

theorem meets_skipSemicolons (hc : c.peek.kind ≠ .symbol .semicolon) {Q : Unit → Cursor → Prop} (hq : Q () c) :
    Meets skipSemicolons c Q := by
  refine .bind (.many_none (.bind (.accept_other hc ?_)))
  exact .ite_neg Bool.false_ne_true (.pure ⟨rfl, .pure hq⟩)

/-- A program of one statement, which begins with a keyword. -/
theorem meets_program_single {t : Token} {k : Keyword} (ht : t.kind = .keyword k) {ts final : List Token}
    (hfinal : firstKind final = .eof) {s : Stmt}
    (h : Meets outermost.statement ⟨none, t :: ts⟩ fun s' d => s'.bare = s ∧ d.rest = final) :
    Meets program (.ofTokens (t :: ts)) fun p _ => p.bare = ⟨[s], default⟩ := by
  have hne {k' : Kind} (hk' : k' ≠ .keyword k) : (Cursor.peek ⟨none, t :: ts⟩).kind ≠ k' := fun h =>
    hk' (h.symm.trans ht)
  refine .bind (.position fun start => .bind (meets_skipSemicolons (hne nofun) (.bind ?_)))
  refine .many (.manyWithin_some ?_)
  refine .bind (p := atEnd) (.ite_neg (fun h => absurd (beq_iff_eq.mp h) (hne nofun)) ?_)
  refine .either_neg ?_ (.bind (h.mono fun s' d hs => .bind ?_))
  · intro hmem
    rcases List.mem_cons.mp hmem with h | h
    · exact absurd h (hne nofun)
    · exact absurd (List.mem_singleton.mp h) (hne nofun)
  obtain ⟨previous, rest⟩ := d
  obtain ⟨hs, rfl⟩ := hs
  have hend : (Cursor.peek ⟨previous, rest⟩).kind = .eof := hfinal
  refine meets_skipSemicolons (by rw [hend]; nofun) (.pure ⟨s', rfl, .manyWithin_none ?_⟩)
  refine .bind (p := atEnd) (.ite_pos (beq_iff_eq.mpr hend) (.pure ⟨rfl, .bind ?_⟩))
  refine .spanFrom fun span => ?_
  show (⟨[s'.bare], default⟩ : Program) = _
  rw [hs]

/-- The tokens are nested too deeply, or they are a program of one statement, which is `s` but for its places. -/
def ReadAs (ts : List Token) (s : Stmt) : Prop :=
  (∃ pos context, parse ts = .error (.tooDeep pos context)) ∨ ∃ p, parse ts = .ok p ∧ p.bare = ⟨[s], default⟩

theorem Header.readAs (h : Header) (body : BlockRun) (word : TokenOf (.keyword h.keyword)) (parens : Option Parens)
    {final : List Token} (hfinal : firstKind final = .eof) :
    ReadAs (word.1 :: (before parens ++ (h.tokens ++ (behind parens ++ (body.tokens ++ final)))))
      (h.statement body.value) := by
  have hread := meets_program_single word.2 hfinal (h.meets_statement hfinal parens body maxDepth word)
  rcases hread.cases with ⟨pos, context, c, hrun⟩ | ⟨p, c, hrun, hp⟩
  · exact .inl ⟨pos, context, by rw [parse, hrun]⟩
  · exact .inr ⟨p, by rw [parse, hrun], hp⟩

/-- **Bare and parenthesized headers are the same statement.** The word of a condition or a loop, a header that can do
without parentheses, and a block are read as the same tree whether parentheses stand around the header or not; the tree
is made of what the parts of the header and the block are read as alone, and says nothing of places. Only the nesting
may be too deep. -/
theorem parse_header (h : Header) (body : BlockRun) (word : TokenOf (.keyword h.keyword))
    (left : TokenOf (.symbol .leftParen)) (right : TokenOf (.symbol .rightParen)) {final : List Token}
    (hfinal : firstKind final = .eof) :
    ReadAs (word.1 :: (h.tokens ++ (body.tokens ++ final))) (h.statement body.value) ∧
      ReadAs (word.1 :: left.1 :: (h.tokens ++ right.1 :: (body.tokens ++ final))) (h.statement body.value) :=
  ⟨h.readAs body word none hfinal, h.readAs body word (some ⟨left, right⟩) hfinal⟩

/-- The tokens of a text without the end. -/
def lexemes (source : String) : List Token := ((tokenize source).toOption.getD []).dropLast

/-- A count whose first part declares, whose test begins with a brace and whose update ends with a function. -/
def countingHeader : Header :=
  .forLoop (.declaration ((TokenRun.of? _ (lexemes "variavel i: Numero[] = 0, j")).get (by decide +kernel)))
    ⟨⟨.symbol .semicolon, ";", default, default⟩, rfl⟩ ⟨⟨.symbol .semicolon, ";", default, default⟩, rfl⟩
    (some ((TokenRun.of? _ (lexemes "{a: i}.a < j")).get (by decide +kernel)))
    (some ((TokenRun.of? _ (lexemes "i = funcao () { retorne (j) }")).get (by decide +kernel)))
    (by rintro e ⟨⟩; decide +kernel)

def countingBody : BlockRun := (TokenRun.of? _ (lexemes "{ se (i) f() }")).get (by decide +kernel)

theorem parse_header_counting :
    let word : Token := ⟨.keyword .para, "para", default, default⟩
    let left : Token := ⟨.symbol .leftParen, "(", default, default⟩
    let right : Token := ⟨.symbol .rightParen, ")", default, default⟩
    let final : List Token := [⟨.eof, "", default, default⟩]
    firstKind final = .eof ∧ ∃ p p',
      parse (word :: (countingHeader.tokens ++ (countingBody.tokens ++ final))) = .ok p ∧
      parse (word :: left :: (countingHeader.tokens ++ right :: (countingBody.tokens ++ final))) = .ok p' ∧
      p.bare = ⟨[countingHeader.statement countingBody.value], default⟩ ∧ p'.bare = p.bare := by
  intro word left right final
  have hbare : (parse (word :: (countingHeader.tokens ++ (countingBody.tokens ++ final)))).toOption.isSome = true := by
    decide +kernel
  have hparens : (parse (word :: left ::
      (countingHeader.tokens ++ right :: (countingBody.tokens ++ final)))).toOption.isSome
      = true := by decide +kernel
  obtain ⟨h, h'⟩ := parse_header countingHeader countingBody ⟨word, rfl⟩ ⟨left, rfl⟩ ⟨right, rfl⟩
    (show firstKind final = .eof from rfl)
  refine ⟨rfl, ?_⟩
  rcases h with ⟨pos, context, he⟩ | ⟨p, hp, hbody⟩
  · rw [he] at hbare
    cases hbare
  rcases h' with ⟨pos, context, he⟩ | ⟨p', hp', hbody'⟩
  · rw [he] at hparens
    cases hparens
  · exact ⟨p, p', hp, hp', hbody, hbody'.trans hbody.symm⟩

end Vernacular
