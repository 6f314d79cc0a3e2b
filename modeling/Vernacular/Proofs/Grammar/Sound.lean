import Vernacular.Proofs.Grammar.Yields

/-!
# Programs that are read have what building keeps

What holds of expressions (`Grammar.yields_assignment`) holds of classes and statements, so by induction on the levels
of all productions (`Grammar.yields_level`): a list of tokens that a lexicon allows gives statements with the invariant
of all levels (`parse_yields`). In particular they keep the promises (`parse_sound`).
-/

namespace Vernacular

open Grammar Vernacular.Parser

variable {V : Lexicon} {I H : Invariant}
variable {ts : List Token} {p : Program}

namespace Grammar

/-! ## Classes -/

/-- The path to a base class, which is an expression too. -/
theorem Link.qualified_foldl {ls : List (Link × Position)} {e : Expr} (he : e.Qualified V)
    (hl : ∀ l ∈ ls, ∃ s, V.word s ∧ l.1 = .member (.plain s) false) : (ls.foldl Link.apply e).Qualified V := by
  induction ls generalizing e with
  | nil => exact he
  | cons l ls ih =>
    obtain ⟨link, stop⟩ := l
    simp only [List.mem_cons, forall_eq_or_imp] at hl
    obtain ⟨⟨s, hs, rfl⟩, hl⟩ := hl
    exact ih ⟨he, hs⟩ hl

/-- A path to a base class is read as a path. -/
theorem yields_qualifiedName (hb : Builds V I H) : Yields V qualifiedName fun e => e.Qualified V ∧ H.expr e := by
  refine (Yields.expect (by decide)).bind fun t ht => ?_
  refine (Yields.many (G := fun l => ∃ s, V.word s ∧ l.1 = .member (.plain s) false) ?_).bind fun links hlinks => ?_
  · refine Ensures.bind (Ensures.accept (Q := fun b c => V.Reading b c) ?_ fun c hc _ => hc) fun b => ?_
    · intro c hc hk
      have := (hc.advance (by rw [hk]; exact nofun)).2
      rwa [hk] at this
    · refine .ite (fun _ => ?_) fun hb => ?_
      · refine .bind ensures_propertyWord fun w => .of_and fun hw => ?_
        refine .bind Ensures.get fun c => .bind Ensures.position fun p => .pure fun c' hc => ⟨?_, hc.1⟩
        simpa using hw
      · rw [Bool.not_eq_true] at hb
        exact .pure fun c hc => ⟨by simp, hb ▸ hc⟩
  · refine .pure ⟨Link.qualified_foldl (ht.2.base rfl ht.1) hlinks, hb.foldl_apply (hb.ident (ht.2.ident rfl ?_)) ?_⟩
    · exact (show classKinds ⊆ identKinds by decide) (by simpa using ht.1)
    · intro l hl
      obtain ⟨s, hs, he⟩ := hlinks l hl
      rw [he]
      exact hs

theorem yields_decorator : Yields V decorator fun _ => True := by
  refine Ensures.bind Ensures.check fun b => Ensures.ite (fun hb => ?_) fun _ => Ensures.pure fun c hc =>
    ⟨trivial, hc.1⟩
  refine .bind (.advance (Q := fun _ c => V.Reading false c) ?_) fun _ => ?_
  · rintro c ⟨hc, hk⟩
    exact hc.next (eq_of_beq (hk.trans hb)) nofun rfl
  · exact .bind ensures_propertyWord fun w => .pure fun c hc => ⟨trivial, hc.2⟩

/-- Modifiers are read until none comes. -/
theorem ensures_modifiers : Ensures (V.Reading false) (many modifier) fun _ c =>
    V.Reading false c ∧ (default : Modifiers).add? c.peek.kind = none := by
  refine .many_end ?_ ?_
  · refine .bind Ensures.kind fun k => .ite (fun hk => ?_) fun hk => ?_
    · obtain ⟨m, hm⟩ := Option.isSome_iff_exists.mp hk
      refine .bind (ensures_advance_of_some (by decide) hm) fun _ => ?_
      exact .pure fun c hc => ⟨hc, nofun⟩
    · refine .pure fun c hc => ⟨hc.1, fun _ => ?_⟩
      rw [hc.2]
      simpa using hk
  · intro n
    refine .bind Ensures.kind fun k => .ite (fun hk => ?_) fun _ => .pure fun _ _ hn => absurd rfl hn
    refine .bind (.advance (Q := fun _ c => c.rest.length < n) ?_) fun _ => .pure fun c hc _ => hc
    rintro c ⟨⟨-, rfl⟩, rfl⟩
    exact Cursor.advance_rest_lt fun he => by rw [he] at hk; cases hk

/-- The name of a method or a field, which is neither a modifier nor the word for a constructor. -/
theorem ensures_memberName : Ensures
    (fun c => (V.Reading false c ∧ (default : Modifiers).add? c.peek.kind = none) ∧ c.peek.kind ≠ .keyword .construtor)
    (propertyName .classBody) fun name c => name.SoundFor V .ordinary ∧ V.Reading false c := by
  refine .bind (.accept (Q := fun b c => V.Reading b c ∧ (b = false →
    (default : Modifiers).add? c.peek.kind = none ∧ c.peek.kind ≠ .keyword .construtor)) ?_ ?_) fun b => ?_
  · rintro c ⟨⟨hc, -⟩, -⟩ hk
    have := (hc.advance (by rw [hk]; exact nofun)).2
    exact ⟨by rwa [hk] at this, nofun⟩
  · rintro c ⟨⟨hc, hm⟩, hk⟩ -
    exact ⟨hc, fun _ => ⟨hm, hk⟩⟩
  · refine .ite (fun _ => ?_) fun hb => ?_
    · refine .bind (ensures_propertyWord.strengthen fun c hc => hc.1) fun w => ?_
      exact .pure fun c hc => hc
    · rw [Bool.not_eq_true] at hb
      subst hb
      refine .bind (.propertyWord (Q := fun t c => (V.word t.text ∧ V.member t.text) ∧ V.Reading false c) ?_)
        fun t => .pure fun c hc => hc
      rintro c ⟨hc, hm⟩ hw
      obtain ⟨hne, hnn⟩ := namesNext_of_isWord hw
      have ha := (hc.advance hne).1
      exact ⟨⟨ha.word hw, ha.member rfl hw (hm rfl).1 (hm rfl).2⟩, hc.next rfl hne hnn⟩

theorem yields_interfaces : Yields V interfaces fun _ => True := by
  have hname : Yields V (do let t ← expect classKinds .classDeclaration; pure (⟨t.text, t.span⟩ : Ident)) fun _ =>
      True :=
    (Yields.expect (by decide)).bind fun _ _ => .pure trivial
  refine (Yields.accept (.keyword .implementa) nofun rfl).after fun b => .ite (fun _ => ?_) fun _ => .pure trivial
  exact hname.after fun _ => (Yields.afterCommas hname).bind fun _ _ => .pure trivial

variable {inner : Inner}

section Members

variable (hi : inner.Yields V I)
include hi

/-- A method has the name and the body that were read for it. -/
theorem yields_method {name : PropertyName} (kind : MethodKind) (hname : name.SoundFor V kind) (modifiers : Modifiers)
    (decorators : List Ident) (start : Position) :
    Yields V (method inner name kind modifiers decorators start) (I.Member V) := by
  refine Yields.position.after fun p => (yields_callableRest hi none (by simp) p _).bind fun callable hc => ?_
  exact Yields.spanFrom.after fun _ => .pure ⟨hname, hc⟩

/-- A field has the name and the value that were read for it. -/
theorem yields_field {name : PropertyName} (hname : name.SoundFor V .ordinary) (modifiers : Modifiers)
    (decorators : List Ident) (start : Position) :
    Yields V (field inner name modifiers decorators start) (I.Member V) := by
  refine yields_optionalType.after fun _ => .optional (.symbol .assign) nofun rfl hi.expression fun _ hv => ?_
  refine (Yields.accept (.symbol .semicolon) nofun rfl).after fun _ => ?_
  exact Yields.spanFrom.after fun _ => .pure ⟨hname, hv⟩

/-- A member of a class, of any kind. -/
theorem yields_member : Yields V (member inner) (I.Member V) := by
  refine Yields.position.after fun start => ?_
  refine (Yields.many (G := fun _ => True) (yields_decorator.mono fun _ _ _ _ => trivial)).bind fun decorators _ => ?_
  refine Ensures.bind ensures_modifiers fun words => ?_
  refine Ensures.bind (Ensures.accept (Q := fun b c => (V.Reading false c ∧ (b = false →
    (default : Modifiers).add? c.peek.kind = none)) ∧ (b = false →
    c.peek.kind ≠ .keyword .construtor)) ?_ ?_) fun b => ?_
  · rintro c ⟨hc, -⟩ hk
    exact ⟨⟨hc.next hk nofun rfl, nofun⟩, nofun⟩
  · rintro c ⟨hc, hm⟩ hk
    exact ⟨⟨hc, fun _ => hm⟩, fun _ => hk⟩
  · refine Ensures.ite (fun _ => ?_) fun hb => ?_
    · exact (yields_method hi .constructor rfl _ _ _).strengthen fun c hc => hc.1.1
    · rw [Bool.not_eq_true] at hb
      subst hb
      refine Ensures.bind Ensures.get fun c => Ensures.bind Ensures.kind fun k => ?_
      split
      · rename_i kind hacc _
        refine Ensures.bind ((ensures_advance_of_some (f := accessor?) (by decide) hacc).strengthen fun c hc =>
          ⟨hc.1.1.1.1, hc.2⟩) fun _ => ?_
        refine Ensures.bind (ensures_propertyName _) fun name => Ensures.of_and fun hname => ?_
        refine yields_method hi _ ?_ _ _ _
        unfold accessor? at hacc
        split at hacc <;> cases hacc <;> exact hname
      · refine Ensures.bind (ensures_memberName.strengthen fun c hc =>
          ⟨⟨hc.1.1.1.1, hc.1.1.1.2 rfl⟩, hc.1.1.2 rfl⟩) fun name => Ensures.of_and fun hname => ?_
        refine Yields.check.after fun b => .ite (fun _ => ?_) fun _ => ?_
        · exact yields_method hi _ hname _ _ _
        · exact yields_field hi hname _ _ _

theorem yields_condition (context : Context) : Yields V (condition inner context) I.expr := by
  refine (Yields.accept (.symbol .leftParen) nofun rfl).after fun b => .ite (fun _ => ?_) fun _ => hi.expression
  exact hi.expression.bind fun e he => (Yields.expectSymbol rfl).after fun _ => .pure he

theorem yields_optionalExpression (k : Kind) : Yields V (optionalExpression inner k) fun o => ∀ e ∈ o, I.expr e :=
  Yields.check.after fun _ => .ite (fun _ => .none) fun _ => hi.expression.some

omit hi in
theorem yields_variableKind : Yields V variableKind fun _ => True :=
  (Yields.expect (by decide)).bind fun _ _ => .pure trivial

/-- A declaration with all its bindings. -/
theorem yields_variableDeclaration : Yields V (variableDeclaration inner) (I.Declaration V) := by
  refine Yields.position.after fun _ => yields_variableKind.after fun _ => Yields.identifier.bind fun id hid => ?_
  refine yields_optionalType.after fun type => (yields_bindings hi _ hid type).bind fun bs hbs => ?_
  exact Yields.spanFrom.after fun _ => .pure hbs

end Members

variable (hb : Builds V I H) (hi : inner.Yields V I)
include hb hi

/-- A class declaration. -/
theorem yields_classDeclaration : Yields V (classDeclaration inner) H.stmt := by
  refine Yields.position.after fun start => (Yields.expect (by decide)).bind fun _ _ =>
    Yields.identifier.bind fun id hid => ?_
  refine .optional (.keyword .estende) nofun rfl (yields_qualifiedName hb) fun base hbase => ?_
  refine yields_interfaces.after fun _ => (Yields.expectSymbol rfl).after fun _ => ?_
  refine (Yields.separated (yields_member hi)).bind fun members hmembers => (Yields.expectSymbol rfl).after fun _ => ?_
  exact Yields.spanFrom.after fun _ => .pure (hb.classDecl hid hbase hmembers)

/-! ## Statements -/

theorem yields_variablesStatement : Yields V (variablesStatement inner) H.stmt :=
  (yields_variableDeclaration hi).bind fun _ hd => (Yields.accept (.symbol .semicolon) nofun rfl).after fun _ =>
    .pure (hb.declaration hd)

theorem yields_functionDeclaration : Yields V (functionDeclaration inner) H.stmt := by
  refine Yields.position.after fun start => (Yields.expect (by decide)).bind fun _ _ =>
    Yields.identifier.bind fun id hid => ?_
  have hname : ∀ other ∈ some id, V.bound other.name := by simpa using hid
  refine (yields_function hi hname start).bind fun c hc => ?_
  exact .pure (hb.functionDecl hc.1 hc.2)

theorem yields_ifStatement : Yields V (ifStatement inner) H.stmt := by
  refine Yields.position.after fun _ => (Yields.expect (by decide)).bind fun _ _ => ?_
  refine (yields_condition hi _).bind fun test htest => hi.statement.bind fun s hs => ?_
  refine .optional (.keyword .senao) nofun rfl hi.statement fun _ halternate => ?_
  exact Yields.spanFrom.after fun _ => .pure (hb.ifElse htest hs halternate)

theorem yields_whileStatement : Yields V (whileStatement inner) H.stmt := by
  refine Yields.position.after fun _ => (Yields.expect (by decide)).bind fun _ _ => ?_
  refine (yields_condition hi _).bind fun test htest => hi.statement.bind fun s hs => ?_
  exact Yields.spanFrom.after fun _ => .pure (hb.whileLoop htest hs)

/-- A loop over the items of a value, behind its variable. -/
theorem yields_forEachRest (start : Position) (inParens : Bool) (kind : VariableKind) {id : Ident}
    (hid : V.bound id.name) (type : Option Ident) :
    Yields V (forEachRest inner start inParens kind id type) H.stmt := by
  have hbody {e : Expr} (he : I.expr e) : Yields V (do
      let body ← inner.statement
      return .forEach kind id type e body (← spanFrom start)) H.stmt :=
    hi.statement.bind fun s hs => Yields.spanFrom.after fun _ => .pure (hb.forEach hid he hs)
  refine hi.expression.bind fun e he => .ite (fun _ => ?_) fun _ => hbody he
  exact (Yields.expectSymbol rfl).after fun _ => hbody he

/-- A loop with three clauses, behind the first of them. -/
theorem yields_forLoopRest (start : Position) (inParens : Bool) {init : Option ForInit}
    (hinit : ∀ i ∈ init, I.Init V i) : Yields V (forLoopRest inner start inParens init) H.stmt := by
  refine (Yields.expectSymbol rfl).after fun _ => (yields_optionalExpression hi _).bind fun test htest => ?_
  refine (Yields.expectSymbol rfl).after fun _ => .ite (fun _ => ?_) fun _ => ?_
  · refine (yields_optionalExpression hi _).bind fun update hupdate => (Yields.expectSymbol rfl).after fun _ => ?_
    refine hi.statement.bind fun s hs => ?_
    exact Yields.spanFrom.after fun _ => .pure (hb.forLoop hinit htest hupdate (hb.weakenStmt hs))
  · refine (yields_optionalExpression hi _).bind fun update hupdate => ?_
    refine (yields_blockIn hi _).bind fun b hblock => ?_
    exact Yields.spanFrom.after fun _ => .pure (hb.forLoop hinit htest hupdate (hb.block hblock))

/-- A loop of either kind. Behind a variable, one word decides which. -/
theorem yields_forStatement : Yields V (forStatement inner) H.stmt := by
  refine Yields.position.after fun start => (Yields.expect (by decide)).bind fun _ _ => ?_
  refine (Yields.accept (.symbol .leftParen) nofun rfl).after fun inParens => ?_
  refine Yields.check.after fun _ => Yields.check.after fun _ => .ite (fun _ => ?_) fun _ => ?_
  · refine Yields.position.after fun _ => yields_variableKind.after fun kind => Yields.identifier.bind fun id hid => ?_
    refine yields_optionalType.after fun type => (Yields.accept (.keyword .de) nofun rfl).after fun b => ?_
    refine .ite (fun _ => yields_forEachRest hb hi _ _ _ hid _) fun _ => ?_
    refine (yields_bindings hi _ hid type).bind fun bs hbs => Yields.spanFrom.after fun _ => ?_
    exact yields_forLoopRest hb hi _ _ (by simpa [Invariant.Init, Invariant.Declaration] using hbs)
  · refine (yields_optionalExpression hi _).bind fun init hinit => yields_forLoopRest hb hi _ _ ?_
    simpa [Invariant.Init] using hinit

theorem yields_returnStatement : Yields V (returnStatement inner) H.stmt := by
  have hend (start : Position) (value : Option Expr) (hvalue : ∀ e ∈ value, I.expr e) : Yields V (do
      let _ ← accept (.symbol .semicolon)
      return .ret value (← spanFrom start)) H.stmt :=
    (Yields.accept (.symbol .semicolon) nofun rfl).after fun _ => Yields.spanFrom.after fun _ => .pure (hb.ret hvalue)
  refine Yields.position.after fun start => (Yields.expect (by decide)).bind fun _ _ => Yields.kind.after fun k => ?_
  refine Yields.onNewLine.after fun b => .ite (fun _ => hend start none (by simp)) fun _ => ?_
  exact hi.expression.bind fun e he => hend start (some e) (by simpa using he)

/-- A statement: the first token decides which. -/
theorem yields_statement : Yields V (statement inner) H.stmt := by
  refine Yields.kind.after fun k => ?_
  split
  · exact yields_variablesStatement hb hi
  · exact yields_variablesStatement hb hi
  · exact yields_functionDeclaration hb hi
  · exact yields_classDeclaration hb hi
  · exact yields_ifStatement hb hi
  · exact yields_whileStatement hb hi
  · exact yields_forStatement hb hi
  · exact yields_returnStatement hb hi
  · exact (yields_blockIn hi _).bind fun _ hblock => .pure (hb.block hblock)
  · refine Yields.position.after fun _ => hi.expression.bind fun e he => ?_
    refine (Yields.accept (.symbol .semicolon) nofun rfl).after fun _ => ?_
    exact Yields.spanFrom.after fun _ => .pure (hb.expression he)

omit hb hi

/-! ## Levels and programs -/

/-- What is read with `n` levels to go has the invariant of `n`. -/
theorem yields_level {I : Nat → Invariant} (hb : ∀ n, Builds V (I n) (I (n + 1))) (n : Nat) :
    (level n).Yields V (I n) := by
  induction n with
  | zero =>
    exact ⟨Ensures.bind Ensures.position fun _ => Ensures.throw,
      Ensures.bind Ensures.position fun _ => Ensures.throw, Ensures.bind Ensures.position fun _ => Ensures.throw,
      Ensures.bind Ensures.position fun _ => Ensures.throw⟩
  | succ n ih =>
    exact ⟨yields_assignment (hb n) ih, yields_exponent (hb n) ih, yields_unary (hb n) ih, yields_statement (hb n) ih⟩

/-- A whole program has statements with the invariant. -/
theorem yields_statements (hi : inner.Yields V I) : Yields V (statements inner) fun p => ∀ s ∈ p.body, I.stmt s := by
  refine Yields.position.after fun _ => Yields.skipSemicolons.after fun _ => ?_
  refine (Yields.many (G := I.stmt) ?_).bind fun body hbody => Yields.spanFrom.after fun _ => .pure hbody
  refine Yields.check.after fun _ => .ite (fun _ => .none) fun _ => ?_
  have hstmt : Yields V (do let s ← inner.statement; skipSemicolons; return some s) fun o => ∀ s ∈ o, I.stmt s :=
    hi.statement.bind fun s hs => Yields.skipSemicolons.after fun _ => .pure (by simpa using hs)
  refine Yields.check.after fun _ => Yields.check.after fun _ => .ite (fun _ => ?_) fun _ => hstmt
  exact Yields.fail.after fun _ => hstmt

end Grammar

/-- The statements of a program have the invariant of all levels. -/
theorem parse_yields {I : Nat → Invariant} (hb : ∀ n, Builds V (I n) (I (n + 1))) (hts : V.AdmitsAll false ts)
    (h : parse ts = .ok p) : ∀ s ∈ p.body, (I maxDepth).stmt s := by
  unfold parse at h
  split at h
  · rename_i _ c hq
    cases h
    exact (yields_statements (yields_level hb maxDepth) (.ofTokens ts) p c hts hq).1
  · cases h

/-- The lexicon of all words allows all tokens. -/
theorem Lexicon.admitsAll_everything {named : Bool} : Lexicon.everything.AdmitsAll named ts := by
  induction ts generalizing named with
  | nil => trivial
  | cons t ts ih => exact ⟨by constructor <;> intros <;> trivial, ih⟩

/-- An invariant that does not depend on names and literals. -/
theorem parse_upholds {I : Nat → Invariant} (hb : ∀ n, Builds .everything (I n) (I (n + 1))) (h : parse ts = .ok p) :
    ∀ s ∈ p.body, (I maxDepth).stmt s := parse_yields hb Lexicon.admitsAll_everything h

/-- Tokens that a lexicon allows give a program that is sound over it. -/
theorem parse_sound (hts : V.AdmitsAll false ts) (h : parse ts = .ok p) : p.Sound V :=
  stmtsSound_iff.mpr (parse_yields (I := fun _ => soundness V) (fun _ => builds_soundness) hts h)

/-- Every program that is read keeps the promises. -/
theorem parse_sound_everything (h : parse ts = .ok p) : p.Sound .everything :=
  parse_sound Lexicon.admitsAll_everything h

end Vernacular
