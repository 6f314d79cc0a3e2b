import Vernacular.Proofs.Script.Readable
import Vernacular.Proofs.Script.Scanned
import Vernacular.Proofs.Script.Total

/-!
# Generated code is read back

The code of a tree has tokens, and their marks are those that were read off the tree; the grammar reads them as the
tree's normal form, unless it finds the nesting too deep.

- `Expr.render_reads_back`: expressions without functions, whatever tree they are;
- `writeScript_reads_back`: programs that were read from a text.
-/

namespace Vernacular

open Grammar Vernacular.Parser Counted

/-! ## Expressions without functions -/

mutual

theorem Expr.plain_of_functionFree : ∀ e : Expr, e.functionFree = true → e.plain = true
  | .literal .., _ | .ident .., _ | .this .., _ | .super .., _ => rfl
  | .array items _, h => exprsPlain_of_functionFree items h
  | .object properties _, h => propertiesPlain_of_functionFree properties h
  | .unary _ operand _, h => operand.plain_of_functionFree h
  | .update _ _ target _, h => target.plain_of_functionFree h
  | .binary _ left right _, h | .assign _ left right _, h | .index left right _ _, h => by
    obtain ⟨hl, hr⟩ := Bool.and_eq_true_iff.mp h
    exact Bool.and_eq_true_iff.mpr ⟨left.plain_of_functionFree hl, right.plain_of_functionFree hr⟩
  | .call callee args _ _, h | .new callee args _, h => by
    obtain ⟨hc, ha⟩ := Bool.and_eq_true_iff.mp h
    exact Bool.and_eq_true_iff.mpr ⟨callee.plain_of_functionFree hc, exprsPlain_of_functionFree args ha⟩
  | .member object _ _ _, h => object.plain_of_functionFree h

theorem exprsPlain_of_functionFree : ∀ es : List Expr, exprsFunctionFree es = true → exprsPlain es = true
  | [], _ => rfl
  | e :: es, h => by
    obtain ⟨he, hes⟩ := Bool.and_eq_true_iff.mp h
    exact Bool.and_eq_true_iff.mpr ⟨e.plain_of_functionFree he, exprsPlain_of_functionFree es hes⟩

theorem propertiesPlain_of_functionFree :
    ∀ ps : List Property, propertiesFunctionFree ps = true → propertiesPlain ps = true
  | [], _ => rfl
  | ⟨_, value, _⟩ :: ps, h => by
    obtain ⟨hv, hps⟩ := Bool.and_eq_true_iff.mp h
    exact Bool.and_eq_true_iff.mpr ⟨value.plain_of_functionFree hv, propertiesPlain_of_functionFree ps hps⟩

end

/-! Only the bodies of functions have lines of their own, so the margin does not show in other expressions. -/

mutual

theorem Expr.code_margin (m m' : Margin) (role : Role) :
    ∀ e : Expr, e.functionFree = true → e.code m role = e.code m' role
  | .literal .., _ | .ident .., _ | .this .., _ | .super .., _ | .object [] _, _ => by
    rw [Expr.code, Expr.code]
  | .array items _, h => by
    rw [Expr.code, Expr.code, exprCodes_margin m m' items h]
  | .object (p :: ps) _, h => by
    rw [Expr.code, Expr.code, propertyCodes_margin m m' (p :: ps) h] <;> nofun
  | .unary _ operand _, h => by
    rw [Expr.code, Expr.code, operand.code_margin m m' .value h]
  | .update _ _ target _, h => by
    rw [Expr.code, Expr.code, target.code_margin m m' .value h]
  | .binary _ left right _, h | .assign _ left right _, h | .index left right _ _, h => by
    obtain ⟨hl, hr⟩ := Bool.and_eq_true_iff.mp h
    rw [Expr.code, Expr.code, left.code_margin m m' .value hl, right.code_margin m m' .value hr]
  | .call callee args _ _, h => by
    obtain ⟨hc, ha⟩ := Bool.and_eq_true_iff.mp h
    rw [Expr.code, Expr.code, callee.code_margin m m' .callee hc, exprCodes_margin m m' args ha]
  | .new callee args _, h => by
    obtain ⟨hc, ha⟩ := Bool.and_eq_true_iff.mp h
    rw [Expr.code, Expr.code, callee.code_margin m m' .value hc, exprCodes_margin m m' args ha]
  | .member object _ _ _, h => by
    rw [Expr.code, Expr.code, object.code_margin m m' .value h]

theorem exprCodes_margin (m m' : Margin) :
    ∀ es : List Expr, exprsFunctionFree es = true → exprCodes m es = exprCodes m' es
  | [], _ => rfl
  | e :: es, h => by
    obtain ⟨he, hes⟩ := Bool.and_eq_true_iff.mp h
    rw [exprCodes, exprCodes, e.code_margin m m' .value he, exprCodes_margin m m' es hes]

theorem propertyCodes_margin (m m' : Margin) : ∀ ps : List Property, propertiesFunctionFree ps = true →
    propertyCodes m ps = propertyCodes m' ps
  | [], _ => rfl
  | ⟨_, value, _⟩ :: ps, h => by
    obtain ⟨hv, hps⟩ := Bool.and_eq_true_iff.mp h
    rw [propertyCodes, propertyCodes, value.code_margin m m' .value hv, propertyCodes_margin m m' ps hps]

end

/-- The text of an expression without functions has tokens, and they are read as the same expression, up to the names
that the tables exchange, unless they are nested too deeply; no token but the end is left. -/
theorem Expr.render_reads_back (margin : Margin) {e : Expr} (h : e.Sound .spelled) (hf : e.functionFree = true) :
    ∃ text ts, Gives (e.render margin .value) text ∧ tokenize text = .ok ts ∧
      ((∃ pos context c, outermost.expression (.ofTokens ts) = .error (.tooDeep pos context) c) ∨
        ∃ e' c t, outermost.expression (.ofTokens ts) = .ok e' c ∧ e'.bare = e.norm .value ∧
          c.rest = [t] ∧ t.kind = .eof) := by
  have hblank : (⟨"", 0⟩ : Margin).Blank := by simp [Margin.Blank]
  obtain ⟨ts, hts, hfits⟩ := e.tokenize_code hblank .value h
  refine ⟨e.code margin .value, ts, e.render_code margin .value h, ?_, ?_⟩
  · rw [e.code_margin margin ⟨"", 0⟩ .value hf]
    exact hts
  refine (e.meets_norm h (e.plain_of_functionFree hf) .value hfits).cases.imp id ?_
  rintro ⟨e', c, hread, hbare, hc⟩
  obtain ⟨t, hrest⟩ := List.length_eq_one_iff.mp hc.length
  have ht := hc.kind
  rw [Cursor.peek, hrest] at ht
  exact ⟨e', c, t, hread, hbare, hrest, ht⟩

/-- A base with an operator in front of it, a property of a number, and a construction of what a call gives. -/
def samplePower : Expr :=
  .binary .exponent
    (.unary .negate (.member (.literal (.number "1") default) (.plain "tamanho") false default) default)
    (.new (.call (.ident "mostrar" default) [] false default) [] default) default

theorem Expr.render_reads_back_power : samplePower.Sound .spelled ∧ samplePower.functionFree = true ∧
    ∃ ts e' c t, Gives (samplePower.render ⟨"", 0⟩ .value) "(-(1).length) ** new (console.log())()" ∧
      tokenize "(-(1).length) ** new (console.log())()" = .ok ts ∧ outermost.expression (.ofTokens ts) = .ok e' c ∧
      e'.bare = samplePower.norm .value ∧ c.rest = [t] ∧ t.kind = .eof := by
  have hnumber : IsLexeme .number "1" := rfl
  have hword : Lexicon.spelled.word "tamanho" := ⟨_, Kind.isWord_ofWord _, isLexeme_word rfl⟩
  have hname : Lexicon.spelled.ident "mostrar" := ⟨.ofWord "mostrar", by decide, isLexeme_word rfl⟩
  have hsound : samplePower.Sound .spelled := ⟨⟨hnumber, hword⟩, ⟨hname, trivial⟩, trivial⟩
  obtain ⟨text, ts, hgives, ht, h⟩ := samplePower.render_reads_back ⟨"", 0⟩ hsound (by decide)
  obtain rfl : text = "(-(1).length) ** new (console.log())()" := by
    obtain ⟨tally, hrun⟩ := hgives .zero
    have htext : (samplePower.render ⟨"", 0⟩ .value).run' .zero = some "(-(1).length) ** new (console.log())()" := by
      decide
    obtain ⟨tally', hrun'⟩ := ok_of_run' htext
    rw [hrun] at hrun'
    exact (EStateM.Result.ok.inj hrun').1
  -- here the nesting is not too deep
  have hread : ((tokenize "(-(1).length) ** new (console.log())()").toOption.any fun ts =>
      (outermost.expression.run' (.ofTokens ts)).isSome) = true := by decide +kernel
  rw [ht] at hread
  have hread : (outermost.expression.run' (.ofTokens ts)).isSome = true := hread
  refine ⟨hsound, by decide, ?_⟩
  rcases h with ⟨pos, context, c, he⟩ | ⟨e', c, t, he, hrest⟩
  · obtain ⟨e', hread⟩ := Option.isSome_iff_exists.mp hread
    obtain ⟨c', hread⟩ := ok_of_run' hread
    rw [he] at hread
    cases hread
  · exact ⟨ts, e', c, t, hgives, ht, he, hrest⟩

/-! ## Programs -/

/-- Every program without loops over items and static members is read back from its generated text: the text, indented
by any blanks, has tokens, and they are read as the normal form of the program, unless they are nested too deeply. -/
theorem writeScript_reads_back {source : String} {ts : List Token} {p : Program} (ht : tokenize source = .ok ts)
    (hp : parse ts = .ok p) (hplain : p.plain = true) (indent : String) (hi : ∀ c ∈ indent.toList, isBlank c = true) :
    ∃ text ts', writeScript indent p = .ok text ∧ tokenize text = .ok ts' ∧
      ((∃ pos context, parse ts' = .error (.tooDeep pos context)) ∨ ∃ p', parse ts' = .ok p' ∧ p'.bare = p.norm) := by
  have hsound := parse_spelled ht hp
  obtain ⟨ts', hts', hfits⟩ := Program.tokenize_code hi hsound
  refine ⟨p.code indent, ts', writeScript_of_sound hsound indent, hts', ?_⟩
  rcases (Program.meets_norm hsound hplain hfits).cases with ⟨pos, context, c, hread⟩ | ⟨p', c, hread, hbare⟩
  · exact .inl ⟨pos, context, by rw [parse, hread]⟩
  · exact .inr ⟨p', by rw [parse, hread], hbare⟩

/-- A class with a method that leaves no trace and a field named as accessors begin, a call of a name that is exchanged,
and a branch that begins as a function, indented by a tab. -/
theorem writeScript_reads_back_branches : ∃ ts p text ts' p',
    tokenize "classe A { abstrato f() get = b } se (a) mostrar(b) senao (funcao () {})()" = .ok ts ∧
    parse ts = .ok p ∧ p.plain = true ∧ isBlank '\t' = true ∧ writeScript "\t" p = .ok text ∧ tokenize text = .ok ts' ∧
    parse ts' = .ok p' ∧ p'.bare = p.norm := by
  have hcheck : ((tokenize "classe A { abstrato f() get = b } se (a) mostrar(b) senao (funcao () {})()").toOption.any
      fun ts => (parse ts).toOption.any fun p => p.plain && ((writeScript "\t" p).toOption.bind fun text =>
        (tokenize text).toOption.bind fun ts' => (parse ts').toOption).isSome) = true := by decide +kernel
  obtain ⟨ts, ht, hcheck⟩ := exists_ok_of_any hcheck
  obtain ⟨p, hp, hcheck⟩ := exists_ok_of_any hcheck
  obtain ⟨hplain, hback⟩ := Bool.and_eq_true_iff.mp hcheck
  obtain ⟨text, ts', hw, ht', h⟩ := writeScript_reads_back ht hp hplain "\t" (List.all_eq_true.mp (by decide))
  rw [hw] at hback
  rcases h with ⟨pos, context, he⟩ | ⟨p', hp', hbare⟩
  · simp [Except.toOption, ht', he] at hback
  · exact ⟨ts, p, text, ts', p', ht, hp, hplain, rfl, hw, ht', hp', hbare⟩

end Vernacular
