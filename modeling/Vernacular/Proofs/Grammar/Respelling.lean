import Vernacular.Proofs.Grammar.Productions

/-!
# Other spellings and other lines

Two lists of tokens are respellings of one another if they agree token by token in kind and text, but for the spelling
of keywords, and in the line breaks that matter: those in front of an operator that steps a variable and those behind
the word for a return. Nothing else of a list of tokens has a bearing on how it is read.

- `Respelling`: the lists that are compared;
- `respellings`: the comparison of the places after equally many tokens;
- `parse_respelling`: both lists are programs or neither is, and their trees or errors are alike;
- `parse_keeps_texts`: why the texts of keywords have to spell them.
-/

namespace Vernacular

open Grammar Vernacular.Parser

/-! ## What is overlooked -/

/-- A word that spells a keyword in its canonical spelling. -/
def Keyword.canonicalOf (word : String) : String := ((ofWord? word).map canonical).getD word

/-- The name of a type with the word before its brackets in the canonical spelling. -/
def canonicalType (name : String) : String :=
  Keyword.canonicalOf (.ofList (name.toList.takeWhile (· != '['))) ++ .ofList (name.toList.dropWhile (· != '['))

/-- Neither places nor spellings of keywords are seen. -/
def View.essential : View := ⟨fun _ => .start, Keyword.canonicalOf, canonicalType⟩

/-- The tokens are of one kind, and their texts are equal or spell the same keyword. -/
def Token.Respelt (t t' : Token) : Prop :=
  t.kind = t'.kind ∧
    (t.text = t'.text ∨ ∃ k ∈ Keyword.all, t.kind = .keyword k ∧ t.text ∈ k.spellings ∧ t'.text ∈ k.spellings)

instance (t t' : Token) : Decidable (t.Respelt t') := inferInstanceAs (Decidable (_ ∧ _))

/-- Whether there is a line break between two tokens, where that matters. -/
def breakBetween (a b : Token) : Option Bool :=
  if a.kind = .keyword .retorne ∨ (updateOp? b.kind).isSome then some (a.stop.line < b.start.line) else none

/-- The line breaks that matter. -/
def lineBreaks (ts : List Token) : List (Option Bool) := ts.zipWith breakBetween ts.tail

/-- The lists differ at most in the spelling of keywords and in places, not in the line breaks that matter. -/
structure Respelling (ts ts' : List Token) : Prop where
  length : ts.length = ts'.length
  tokens : ∀ p ∈ ts.zip ts', p.1.Respelt p.2
  breaks : lineBreaks ts = lineBreaks ts'

instance (ts ts' : List Token) : Decidable (Respelling ts ts') :=
  decidable_of_iff (ts.length = ts'.length ∧ (∀ p ∈ ts.zip ts', p.1.Respelt p.2) ∧ lineBreaks ts = lineBreaks ts')
    ⟨fun h => ⟨h.1, h.2.1, h.2.2⟩, fun h => ⟨h.length, h.tokens, h.breaks⟩⟩

/-! ## Keywords and types -/

theorem toList_foldl_brackets (n : Nat) (s : String) :
    ((List.replicate n "[]").foldl (· ++ ·) s).toList = s.toList ++ (List.replicate n ['[', ']']).flatten := by
  induction n generalizing s with
  | zero => simp
  | succ n ih => simp [List.replicate_succ, ih]

/-- A word without brackets is told from the brackets behind it. -/
theorem canonicalType_brackets {w : String} (hw : '[' ∉ w.toList) (n : Nat) :
    canonicalType ((List.replicate n "[]").foldl (· ++ ·) w) =
      Keyword.canonicalOf w ++ .ofList (List.replicate n ['[', ']']).flatten := by
  have hword : ∀ c ∈ w.toList, (c != '[') = true := fun c hc => bne_iff_ne.mpr fun h => hw (h ▸ hc)
  rw [canonicalType, toList_foldl_brackets, List.takeWhile_append_of_pos hword, List.dropWhile_append_of_pos hword]
  cases n with
  | zero => simp
  | succ n => simp [List.replicate_succ]

theorem Token.Respelt.tokenLike {t t' : Token} (h : t.Respelt t') : TokenLike .essential t t' := by
  obtain ⟨hkind, htext | ⟨k, -, hk, hw, hw'⟩⟩ := h
  · exact ⟨by rw [Like, Token.view, Token.view, hkind, htext]; rfl, fun _ => htext, fun _ _ => by rw [htext]; rfl⟩
  · have hword : Keyword.canonicalOf t.text = Keyword.canonicalOf t'.text := by
      rw [Keyword.canonicalOf, Keyword.canonicalOf, Keyword.ofWord?_of_mem hw, Keyword.ofWord?_of_mem hw']
      rfl
    refine ⟨?_, fun hone => ?_, fun htype n => ?_⟩
    · exact (Token.mk.injEq ..).mpr ⟨hkind, hword, rfl, rfl⟩
    · -- A keyword with one spelling.
      have hothers : k.others = [] := by simpa [hk, Kind.isRespelt] using hone
      rw [Keyword.spellings, hothers, List.mem_singleton] at hw hw'
      rw [hw, hw']
    · obtain rfl : k = .nulo := by simpa [hk, typeKinds] using htype
      have hplain : ∀ w ∈ Keyword.nulo.spellings, '[' ∉ w.toList := by decide +kernel
      show canonicalType _ = canonicalType _
      rw [canonicalType_brackets (hplain _ hw), canonicalType_brackets (hplain _ hw'), hword]

/-! ## Places after equally many tokens -/

/-- The place after `n` tokens. -/
def Cursor.after (ts : List Token) (n : Nat) : Cursor := ⟨(ts.take n).getLast?, ts.drop n⟩

namespace Cursor

variable {ts : List Token} {n : Nat}

theorem peekNth_after (k : Nat) : (after ts n).peekNth k = ts.getD (n + k) .pastEnd := by
  simp [after, peekNth]

theorem peek_after : (after ts n).peek = ts.getD n .pastEnd := by
  simp [after, peek]

theorem previous_after (h : n < ts.length) : (after ts (n + 1)).previous = some (ts.getD n .pastEnd) := by
  simp [after, List.getLast?_take, h]

theorem advance_after (h : n < ts.length) : (after ts n).advance.2 = after ts (n + 1) := by
  have hrest : (after ts n).rest = ts.getD n .pastEnd :: ts.drop (n + 1) := by
    rw [List.getD_eq_getElem?_getD, List.getElem?_eq_getElem h]
    exact List.drop_eq_getElem_cons h
  rw [advance, hrest]
  exact congrArg (Cursor.mk · _) (previous_after h).symm

theorem advance_after_length : (after ts ts.length).advance.2 = after ts ts.length := by
  have hrest : (after ts ts.length).rest = [] := List.drop_length
  rw [advance, hrest]

theorem onNewLine_after (h : n < ts.length) : (after ts (n + 1)).onNewLine =
    decide ((ts.getD n .pastEnd).stop.line < (ts.getD (n + 1) .pastEnd).start.line) := by
  rw [onNewLine, previous_after h, peek_after]

end Cursor

theorem getElem?_lineBreaks {ts : List Token} {n : Nat} (h : n + 1 < ts.length) :
    (lineBreaks ts)[n]? = some (breakBetween (ts.getD n .pastEnd) (ts.getD (n + 1) .pastEnd)) := by
  simp [lineBreaks, List.getElem?_zipWith, h, Nat.lt_of_succ_lt h]

namespace Respelling

variable {ts ts' : List Token} {n : Nat}

theorem respelt (h : Respelling ts ts') (n : Nat) : (ts.getD n .pastEnd).Respelt (ts'.getD n .pastEnd) := by
  by_cases hn : n < ts.length
  · have hn' : n < ts'.length := h.length ▸ hn
    have hmem : (ts[n], ts'[n]) ∈ ts.zip ts' := List.mem_iff_getElem.mpr ⟨n, by rw [List.length_zip]; omega, by simp⟩
    simpa [hn, hn'] using h.tokens _ hmem
  · have hn' : ¬ n < ts'.length := h.length ▸ hn
    simp [hn, hn', Token.Respelt]

/-- Line breaks that matter are the same. -/
theorem onNewLine (h : Respelling ts ts') (hn : n + 1 < ts.length)
    (hmatters : (ts.getD n .pastEnd).kind = .keyword .retorne ∨ (updateOp? (ts.getD (n + 1) .pastEnd).kind).isSome) :
    (Cursor.after ts (n + 1)).onNewLine = (Cursor.after ts' (n + 1)).onNewLine := by
  have hn' : n + 1 < ts'.length := h.length ▸ hn
  have hbreak := getElem?_lineBreaks hn
  rw [h.breaks, getElem?_lineBreaks hn', Option.some.injEq, breakBetween, breakBetween, ← (h.respelt n).1,
    ← (h.respelt (n + 1)).1, if_pos hmatters, if_pos hmatters, Option.some.injEq] at hbreak
  rw [Cursor.onNewLine_after (by omega), Cursor.onNewLine_after (by omega), hbreak]

/-- At the end there is no token, so a token that is seen has a place in the list. -/
theorem lt_of_kind_ne (h : (ts.getD n .pastEnd).kind ≠ .eof) : n < ts.length := by
  by_cases hlt : n < ts.length
  · exact hlt
  · exact absurd (by simp [hlt, Token.pastEnd]) h

end Respelling

/-- The places after equally many tokens of two respellings. Every run is compared to its end, and errors count. -/
def respellings {ts ts' : List Token} (h : Respelling ts ts') : Comparison where
  view := .essential
  near c c' := ∃ n ≤ ts.length, c = .after ts n ∧ c' = .after ts' n
  bound := 0
  lenient := False
  merge _ _ := rfl
  length := by
    rintro _ _ ⟨n, -, rfl, rfl⟩
    simp [Cursor.after, h.length]
  peek := by
    rintro _ _ ⟨n, -, rfl, rfl⟩ -
    rw [Cursor.peek_after, Cursor.peek_after]
    exact (h.respelt n).tokenLike
  advance := by
    rintro _ _ ⟨n, hn, rfl, rfl⟩ - -
    by_cases hlt : n < ts.length
    · exact ⟨n + 1, hlt, Cursor.advance_after hlt, Cursor.advance_after (h.length ▸ hlt)⟩
    · obtain rfl : n = ts.length := by omega
      refine ⟨ts.length, hn, Cursor.advance_after_length, ?_⟩
      rw [h.length]
      exact Cursor.advance_after_length
  stop := by
    rintro _ _ ⟨n, hn, rfl, rfl⟩
    cases n with
    | zero => rfl
    | succ n => rw [Like, Cursor.previous_after hn, Cursor.previous_after (h.length ▸ hn)]; rfl
  second := by
    rintro _ _ ⟨n, -, rfl, rfl⟩ -
    rw [Cursor.peekNth_after, Cursor.peekNth_after]
    exact .inl (h.respelt (n + 1)).1
  updateLine := by
    rintro _ _ ⟨n, hn, rfl, rfl⟩ - hop
    rw [Cursor.peek_after] at hop
    cases n with
    | zero => rfl
    | succ n =>
      have hlt : n + 1 < ts.length := Respelling.lt_of_kind_ne fun hend => by rw [hend] at hop; cases hop
      exact h.onNewLine hlt (.inr hop)
  returnLine := by
    rintro _ _ ⟨n, hn, rfl, rfl⟩ - hprevious hkind
    rw [Cursor.peek_after] at hkind
    cases n with
    | zero => rfl
    | succ n =>
      rw [Cursor.previous_after hn] at hprevious
      exact h.onNewLine (Respelling.lt_of_kind_ne hkind) (.inl (Option.some.inj hprevious))

/-! ## Programs -/

/-- Respellings are read alike: both are programs whose trees differ at most in places and in how keywords are spelt
that are stored as keys or as names of properties, decorators and types, or neither is one, for the same reason. -/
theorem parse_respelling {ts ts' : List Token} (h : Respelling ts ts') :
    (∃ p p', parse ts = .ok p ∧ parse ts' = .ok p' ∧ p.view .essential = p'.view .essential) ∨
      ∃ e e', parse ts = .error e ∧ parse ts' = .error e' ∧ e.view .essential = e'.view .essential := by
  have hstart : (respellings h).near (.ofTokens ts) (.ofTokens ts') := ⟨0, Nat.zero_le _, rfl, rfl⟩
  have hrun := (agree_program (X := respellings h)).run _ _ trivial hstart
  rcases hrun with hlost | hfit
  · exact absurd hlost (Nat.not_lt_zero _)
  unfold parse
  cases hp : program (.ofTokens ts) <;> cases hp' : program (.ofTokens ts') <;> rw [hp, hp'] at hfit
  · exact .inl ⟨_, _, rfl, rfl, hfit.1⟩
  · exact hfit.1.elim
  · exact hfit.elim
  · exact .inr ⟨_, _, rfl, rfl, (hfit.resolve_left id).1⟩

/-- Keywords as a key, as the name of a type and before a line break. -/
def stepsReturned : String :=
  String.intercalate "\n" [r"variavel x: nulo[] = { se: isso }; funcao f() { retorne", "x", r"++y }"]

/-- The same in another language and another layout. -/
def stepsTranslated : String :=
  String.intercalate "\n" ["let x: null[] =", "{ if: this };", r"function f() { return", "", "  x", "", "  ++y", r"}"]

theorem parse_respelling_translated :
    ∃ ts ts' p p', tokenize stepsReturned = .ok ts ∧ tokenize stepsTranslated = .ok ts' ∧
    Respelling ts ts' ∧ parse ts = .ok p ∧ parse ts' = .ok p' ∧ p.view .essential = p'.view .essential := by
  have hcheck : ((tokenize stepsReturned).toOption.any fun ts => (tokenize stepsTranslated).toOption.any fun ts' =>
      decide (Respelling ts ts') && (parse ts).toOption.isSome) = true := by decide +kernel
  obtain ⟨ts, hts, hcheck⟩ := exists_ok_of_any hcheck
  obtain ⟨ts', hts', hcheck⟩ := exists_ok_of_any hcheck
  obtain ⟨h, hparse⟩ := Bool.and_eq_true_iff.mp hcheck
  have h := of_decide_eq_true h
  rcases parse_respelling h with ⟨p, p', hp, hp', hview⟩ | ⟨e, e', he, -, -⟩
  · exact ⟨ts, ts', p, p', hts, hts', h, hp, hp', hview⟩
  · simp [Except.toOption, he] at hparse

/-! ## Keywords with other texts -/

/-- The lists agree in the kinds of their tokens, in the texts of those that are no keywords, and in the line breaks
that matter. A keyword may come with any text. -/
structure KindsAgree (ts ts' : List Token) : Prop where
  length : ts.length = ts'.length
  kinds : ∀ p ∈ ts.zip ts', p.1.kind = p.2.kind
  texts : ∀ p ∈ ts.zip ts', p.1.text = p.2.text ∨ ∃ k ∈ Keyword.all, p.1.kind = .keyword k
  breaks : lineBreaks ts = lineBreaks ts'

instance (ts ts' : List Token) : Decidable (KindsAgree ts ts') :=
  decidable_of_iff (ts.length = ts'.length ∧ (∀ p ∈ ts.zip ts', p.1.kind = p.2.kind) ∧
      (∀ p ∈ ts.zip ts', p.1.text = p.2.text ∨ ∃ k ∈ Keyword.all, p.1.kind = .keyword k) ∧
      lineBreaks ts = lineBreaks ts')
    ⟨fun h => ⟨h.1, h.2.1, h.2.2.1, h.2.2.2⟩, fun h => ⟨h.length, h.kinds, h.texts, h.breaks⟩⟩

/-- The word for a getter on its own, with any text. -/
def getter (text : String) : List Token :=
  [⟨.keyword .get, text, .start, .start⟩, ⟨.eof, "", .start, .start⟩]

/-- An access to a property of `a` that is named by the keyword of branches, with any text. No text is scanned into
this: a word behind a dot is a plain name. -/
def accessor (text : String) : List Token :=
  [⟨.identifier, "a", .start, .start⟩, ⟨.symbol .dot, ".", .start, .start⟩, ⟨.keyword .se, text, .start, .start⟩,
    ⟨.eof, "", .start, .start⟩]

/-- A program of one expression, with every place at the start of the text. -/
def Program.only (e : Expr) : Program := ⟨[.expression e ⟨.start, .start⟩], ⟨.start, .start⟩⟩

/-- Kinds alone do not decide how keywords are read. One that stands for a name gives the name its text, so that the
trees are alike only if the texts spell the keyword. One that names a property which is accessed is kept as it is
spelt. -/
theorem parse_keeps_texts :
    (KindsAgree (getter "get") (getter "foo") ∧ ∃ p p', parse (getter "get") = .ok p ∧ parse (getter "foo") = .ok p' ∧
      p.view .essential = .only (.ident "get" ⟨.start, .start⟩) ∧
      p'.view .essential = .only (.ident "foo" ⟨.start, .start⟩)) ∧
    KindsAgree (accessor "se") (accessor "if") ∧ ∃ p p', parse (accessor "se") = .ok p ∧
      parse (accessor "if") = .ok p' ∧
      p = .only (.member (.ident "a" ⟨.start, .start⟩) (.plain "se") false ⟨.start, .start⟩) ∧
      p' = .only (.member (.ident "a" ⟨.start, .start⟩) (.plain "if") false ⟨.start, .start⟩) := by
  refine ⟨⟨?_, _, _, rfl, rfl, rfl, rfl⟩, ?_, _, _, rfl, rfl, rfl, rfl⟩
  · decide +kernel
  · decide +kernel

end Vernacular
