import Vernacular.Proofs.Grammar.Respelling

/-!
# What a reader has seen where it stops

A reader decides by the token that comes next and the one after it, and never passes the end. So two runs are the same
while the tokens are, up to the one behind the next: as far as a place that the first run comes to, they are compared by
`beginnings`.

- `parse_error_local`: nothing behind the token next to the first error has a part in it.
-/

namespace Vernacular

open Grammar

variable {ts ts' : List Token} {n : Nat}

/-! ## Tokens in common -/

/-- Tokens none of which is the end are all there. -/
theorem le_length_of_kinds (h : ∀ i < n, (ts.getD i .pastEnd).kind ≠ .eof) : n ≤ ts.length := by
  refine Nat.le_of_not_lt fun hlt => h ts.length hlt ?_
  rw [List.getD_eq_getElem?_getD, List.getElem?_eq_none (Nat.le_refl _)]
  rfl

/-- Both places are reached by reading `i` tokens, none of them the end. -/
structure BothAfter (ts ts' : List Token) (i : Nat) (c c' : Cursor) : Prop where
  kinds : ∀ j < i, (ts.getD j .pastEnd).kind ≠ .eof
  fst : c = .after ts i
  snd : c' = .after ts' i

namespace BothAfter

variable {c c' : Cursor} {i : Nat} (hsame : ∀ i ≤ n + 1, ts'.getD i .pastEnd = ts.getD i .pastEnd)

include hsame

theorem lengths (h : BothAfter ts ts' i c c') (hi : i ≤ n + 1) : i ≤ ts.length ∧ i ≤ ts'.length := by
  refine ⟨le_length_of_kinds h.kinds, le_length_of_kinds fun j hj => ?_⟩
  rw [hsame j (by omega)]
  exact h.kinds j hj

theorem previous (h : BothAfter ts ts' i c c') (hi : i ≤ n + 1) : c.previous = c'.previous := by
  obtain ⟨hle, hle'⟩ := h.lengths hsame hi
  obtain ⟨-, rfl, rfl⟩ := h
  cases i with
  | zero => rfl
  | succ i => rw [Cursor.previous_after hle, Cursor.previous_after hle', hsame i (by omega)]

theorem peek (h : BothAfter ts ts' i c c') (hi : i ≤ n) : c.peek = c'.peek := by
  rw [h.fst, h.snd, Cursor.peek_after, Cursor.peek_after, hsame i (by omega)]

theorem onNewLine (h : BothAfter ts ts' i c c') (hi : i ≤ n) : c.onNewLine = c'.onNewLine := by
  rw [Cursor.onNewLine, Cursor.onNewLine, h.previous hsame (by omega), h.peek hsame hi]

omit hsame in
/-- As long as tokens behind the place after `n` are left, that place was not passed. -/
theorem le_of_rest (h : BothAfter ts ts' i c c') (hi : i ≤ n + 1) (hb : ts.length - n ≤ c.rest.length) : i ≤ n := by
  have hle := le_length_of_kinds h.kinds
  rw [h.fst, Cursor.after, List.length_drop] at hb
  omega

theorem advance (h : BothAfter ts ts' i c c') (hi : i ≤ n) (hk : c.peek.kind ≠ .eof) :
    BothAfter ts ts' (i + 1) c.advance.2 c'.advance.2 := by
  have hpeek := h.peek hsame hi
  obtain ⟨hkinds, rfl, rfl⟩ := h
  have hkinds' : ∀ j < i + 1, (ts.getD j .pastEnd).kind ≠ .eof := fun j hj => by
    rcases Nat.lt_succ_iff_lt_or_eq.mp hj with hlt | rfl
    · exact hkinds j hlt
    · rwa [Cursor.peek_after] at hk
  obtain ⟨hle, hle'⟩ := lengths hsame ⟨hkinds', rfl, rfl⟩ (Nat.succ_le_succ hi)
  exact ⟨hkinds', Cursor.advance_after hle, Cursor.advance_after hle'⟩

end BothAfter

/-- Runs before tokens that are the same up to the one behind the place after `n`. They are compared until the first run
passes that place, and errors count. -/
def beginnings (hn : n ≤ ts'.length) (hsame : ∀ i ≤ n + 1, ts'.getD i .pastEnd = ts.getD i .pastEnd) : Comparison where
  view := .exact
  near c c' := ∃ i ≤ n + 1, BothAfter ts ts' i c c'
  bound := ts.length - n
  lenient := False
  merge := @Span.merge_exact
  length := by
    rintro _ _ ⟨i, hi, -, rfl, rfl⟩
    simp only [Cursor.after, List.length_drop]
    omega
  peek := by
    rintro c _ ⟨i, hi, h⟩ hb
    rw [← h.peek hsame (h.le_of_rest hi hb)]
    exact .refl _ _
  advance := by
    rintro c _ ⟨i, hi, h⟩ hb hk
    have hle := h.le_of_rest hi hb
    exact ⟨i + 1, Nat.succ_le_succ hle, h.advance hsame hle hk⟩
  stop := by
    rintro c _ ⟨i, hi, h⟩
    rw [Like, h.previous hsame hi]
  second := by
    rintro c _ ⟨i, hi, h⟩ hb
    have hle := h.le_of_rest hi hb
    rw [h.fst, h.snd, Cursor.peekNth_after, Cursor.peekNth_after, hsame (i + 1) (Nat.succ_le_succ hle)]
    exact .inl rfl
  updateLine := by
    rintro c _ ⟨i, hi, h⟩ hb -
    exact h.onNewLine hsame (h.le_of_rest hi hb)
  returnLine := by
    rintro c _ ⟨i, hi, h⟩ hb - -
    exact h.onNewLine hsame (h.le_of_rest hi hb)

/-! ## Errors -/

theorem SyntaxError.view_exact (e : SyntaxError) : e.view .exact = e := by
  cases e <;> rfl

/-- Where the reading of some tokens fails at the place after `n` of them or before, the reading of others that begin in
the same way fails there too, and with the same error. -/
theorem Grammar.program_error_local {e : SyntaxError} {d : Cursor} (hn : n ≤ ts'.length)
    (hsame : ∀ i ≤ n + 1, ts'.getD i .pastEnd = ts.getD i .pastEnd) (h : program (.ofTokens ts) = .error e d)
    (hd : ts.length - n ≤ d.rest.length) :
    ∃ i, (∀ j < i, (ts.getD j .pastEnd).kind ≠ .eof) ∧ d = .after ts i ∧
    program (.ofTokens ts') = .error e (.after ts' i) := by
  have hrun := (agree_program (X := beginnings hn hsame)).run (.ofTokens ts) (.ofTokens ts') trivial
    ⟨0, Nat.zero_le _, nofun, rfl, rfl⟩
  rw [h] at hrun
  rcases hrun with hlost | hfit
  · exact absurd hd (Nat.not_le_of_lt hlost)
  cases h' : program (.ofTokens ts') with
  | ok p d' =>
    rw [h'] at hfit
    exact hfit.elim
  | error e' d' =>
    rw [h'] at hfit
    obtain ⟨he, i, -, hkinds, hi, rfl⟩ := hfit.resolve_left id
    obtain rfl : e = e' := e.view_exact.symm.trans (he.trans e'.view_exact)
    exact ⟨i, hkinds, hi, rfl⟩

/-- **The first error is decided by what was read before it.** If the reading of some tokens fails, then it fails at the
place after some `n` of them; and whatever other tokens agree with them up to the token behind that place, past the end
of either list with the end, their reading fails there too, and with the same error. -/
theorem parse_error_local {ts : List Token} {e : SyntaxError} (h : parse ts = .error e) : ∃ n ≤ ts.length,
    program (.ofTokens ts) = .error e (.after ts n) ∧
      ∀ ts' : List Token, (∀ i ≤ n + 1, ts'.getD i .pastEnd = ts.getD i .pastEnd) →
        parse ts' = .error e ∧ program (.ofTokens ts') = .error e (.after ts' n) := by
  obtain ⟨d, hfails⟩ : ∃ d, program (.ofTokens ts) = .error e d := by
    unfold parse at h
    split at h
    · cases h
    · rename_i d hd
      cases h
      exact ⟨d, hd⟩
  -- compared with itself, the run never passes the end
  obtain ⟨n, hkinds, rfl, hend⟩ := program_error_local (Nat.le_refl ts.length) (fun _ _ => rfl) hfails (by simp)
  have hle := le_length_of_kinds hkinds
  refine ⟨n, hle, hend, fun ts' hts => ?_⟩
  have hle' : n ≤ ts'.length := le_length_of_kinds fun i hi => by
    rw [hts i (by omega)]
    exact hkinds i hi
  obtain ⟨i, hkinds', hi, hend'⟩ := program_error_local hle' hts hfails (by simp [Cursor.after])
  obtain rfl : i = n := by
    have hrest := congrArg (·.rest.length) hi
    have hle := le_length_of_kinds hkinds'
    simp only [Cursor.after, List.length_drop] at hrest
    omega
  exact ⟨by rw [parse, hend'], hend'⟩

/-- A value is missing before a parenthesis; what follows the token behind it is another matter. -/
theorem parse_error_local_parenthesis :
    let x : Token := ⟨.identifier, "x", ⟨1, 1, 0⟩, ⟨1, 2, 1⟩⟩
    let assign : Token := ⟨.symbol .assign, "=", ⟨1, 3, 2⟩, ⟨1, 4, 3⟩⟩
    let paren : Token := ⟨.symbol .rightParen, ")", ⟨1, 5, 4⟩, ⟨1, 6, 5⟩⟩
    let one : Token := ⟨.number, "1", ⟨2, 1, 6⟩, ⟨2, 2, 7⟩⟩
    let e := SyntaxError.unexpectedToken ["expression"] paren .expression
    parse [x, assign, paren, one] = .error e ∧ parse [x, assign, paren, one, one, assign, x] = .error e := by
  intro x assign paren one e
  have h : program (.ofTokens [x, assign, paren, one]) = .error e (.after [x, assign, paren, one] 2) := rfl
  have hparse : parse [x, assign, paren, one] = .error e := by rw [parse, h]
  obtain ⟨n, hn, hend, hlocal⟩ := parse_error_local hparse
  have hplace := congrArg (·.rest.length) (EStateM.Result.error.inj (h.symm.trans hend)).2
  obtain rfl : n = 2 := by
    simp only [Cursor.after, List.length_drop, List.length_cons, List.length_nil] at hplace hn
    omega
  refine ⟨hparse, (hlocal [x, assign, paren, one, one, assign, x] fun i hi => ?_).1⟩
  rcases i with _ | _ | _ | _ | i
  · rfl
  · rfl
  · rfl
  · rfl
  · omega

end Vernacular
