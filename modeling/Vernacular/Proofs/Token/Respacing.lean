import Vernacular.Proofs.Token.Mark
import Vernacular.Proofs.Token.Shape

/-!
# New blanks between the tokens of a text

The scanner cuts a lexeme where the next character cannot go on with it, and reads a word by the kind of the token
before it. Neither depends on what else stands around the lexeme: a lexeme that was cut anywhere is cut in the same way
before a blank (`Scanner.lexemeAt_of_next`), whatever its neighbours were. So the texts of the tokens of a source, with
any blanks put between them, have the same tokens (`tokenize_respaced`).
-/

namespace Vernacular

/-- The white space of ASCII: space, tab, line feed, form feed and carriage return. -/
def asciiBlanks : List Char := [' ', '\t', '\n', '\x0c', '\r']

theorem isBlank_of_mem {c : Char} (h : c ∈ asciiBlanks) : isBlank c = true := by
  simp only [asciiBlanks, List.mem_cons, List.not_mem_nil, or_false] at h
  rcases h with rfl | rfl | rfl | rfl | rfl <;> rfl

theorem not_isWordChar_of_isBlank {c : Char} (h : isBlank c = true) : isWordChar c = false := by
  refine Bool.eq_false_iff.mpr fun hw => ?_
  rw [(not_isBlank_of_isWordChar hw).1] at h
  cases h

theorem endsNumber_of_isBlank {cs : List Char} (h : ∀ c ∈ cs.head?, isBlank c = true) : endsNumber cs := by
  intro c hc
  refine ⟨not_isWordChar_of_isBlank (h c hc), ?_⟩
  rintro rfl
  exact absurd (h _ hc) (by decide)

/-! ## One lexeme -/

/-- A token that a scanner gives is read in the same way before a blank. -/
theorem Scanner.lexemeAt_of_next {s s' : Scanner} {t : Token} (h : s.next = (.ok t, s')) (ht : t.kind ≠ .eof)
    {rest : List Char} (hr : ∀ c ∈ rest.head?, isBlank c = true) :
    LexemeAt (s.previous.any Kind.namesNext) t.kind t.text.toList rest := by
  have hshaped := (next_shaped h).1
  simp only [next] at h
  split at h
  · cases h
  · rename_i k hk
    cases h
    rw [String.toList_ofList]
    rcases Lexeme.read_inv hk ht with ⟨-, htext, rfl⟩ | ⟨rfl, hnumber⟩ | ⟨q, inside, hq, htaken, hclose⟩ | ⟨sym, rfl⟩
    · exact .word _ htext fun c hc => not_isWordChar_of_isBlank (hr c hc)
    · exact .number _ hnumber (endsNumber_of_isBlank hr)
    · rw [htaken]
      exact .quoted _ hq hclose rest
    · have htext := (hshaped.symbol sym rfl).1
      rw [← String.toList_inj, String.toList_ofList] at htext
      rw [htext]
      exact .symbol fun c hc => sym.stopsAt_of_isBlank (hr c hc)

/-! ## All of them -/

/-- The texts of the tokens with the blanks behind each. -/
def respaced : List Token → List String → String
  | t :: ts, gap :: gaps => t.text ++ gap ++ respaced ts gaps
  | _, _ => ""

/-- The mark of a token. -/
def Token.mark (t : Token) : Mark := ⟨t.kind, t.text, false⟩

/-- The tokens that a scanner gives are scanned again from their texts with blanks behind each. -/
theorem Scanner.Steps.scans_respaced {s s' : Scanner} {words : List Token} (h : Steps s words s') {gaps : List String}
    (hlen : gaps.length = words.length) (hgaps : ∀ gap ∈ gaps, gap ≠ "" ∧ ∀ c ∈ gap.toList, isBlank c = true)
    (broken : Bool) : ∃ spot : Spot, spot.rest = [] ∧
      Scans ⟨s.previous.any Kind.namesNext, broken, (respaced words gaps).toList⟩ (words.map Token.mark) spot := by
  induction h generalizing gaps broken with
  | @done s => exact ⟨⟨s.previous.any Kind.namesNext, broken, []⟩, rfl, .done⟩
  | @step s s' s'' t ts hx ht _ ih =>
    cases gaps with
    | nil => cases hlen
    | cons gap gaps =>
      obtain ⟨hne, hblank⟩ := hgaps gap (by simp)
      have hprev : t.kind.namesNext = s'.previous.any Kind.namesNext := by
        rw [(next_shaped hx).2]
        rfl
      obtain ⟨spot, hend, hscans⟩ := ih (Nat.succ.inj hlen) (fun g hg => hgaps g (by simp [hg]))
        (false || gap.toList.contains '\n')
      have hhead : ∀ c ∈ (gap.toList ++ (respaced ts gaps).toList).head?, isBlank c = true := by
        intro c hc
        obtain ⟨d, ds, hd⟩ := List.exists_cons_of_ne_nil (mt String.toList_eq_nil_iff.mp hne)
        rw [hd, List.cons_append, List.head?_cons, Option.mem_some_iff] at hc
        exact hblank c (by rw [hd, hc]; exact .head _)
      refine ⟨spot, hend, ?_⟩
      rw [respaced, String.toList_append, String.toList_append, List.append_assoc, List.map_cons]
      refine .mark (m := t.mark) (lexemeAt_of_next hx ht hhead) ht nofun ?_
      exact (Scans.blanks hblank).trans (hprev ▸ hscans)

/-- **Tokens survive any new spacing.** If a source has the tokens `words` and the end, then their texts with any white
space put behind each, at least one blank, have tokens again: of the same kinds and with the same texts, and the end. -/
theorem tokenize_respaced {source : String} {words : List Token} {final : Token}
    (h : tokenize source = .ok (words ++ [final])) {gaps : List String} (hlen : gaps.length = words.length)
    (hgaps : ∀ gap ∈ gaps, gap ≠ "" ∧ ∀ c ∈ gap.toList, c ∈ asciiBlanks) :
    ∃ ts, tokenize (respaced words gaps) = .ok ts ∧
      ts.map (fun t => (t.kind, t.text)) = (words ++ [final]).map fun t => (t.kind, t.text) := by
  obtain ⟨s, s', hsteps, hnext⟩ := Scanner.tokens_split h
  have hfinal : final.kind = .eof := by
    obtain ⟨before, last, heq, hlast, -⟩ := (Scanner.covers_tokens h).eof_last
    obtain ⟨-, hlast'⟩ := List.append_inj' heq rfl
    cases hlast'
    exact hlast
  have hempty : final.text = "" := by
    obtain ⟨gap, text, -, -, htext, -, -, -, heof, -⟩ := Scanner.next_ok hnext
    rw [htext, (heof hfinal).1]
  obtain ⟨spot, hend, hscans⟩ := hsteps.scans_respaced hlen
    (fun gap hgap => ⟨(hgaps gap hgap).1, fun c hc => isBlank_of_mem ((hgaps gap hgap).2 c hc)⟩) true
  rw [Scanner.ofText_previous] at hscans
  obtain ⟨ts, hts, hfits⟩ := tokenize_of_scans hscans hend
  refine ⟨ts, hts, hfits.kinds_texts.trans ?_⟩
  simp [Token.mark, Mark.eof, hfinal, hempty, Function.comp_def]

/-- Points behind a number, a keyword's spelling behind a point, a comment that falls away, and two lexemes that
touch. -/
theorem tokenize_respaced_points :
    let source := "1..se/**/>=.5"
    let words : List Token := [⟨.number, "1", ⟨1, 1, 0⟩, ⟨1, 2, 1⟩⟩, ⟨.symbol .dot, ".", ⟨1, 2, 1⟩, ⟨1, 3, 2⟩⟩,
      ⟨.symbol .dot, ".", ⟨1, 3, 2⟩, ⟨1, 4, 3⟩⟩, ⟨.identifier, "se", ⟨1, 4, 3⟩, ⟨1, 6, 5⟩⟩,
      ⟨.symbol .greaterEqual, ">=", ⟨1, 10, 9⟩, ⟨1, 12, 11⟩⟩, ⟨.number, ".5", ⟨1, 12, 11⟩, ⟨1, 14, 13⟩⟩]
    let final : Token := ⟨.eof, "", ⟨1, 14, 13⟩, ⟨1, 14, 13⟩⟩
    let gaps := [" ", "\n", "\x0c", "\t ", "\r\n", " "]
    tokenize source = .ok (words ++ [final]) ∧ respaced words gaps = "1 .\n.\x0cse\t >=\r\n.5 " ∧
      ∃ ts, tokenize (respaced words gaps) = .ok ts ∧ ts.map (fun t => (t.kind, t.text)) =
        [(.number, "1"), (.symbol .dot, "."), (.symbol .dot, "."), (.identifier, "se"), (.symbol .greaterEqual, ">="),
          (.number, ".5"), (.eof, "")] := by
  intro source words final gaps
  have h : tokenize source = .ok (words ++ [final]) := ok_of_toOption (by decide +kernel)
  have hgaps : ∀ gap ∈ gaps, gap ≠ "" ∧ ∀ c ∈ gap.toList, c ∈ asciiBlanks := by simp [gaps, asciiBlanks]
  exact ⟨h, by decide +kernel, tokenize_respaced h rfl hgaps⟩

end Vernacular
