import Vernacular.Proofs.Script.Scanned
import Vernacular.Proofs.Script.Total
import Vernacular.Proofs.Token.Respacing

/-!
# Indentation leaves no trace

Margins are written between lexemes only, never inside one: the inside of a string or a template that spans lines is no
line of the layout, and the lines of a function expression begin where its header was put. So the tokens of generated
code are those of the tree's marks, in which no margin occurs (`Program.kinds_texts_code`), and the unit of indentation
is free (`writeScript_indent_free`).
-/

namespace Vernacular

/-- Whatever blanks indent it, the code of a program has tokens with the kinds and texts of its marks. -/
theorem Program.kinds_texts_code {p : Program} (h : p.Sound .spelled) {unit : String}
    (hu : ∀ c ∈ unit.toList, isBlank c = true) : ∃ ts, tokenize (p.code unit) = .ok ts ∧
      ts.map (fun t => (t.kind, t.text)) = (stmtsMarks p.body ++ [Mark.eof]).map fun m => (m.kind, m.text) := by
  obtain ⟨ts, hts, hfits⟩ := Program.tokenize_code hu h
  exact ⟨ts, hts, hfits.kinds_texts⟩

/-- **Layout never leaks into the program.** A program that was read from a text is written with any two units of white
space, one of them or both empty, as texts that have tokens: of the same kinds and with the same texts, in the same
order. -/
theorem writeScript_indent_free {source : String} {ts : List Token} {p : Program} (ht : tokenize source = .ok ts)
    (hp : parse ts = .ok p) {u v : String} (hu : ∀ c ∈ u.toList, c ∈ asciiBlanks)
    (hv : ∀ c ∈ v.toList, c ∈ asciiBlanks) :
    ∃ text text' us vs, writeScript u p = .ok text ∧ writeScript v p = .ok text' ∧
      tokenize text = .ok us ∧ tokenize text' = .ok vs ∧
      us.map (fun t => (t.kind, t.text)) = vs.map fun t => (t.kind, t.text) := by
  have hsound : p.Sound .spelled := parse_spelled ht hp
  obtain ⟨us, hus, hu'⟩ := Program.kinds_texts_code hsound fun c hc => isBlank_of_mem (hu c hc)
  obtain ⟨vs, hvs, hv'⟩ := Program.kinds_texts_code hsound fun c hc => isBlank_of_mem (hv c hc)
  refine ⟨p.code u, p.code v, us, vs, writeScript_of_sound hsound u, writeScript_of_sound hsound v, hus, hvs, ?_⟩
  rw [hu', hv']

/-- A string and a template with lines of their own, the template in a function expression in a block; written without
indentation, and with a unit that begins a line itself. -/
theorem writeScript_indent_free_template :
    let source := String.intercalate "\n" ["se (s = 'a", r"  b') { f(funcao () { retorna `c", r" d` }) }"]
    ∃ ts p text text' us vs, tokenize source = .ok ts ∧ parse ts = .ok p ∧ writeScript "" p = .ok text ∧
      writeScript "\n\t" p = .ok text' ∧ text ≠ text' ∧ tokenize text = .ok us ∧ tokenize text' = .ok vs ∧
      us.map (fun t => (t.kind, t.text)) = vs.map (fun t => (t.kind, t.text)) ∧
      "'a\n  b'" ∈ vs.map (·.text) ∧ "`c\n d`" ∈ vs.map (·.text) := by
  intro source
  have hcheck : ((tokenize source).toOption.any fun ts => (parse ts).toOption.any fun p =>
      ((writeScript "" p).toOption != (writeScript "\n\t" p).toOption) &&
        ((writeScript "\n\t" p).toOption.bind fun text => (tokenize text).toOption).any fun vs =>
          (vs.map (·.text)).contains "'a\n  b'" && (vs.map (·.text)).contains "`c\n d`") = true := by
    decide +kernel
  obtain ⟨ts, ht, hcheck⟩ := exists_ok_of_any hcheck
  obtain ⟨p, hp, hcheck⟩ := exists_ok_of_any hcheck
  obtain ⟨hne, htexts⟩ := Bool.and_eq_true_iff.mp hcheck
  obtain ⟨text, text', us, vs, hw, hw', hus, hvs, hsame⟩ :=
    writeScript_indent_free ht hp (u := "") (v := "\n\t") (by simp) (by simp [asciiBlanks])
  have hne : text ≠ text' := by simpa [hw, hw', Except.toOption] using hne
  have htexts : "'a\n  b'" ∈ vs.map (·.text) ∧ "`c\n d`" ∈ vs.map (·.text) := by
    rw [hw'] at htexts
    simpa only [Except.toOption, Option.bind_some, hvs, Option.any_some, Bool.and_eq_true,
      List.contains_iff_mem] using htexts
  exact ⟨ts, p, text, text', us, vs, ht, hp, hw, hw', hne, hus, hvs, hsame, htexts⟩

end Vernacular
