import Vernacular.Grammar.Error
import Vernacular.Proofs.Text.Similarity

/-!
# Hints name the nearest keyword

A hint is given exactly if a spelling of a keyword is near the word, and it names the nearest one, the first in the
table of keywords if several are equally near (`suggestKeyword_nearest`).
-/

namespace Vernacular

theorem Keyword.usual_allSpellings : ∀ s ∈ Keyword.allSpellings, Usual s := by decide

theorem isSome_suggestKeyword? (word : String) :
    (suggestKeyword? word).isSome ↔ ∃ s ∈ Keyword.allSpellings, Nearby word s :=
  isSome_head?_similarNames Keyword.usual_allSpellings

theorem suggestKeyword?_eq_some_iff (word k : String) :
    suggestKeyword? word = some k ↔ Nearest word Keyword.allSpellings k :=
  head?_similarNames Keyword.usual_allSpellings

namespace SyntaxError

theorem isSome_hint? (found : Token) :
    (hint? found).isSome ↔ found.kind = .identifier ∧ ∃ s ∈ Keyword.allSpellings, Nearby found.text s := by
  rw [hint?, ← isSome_suggestKeyword?]
  by_cases h : found.kind = .identifier <;> simp [h]

theorem hint?_eq_some_iff (found : Token) (hint : String) :
    hint? found = some hint ↔ found.kind = .identifier ∧
      ∃ k, Nearest found.text Keyword.allSpellings k ∧ hint = "did you mean '" ++ k ++ "'?" := by
  simp only [hint?, ← suggestKeyword?_eq_some_iff]
  by_cases h : found.kind = .identifier <;> simp [h, eq_comm]

/-- What a message says about an unexpected token before any hint. -/
def unhinted (expected : List String) (found : Token) (context : Context) : String :=
  "Unexpected token '" ++ found.text ++ "' " ++ context.text ++ " at " ++ found.start.text ++ ": expected " ++
    choice expected

end SyntaxError

/-- **Keyword hints are the best there are.** A keyword is suggested for a word exactly if one of the spellings other
than the word is at most three tenths of the longer of the two apart from it; then it is the nearest spelling, by
distance to length, and the first one in the table among equals. An error about an unexpected token has that hint behind
its message if the token is an identifier, and no hint otherwise. -/
theorem suggestKeyword_nearest (word : String) :
    ((suggestKeyword? word).isSome ↔ ∃ s ∈ Keyword.allSpellings, Nearby word s) ∧
    (∀ k, suggestKeyword? word = some k ↔ Nearest word Keyword.allSpellings k) ∧
    ∀ expected found context,
      ((SyntaxError.hint? found).isSome ↔
        found.kind = .identifier ∧ ∃ s ∈ Keyword.allSpellings, Nearby found.text s) ∧
      (∀ hint, SyntaxError.hint? found = some hint ↔ found.kind = .identifier ∧
        ∃ k, Nearest found.text Keyword.allSpellings k ∧ hint = "did you mean '" ++ k ++ "'?") ∧
      (SyntaxError.unexpectedToken expected found context).message =
        SyntaxError.unhinted expected found context ++
          ((SyntaxError.hint? found).map fun hint => " (" ++ hint ++ ")").getD "" :=
  ⟨isSome_suggestKeyword? word, suggestKeyword?_eq_some_iff word, fun _ found _ =>
    ⟨SyntaxError.isSome_hint? found, SyntaxError.hint?_eq_some_iff found, rfl⟩⟩

example : suggestKeyword? "fucntion" = some "function" := by decide +kernel

end Vernacular
