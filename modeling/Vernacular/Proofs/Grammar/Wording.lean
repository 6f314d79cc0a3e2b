import Mathlib.Data.List.TakeWhile
import Vernacular.Proofs.Grammar.Outlines
import Vernacular.Proofs.Token.Shape

/-!
# Names and literals of trees

A tree keeps the names and literals of its source: none is lost, none comes twice, and they stay in order. Beside them
it keeps only words that are keywords and were read as names. Tokens keep their text, since quotes come back around what
was inside them, and the name of a type is a word, which the brackets behind it do not change.

- `Omits P xs ys`: the list `ys` is `xs` without some members that have the property `P`;
- `Token.Stored.omits`: what a tree keeps of one token;
- `parse_wording`: the names and literals of a program.
-/

namespace Vernacular

open Grammar Vernacular.Parser.Outlines

/-- The second list is the first without some members that have the property. -/
inductive Omits {α : Type} (P : α → Prop) : List α → List α → Prop
  | nil : Omits P [] []
  | keep {x : α} {xs ys : List α} : Omits P xs ys → Omits P (x :: xs) (x :: ys)
  | drop {x : α} {xs ys : List α} : P x → Omits P xs ys → Omits P (x :: xs) ys

theorem Omits.append {α : Type} {P : α → Prop} {xs ys xs' ys' : List α} (h : Omits P xs ys) (h' : Omits P xs' ys') :
    Omits P (xs ++ xs') (ys ++ ys') := by
  induction h with
  | nil => exact h'
  | keep _ ih => exact .keep ih
  | drop hx _ ih => exact .drop hx ih

/-- The texts of the tokens that are names and literals. -/
def wording (ts : List Token) : List String := (ts.filter (·.kind.isContent)).map Token.text

theorem wording_append (us vs : List Token) : wording (us ++ vs) = wording us ++ wording vs := by
  simp [wording]

theorem wording_of_content {t : Token} (h : t.kind.isContent = true) : wording [t] = [t.text] := by
  simp [wording, h]

theorem wording_of_mark {t : Token} (h : t.kind.isContent = false) : wording [t] = [] := by
  simp [wording, h]

/-! ## Tokens -/

/-- A quoted text is its inside between its quotes. -/
theorem IsQuoted.requoted_eq {q : Char} {text : String} (h : IsQuoted q text.toList) :
    requoted (unquoted text) q = text := by
  obtain ⟨body, htext, -⟩ := h
  apply String.toList_injective
  simp [requoted, unquoted, htext]

theorem IsQuoted.quoteOf_eq {q : Char} {text : String} (h : IsQuoted q text.toList) : quoteOf text = q := by
  obtain ⟨body, htext, -⟩ := h
  rw [quoteOf, htext]
  rfl

/-- A word has no brackets to lose. -/
theorem bareType_eq {text : String} (h : isWordText text.toList = true) : bareType text = text := by
  have hall := List.all_eq_true.mp (Bool.and_eq_true_iff.mp h).2
  have hself : text.toList.takeWhile (· != '[') = text.toList := by
    refine List.takeWhile_eq_self_iff.mpr fun c hc => bne_iff_ne.mpr ?_
    rintro rfl
    exact absurd (hall _ hc) (by decide)
  rw [bareType, hself, String.ofList_toList]

namespace Token

variable {t : Token} {s : String} {previous : Option Kind} {after : List Char}

theorem Shaped.keyword_mem (h : t.Shaped previous after) {k : Keyword} (hk : t.kind = .keyword k) :
    t.text ∈ Keyword.allSpellings := by
  have hword : t.kind.isWord = true := by rw [hk]; rfl
  by_cases hnamed : ∃ k ∈ previous, k ∈ nameMarks
  · have hidentifier := h.named hword hnamed
    rw [hk] at hidentifier
    cases hidentifier
  · exact Keyword.mem_allSpellings ((h.listed hword hnamed (.keyword k)).mpr hk.symm)

/-- A word is a name or the spelling of a keyword. -/
theorem Shaped.omits_word (h : t.Shaped previous after) (hword : t.kind.isWord = true) :
    Omits (· ∈ Keyword.allSpellings) [t.text] (wording [t]) := by
  cases hk : t.kind with
  | keyword k =>
    rw [wording_of_mark (by rw [hk]; rfl)]
    exact .drop (h.keyword_mem hk) .nil
  | type | builtin | identifier =>
    rw [wording_of_content (by rw [hk]; rfl)]
    exact .keep .nil
  | _ =>
    rw [hk] at hword
    cases hword

/-- A tree keeps the text of a name or literal. What it keeps of other tokens is a keyword. -/
theorem Stored.omits (h : t.Stored s) (hshaped : t.Shaped previous after) :
    Omits (· ∈ Keyword.allSpellings) [s] (wording [t]) := by
  cases h with
  | number hk =>
    rw [wording_of_content (by rw [hk]; rfl)]
    exact .keep .nil
  | string hk =>
    obtain ⟨q, -, hquoted⟩ := hshaped.string hk
    rw [wording_of_content (by rw [hk]; rfl), hquoted.quoteOf_eq, hquoted.requoted_eq]
    exact .keep .nil
  | template hk =>
    have htext : (Literal.template (unquoted t.text)).text = t.text := (hshaped.template hk).requoted_eq
    rw [wording_of_content (by rw [hk]; rfl), htext]
    exact .keep .nil
  | word hword => exact hshaped.omits_word hword
  | type hk =>
    have hword := (by decide : ∀ k ∈ Parser.typeKinds, k.isWord = true) _ hk
    rw [bareType_eq (hshaped.word hword).1]
    exact hshaped.omits_word hword
  | constructor hk =>
    rw [wording_of_mark (by rw [hk]; rfl)]
    exact .drop (by decide) .nil

end Token

/-! ## Trees -/

/-- What a phrase has for names and literals is what its tokens have, and keywords. -/
theorem Phrase.omits {us : List Token} {os : List Outline} (h : Phrase us os)
    (hshaped : ∀ t ∈ us, ∃ previous after, t.Shaped previous after) :
    Omits (· ∈ Keyword.allSpellings) (Outline.textsOf os) (wording us) := by
  induction h with
  | nil => exact .nil
  | append _ _ ihus ihvs =>
    obtain ⟨hus, hvs⟩ := List.forall_mem_append.mp hshaped
    rw [Outline.textsOf_append, wording_append]
    exact (ihus hus).append (ihvs hvs)
  | mark hk =>
    rw [wording_of_mark hk]
    exact .nil
  | text hs =>
    obtain ⟨previous, after, ht⟩ := List.forall_mem_singleton.mp hshaped
    exact hs.omits ht
  | node _ _ _ ih =>
    rw [Outline.textsOf_node]
    exact ih hshaped
  | grown _ _ _ ihus ihvs =>
    obtain ⟨hus, hvs⟩ := List.forall_mem_append.mp hshaped
    rw [Outline.textsOf_node, wording_append, ← List.singleton_append, Outline.textsOf_append]
    exact (ihus hus).append (ihvs hvs)
  | joined _ _ ihus ihvs =>
    obtain ⟨hus, hvs⟩ := List.forall_mem_append.mp hshaped
    rw [Outline.textsOf_node, wording_append, ← List.singleton_append, Outline.textsOf_append]
    exact (ihus hus).append (ihvs hvs)

/-- Names and literals come before the end. -/
theorem Covers.wording_rest {q : Position} {cs : List Char} {us vs : List Token} (h : Covers q cs (us ++ vs))
    (hend : ∀ t ∈ vs.head?, t.kind = .eof) : wording vs = [] := by
  obtain ⟨words, final, hfinal, -, hwords⟩ := h.eof_last
  cases vs with
  | nil => rfl
  | cons t vs =>
    have ht : t.kind = .eof := hend t rfl
    rcases vs.eq_nil_or_concat with rfl | ⟨vs, u, rfl⟩
    · exact wording_of_mark (by rw [ht]; rfl)
    · -- a second token behind the end
      rw [List.concat_eq_append, ← List.cons_append, ← List.append_assoc] at hfinal
      obtain ⟨rfl, -⟩ := List.append_inj' hfinal rfl
      exact absurd ht (hwords t (by simp))

/-- **Names and literals are kept.** The names and literals of a program, from left to right, are those of its source in
their order, and among them words that are spellings of keywords. -/
theorem parse_wording {source : String} {ts : List Token} {p : Program} (ht : tokenize source = .ok ts)
    (hp : parse ts = .ok p) : Omits (· ∈ Keyword.allSpellings) p.outline.texts (wording ts) := by
  obtain ⟨d, ⟨os, ⟨us, hover, hphrase⟩, hprogram⟩, hend⟩ := parse_outlined hp
  have hts : ts = us ++ d.rest := hover.rest
  subst hts
  have hrest : wording d.rest = [] := by
    refine (Scanner.covers_tokens ht).wording_rest fun t ht => ?_
    rwa [Cursor.peek, List.headD_eq_head?_getD, Option.mem_def.mp ht] at hend
  rw [wording_append, hrest, List.append_nil, (List.cons.inj hprogram).1]
  exact hphrase.omits fun t htmem => Scanner.tokens_shaped ht (List.mem_append_left _ htmem)

/-- Keywords as the name of a member, of a type, behind a point and of a key, and quotes of three sorts. -/
def keywordNames : String :=
  r#"classe A { construtor(x: nulo[]) { isso.se = { funcao: 'a', "b": `c` }; } }"#

theorem parse_wording_keywords : ∃ ts p, tokenize keywordNames = .ok ts ∧ parse ts = .ok p ∧
    p.outline.texts = ["A", "constructor", "x", "nulo", "se", "funcao", "'a'", "\"b\"", "`c`"] ∧
    wording ts = ["A", "x", "se", "'a'", "\"b\"", "`c`"] ∧
    Omits (· ∈ Keyword.allSpellings) p.outline.texts (wording ts) := by
  have hcheck : ((tokenize keywordNames).toOption.any fun ts => (parse ts).toOption.any fun p =>
      p.outline.texts == ["A", "constructor", "x", "nulo", "se", "funcao", "'a'", "\"b\"", "`c`"] &&
      wording ts == ["A", "x", "se", "'a'", "\"b\"", "`c`"]) = true := by decide +kernel
  obtain ⟨ts, hts, hcheck⟩ := exists_ok_of_any hcheck
  obtain ⟨p, hp, hcheck⟩ := exists_ok_of_any hcheck
  obtain ⟨htexts, hwording⟩ := Bool.and_eq_true_iff.mp hcheck
  exact ⟨ts, p, hts, hp, eq_of_beq htexts, eq_of_beq hwording, parse_wording hts hp⟩

end Vernacular
