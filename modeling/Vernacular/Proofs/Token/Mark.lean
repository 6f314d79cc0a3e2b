import Vernacular.Proofs.Token.Lexical
import Vernacular.Proofs.Token.Lossless

/-!
# Marks: tokens without places

A `Mark` is what the grammar sees of a token: its kind, its text, and perhaps that it stands on the line on which the
one before it ends. A text is scanned mark by mark (`Scans`); scans can be put together (`Scans.trans`), so that the
marks of a text are found from those of its parts.

- `tokenize_of_scans`: a text that is scanned to its end has tokens, and they fit its marks (`Fits`).
-/

namespace Vernacular

variable {ms : List Mark} {cs : List Char}

/-- A token without its place. -/
structure Mark where
  kind : Kind
  text : String
  /-- It stands on the line on which the one before it ends. -/
  tight : Bool
deriving DecidableEq, Repr

namespace Mark

/-- The mark of a word. -/
def word (s : String) : Mark := ⟨.ofWord s, s, false⟩

/-- The mark of a word behind a point or a hash. -/
def name (s : String) : Mark := ⟨.identifier, s, false⟩

def symbol (s : Symbol) : Mark := ⟨.symbol s, s.text, false⟩

/-- The mark of the end. -/
def eof : Mark := ⟨.eof, "", false⟩

end Mark

/-- Tokens with these marks, behind the token `previous`. -/
def Fits : Option Token → List Token → List Mark → Prop
  | _, [], [] => True
  | previous, t :: ts, m :: ms =>
    (t.kind = m.kind ∧ t.text = m.text ∧ (m.tight = true → ∃ p ∈ previous, p.stop.line = t.start.line)) ∧
      Fits (some t) ts ms
  | _, _, _ => False

/-- Tokens that fit marks have their kinds and texts. -/
theorem Fits.kinds_texts {previous : Option Token} {ts : List Token} {ms : List Mark} (h : Fits previous ts ms) :
    ts.map (fun t => (t.kind, t.text)) = ms.map fun m => (m.kind, m.text) := by
  induction ts generalizing previous ms with
  | nil =>
    cases ms with
    | nil => rfl
    | cons m ms => exact h.elim
  | cons t ts ih =>
    cases ms with
    | nil => exact h.elim
    | cons m ms =>
      obtain ⟨⟨hk, ht, -⟩, hrest⟩ := h
      rw [List.map_cons, List.map_cons, ih hrest, hk, ht]

/-! ## Scanning -/

/-- A place in a text that is being scanned. -/
structure Spot where
  /-- The last mark announces a plain name. -/
  named : Bool
  /-- A line has ended since the last mark, or there was none. -/
  broken : Bool
  rest : List Char

/-- Marks and blanks lead from one place in a text to another. -/
inductive Scans : Spot → List Mark → Spot → Prop where
  | done {s : Spot} : Scans s [] s
  | blank {named broken : Bool} {c : Char} {cs : List Char} {ms : List Mark} {s : Spot} : isBlank c = true →
      Scans ⟨named, broken || c == '\n', cs⟩ ms s → Scans ⟨named, broken, c :: cs⟩ ms s
  | mark {named broken : Bool} {m : Mark} {cs : List Char} {ms : List Mark} {s : Spot} :
      LexemeAt named m.kind m.text.toList cs → m.kind ≠ .eof → (m.tight = true → broken = false) →
      Scans ⟨m.kind.namesNext, false, cs⟩ ms s → Scans ⟨named, broken, m.text.toList ++ cs⟩ (m :: ms) s

theorem Scans.trans {s₁ s₂ s₃ : Spot} {ns : List Mark} (h : Scans s₁ ms s₂) (h' : Scans s₂ ns s₃) :
    Scans s₁ (ms ++ ns) s₃ := by
  induction h with
  | done => exact h'
  | blank hc _ ih => exact .blank hc (ih h')
  | mark hm hk ht _ ih => exact .mark hm hk ht (ih h')

/-- Blanks are stepped over. -/
theorem Scans.blanks {named broken : Bool} {bs : List Char} (hb : ∀ b ∈ bs, isBlank b = true) :
    Scans ⟨named, broken, bs ++ cs⟩ [] ⟨named, broken || bs.contains '\n', cs⟩ := by
  induction bs generalizing broken with
  | nil =>
    rw [List.nil_append, List.contains_nil, Bool.or_false]
    exact .done
  | cons b bs ih =>
    have h : Scans ⟨named, broken || b == '\n', bs ++ cs⟩ [] _ := ih fun c hc => hb c (by simp [hc])
    rw [List.contains_cons, BEq.comm, ← Bool.or_assoc]
    exact .blank (hb b (by simp)) h

/-- Blanks before something that is neither a blank nor a comment. -/
theorem trivia_blanks {bs : List Char} (hb : ∀ b ∈ bs, isBlank b = true) (h : trivia cs = ([], cs)) :
    trivia (bs ++ cs) = (bs, cs) := by
  induction bs with
  | nil => exact h
  | cons b bs ih =>
    have hblank := hb b (by simp)
    have hne : b ≠ '/' := by rintro rfl; exact absurd hblank (by decide)
    rw [List.cons_append, trivia]
    · simp [hblank, ih fun c hc => hb c (by simp [hc])]
    · exact fun _ hc _ => hne hc
    · exact fun _ hc _ => hne hc

theorem Position.advanceOver_line {p : Position} (h : '\n' ∉ cs) : (p.advanceOver cs).line = p.line := by
  induction cs generalizing p with
  | nil => rfl
  | cons c cs ih =>
    simp only [List.mem_cons, not_or] at h
    rw [advanceOver_cons, ih h.2, advance, if_neg (Ne.symm h.1)]

/-- A scanner before blanks and a lexeme gives that lexeme. -/
theorem Scanner.next_of_lexemeAt {sc : Scanner} {bs text : List Char} {named : Bool} {k : Kind}
    (hrest : sc.rest = bs ++ (text ++ cs)) (hbs : ∀ b ∈ bs, isBlank b = true)
    (hnamed : sc.previous.any Kind.namesNext = named)
    (h : LexemeAt named k text cs) :
    sc.next = (.ok ⟨k, String.ofList text, sc.position.advanceOver bs, (sc.position.advanceOver bs).advanceOver text⟩,
      ⟨cs, (sc.position.advanceOver bs).advanceOver text, some k⟩) := by
  simp only [next, skipTrivia, skip, hrest, trivia_blanks hbs h.trivia, hnamed, h.read]

theorem LexemeAt.eof (named : Bool) : LexemeAt named .eof [] [] := ⟨by rw [List.nil_append, Vernacular.trivia], rfl⟩

/-- A scan to the end of the text gives the tokens of a scanner that stands at its beginning, with blanks between. -/
theorem Scans.tokens {s s' : Spot} (h : Scans s ms s') (hend : s'.rest = []) (sc : Scanner) (bs : List Char)
    (previous : Option Token) (hrest : sc.rest = bs ++ s.rest) (hbs : ∀ b ∈ bs, isBlank b = true)
    (hnamed : sc.previous.any Kind.namesNext = s.named) (hprev : ∀ p ∈ previous, p.stop = sc.position)
    (hbroken : s.broken = false → previous ≠ none ∧ '\n' ∉ bs) :
    ∃ ts, sc.tokens = .ok ts ∧ Fits previous ts (ms ++ [Mark.eof]) := by
  induction h generalizing sc bs previous with
  | done =>
    rw [hend] at hrest
    have hnext := Scanner.next_of_lexemeAt hrest hbs rfl (LexemeAt.eof _)
    exact ⟨_, Scanner.tokens_of_eof hnext rfl, ⟨rfl, rfl, nofun⟩, trivial⟩
  | @blank named broken c cs ms s hc _ ih =>
    refine ih hend sc (bs ++ [c]) previous (by simpa using hrest) ?_ hnamed hprev ?_
    · intro b hb
      rcases List.mem_append.mp hb with hb | hb
      · exact hbs b hb
      · exact List.mem_singleton.mp hb ▸ hc
    · intro hb
      simp only [Bool.or_eq_false_iff, beq_eq_false_iff_ne] at hb
      obtain ⟨hsome, hbs⟩ := hbroken hb.1
      exact ⟨hsome, by simpa [hbs] using hb.2.symm⟩
  | @mark named broken m cs ms s hm hk ht _ ih =>
    have hnext := Scanner.next_of_lexemeAt hrest hbs hnamed hm
    rw [String.ofList_toList] at hnext
    let stop := (sc.position.advanceOver bs).advanceOver m.text.toList
    obtain ⟨ts, hts, hfits⟩ := ih hend ⟨cs, stop, some m.kind⟩ []
      (some ⟨m.kind, m.text, sc.position.advanceOver bs, stop⟩)
      rfl (by simp) rfl (by simp) (by simp)
    refine ⟨⟨m.kind, m.text, sc.position.advanceOver bs, stop⟩ :: ts, ?_, ⟨rfl, rfl, fun htight => ?_⟩, hfits⟩
    · rw [Scanner.tokens_of_ok hnext hk, hts]
      rfl
    obtain ⟨hsome, hline⟩ := hbroken (ht htight)
    obtain ⟨p, hp⟩ := Option.ne_none_iff_exists'.mp hsome
    exact ⟨p, hp, by rw [hprev p hp, Position.advanceOver_line hline]⟩

/-- A scan to the end meets no character with which neither a blank nor a lexeme begins. -/
theorem Scans.head?_ne {s s' : Spot} (h : Scans s ms s') (hend : s'.rest = []) {c : Char} (hblank : isBlank c = false)
    (hc : ∀ named rest, (Lexeme.read named (c :: rest)).kind = .error (.character c)) : s.rest.head? ≠ some c := by
  cases h with
  | done => simp [hend]
  | blank hb =>
    rintro ⟨⟩
    rw [hb] at hblank
    cases hblank
  | @mark named broken m cs ms _ hm =>
    intro hhead
    have hread := hm.read
    cases htext : m.text.toList ++ cs with
    | nil => simp [htext] at hhead
    | cons d rest =>
      simp only [htext, List.head?_cons, Option.some.injEq] at hhead
      subst hhead
      have herror := hc named rest
      rw [← htext, hread] at herror
      cases herror

/-- A text that is scanned to its end has tokens, and they fit its marks. -/
theorem tokenize_of_scans {text : String} {s : Spot} (h : Scans ⟨false, true, text.toList⟩ ms s) (hend : s.rest = []) :
    ∃ ts, tokenize text = .ok ts ∧ Fits none ts (ms ++ [Mark.eof]) := by
  have hrest : (Scanner.ofText text).rest = text.toList ∧ (Scanner.ofText text).previous = none := by
    have hmark := h.head?_ne hend (c := Scanner.byteOrderMark) rfl fun _ _ => rfl
    unfold Scanner.ofText
    cases htext : text.toList with
    | nil => exact ⟨rfl, rfl⟩
    | cons c cs =>
      have hc : c ≠ Scanner.byteOrderMark := by
        rintro rfl
        exact hmark (by rw [htext]; rfl)
      simp [hc]
  exact h.tokens hend _ [] none hrest.1 (by simp) (by rw [hrest.2]; rfl) (by simp) (by simp)

end Vernacular
