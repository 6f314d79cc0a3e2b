import Vernacular.Token.Basic

/-!
# Lexemes

How the characters of a text fall into blanks, comments and lexemes. Everything here works on the characters that are
left and gives back the part it took and the part it left, so that the two together are what it was given
(`trivia_append`, `Lexeme.read_append`).

- `trivia` takes the blanks and closed comments at the head of a text;
- `Lexeme.read` takes the one lexeme at the head of a text, or says what is wrong there. On a text that is not empty,
  a lexeme without a flaw is not empty either (`Lexeme.read_taken_ne_nil`).
-/

namespace Vernacular

/-! ## Character classes -/

/-- The characters that separate lexemes: space, tab, line feed, form feed and carriage return. -/
def isBlank (c : Char) : Bool :=
  c == ' ' || c == '\t' || c == '\n' || c == '\x0c' || c == '\r'

/-- Words begin with an ASCII letter. -/
def isLetter (c : Char) : Bool :=
  c.isAlpha

/-- Words go on with ASCII letters, ASCII digits and underscores. -/
def isWordChar (c : Char) : Bool :=
  c.isAlphanum || c == '_'

/-- The digits of the bases two, eight, ten and sixteen; letters count in either case. -/
def isDigitIn (base : Nat) (c : Char) : Bool :=
  if base ≤ 10 then c.isDigit && c.toNat - '0'.toNat < base
  else c.isDigit || ('a' ≤ c && c ≤ 'f') || ('A' ≤ c && c ≤ 'F')

/-- The base that the letter after a leading zero announces. -/
def baseOf? (c : Char) : Option Nat :=
  if c == 'x' || c == 'X' then some 16
  else if c == 'b' || c == 'B' then some 2
  else if c == 'o' || c == 'O' then some 8
  else none

/-- The mark in front of a decimal exponent. -/
def isExponentMark (c : Char) : Bool :=
  c == 'e' || c == 'E'

/-- Signs of an exponent. -/
def isSign (c : Char) : Bool :=
  c == '+' || c == '-'

/-! ## Blanks and comments -/

/-- The inside of a block comment with its closing mark, and what follows; `none` if no closing mark comes. -/
def closeComment : List Char → Option (List Char × List Char)
  | [] => none
  | '*' :: '/' :: cs => some (['*', '/'], cs)
  | c :: cs => (closeComment cs).map fun (inside, rest) => (c :: inside, rest)

theorem closeComment_append {cs inside rest : List Char} (h : closeComment cs = some (inside, rest)) :
    inside ++ rest = cs := by
  fun_induction closeComment cs generalizing inside rest with
  | case1 => simp at h
  | case2 cs => simp only [Option.some.injEq, Prod.mk.injEq] at h; obtain ⟨rfl, rfl⟩ := h; rfl
  | case3 c cs _ ih =>
    obtain ⟨⟨i, r⟩, hr, he⟩ := Option.map_eq_some_iff.mp h
    simp only [Prod.mk.injEq] at he
    obtain ⟨rfl, rfl⟩ := he
    simp [ih hr]

/-- The blanks and comments at the head of a text, and what follows them. A block comment that is never closed is left
in place. -/
def trivia (cs : List Char) : List Char × List Char :=
  match cs with
  | [] => ([], [])
  | '/' :: '/' :: cs =>
    let (taken, rest) := trivia (cs.dropWhile (· != '\n'))
    ('/' :: '/' :: cs.takeWhile (· != '\n') ++ taken, rest)
  | '/' :: '*' :: cs =>
    match _h : closeComment cs with
    | none => ([], '/' :: '*' :: cs)
    | some (inside, after) =>
      let (taken, rest) := trivia after
      ('/' :: '*' :: inside ++ taken, rest)
  | c :: cs =>
    if isBlank c then
      let (taken, rest) := trivia cs
      (c :: taken, rest)
    else ([], c :: cs)
termination_by cs.length
decreasing_by
  · have := congrArg List.length (List.takeWhile_append_dropWhile (p := (· != '\n')) (l := cs))
    simp only [List.length_append, List.length_cons] at this ⊢; omega
  · have := congrArg List.length (closeComment_append _h)
    simp only [List.length_append, List.length_cons] at this ⊢; omega
  · simp

theorem trivia_append (cs : List Char) : (trivia cs).1 ++ (trivia cs).2 = cs := by
  fun_induction trivia cs with
  | case1 => rfl
  | case2 cs taken rest h ih => simp_all
  | case3 cs h => rfl
  | case4 cs inside after h taken rest h' ih =>
    rw [h'] at ih
    simp only [List.cons_append, List.append_assoc, ih, closeComment_append h]
  | case5 c cs _ _ _ taken rest h ih => simp_all
  | case6 c cs => rfl

/-! ## Numbers and quoted texts -/

/-- Whether an exponent such as `e5` or `E-3` is at the head of a text. -/
def startsExponent : List Char → Bool
  | e :: s :: d :: _ => isExponentMark e && (s.isDigit || isSign s && d.isDigit)
  | [e, d] => isExponentMark e && d.isDigit
  | _ => false

/-- Whether the text after a point cannot belong to a number: `1.x` is a property and `1..` is no fraction. -/
def startsProperty : List Char → Bool
  | c :: _ => isLetter c || c == '_' || c == '.'
  | [] => false

theorem startsProperty_of_isDigit {d : Char} {cs : List Char} (h : d.isDigit = true) :
    startsProperty (d :: cs) = false := by
  have hd : 48 ≤ d.toNat ∧ d.toNat ≤ 57 := by
    simpa [Char.isDigit, UInt32.le_iff_toNat_le] using h
  have hu : d ≠ '_' := by rintro rfl; exact absurd hd (by decide)
  have hp : d ≠ '.' := by rintro rfl; exact absurd hd (by decide)
  have ha : d.isAlpha = false := by
    delta Char.isAlpha Char.isUpper Char.isLower
    simp [UInt32.le_iff_toNat_le]
    omega
  simp [startsProperty, isLetter, ha, hu, hp]

/-- The fraction at the head of a text, and what follows it. -/
def fraction : List Char → List Char × List Char
  | '.' :: cs =>
    if !startsProperty cs || startsExponent cs then ('.' :: cs.takeWhile Char.isDigit, cs.dropWhile Char.isDigit)
    else ([], '.' :: cs)
  | cs => ([], cs)

/-- The exponent at the head of a text, what follows it, and whether it is complete. -/
def exponent : List Char → Bool × List Char × List Char
  | [] => (true, [], [])
  | e :: cs =>
    if isExponentMark e then
      let sign := (cs.take 1).filter isSign
      let after := cs.drop sign.length
      (after.head?.any Char.isDigit, e :: sign ++ after.takeWhile Char.isDigit, after.dropWhile Char.isDigit)
    else (true, [], e :: cs)

/-- The decimal number at the head of a text, what follows it, and whether it is complete. -/
def decimal (cs : List Char) : Bool × List Char × List Char :=
  let (whole, cs₁) := (cs.takeWhile Char.isDigit, cs.dropWhile Char.isDigit)
  let (part, cs₂) := fraction cs₁
  let (complete, power, rest) := exponent cs₂
  (complete, whole ++ part ++ power, rest)

/-- The number at the head of a text, what follows it, and whether it is complete. -/
def number : List Char → Bool × List Char × List Char
  | '0' :: x :: cs =>
    match baseOf? x with
    | some base =>
      (cs.head?.any (isDigitIn base), '0' :: x :: cs.takeWhile (isDigitIn base), cs.dropWhile (isDigitIn base))
    | none => decimal ('0' :: x :: cs)
  | cs => decimal cs

/-- The inside of a text quoted by `q` with its closing quote, and what follows; `none` if no closing quote comes. A
backslash takes the next character with it. -/
def closeQuote (q : Char) : List Char → Option (List Char × List Char)
  | [] => none
  | ['\\'] => none
  | '\\' :: c :: cs => (closeQuote q cs).map fun (inside, rest) => ('\\' :: c :: inside, rest)
  | c :: cs =>
    if c == q then some ([c], cs) else (closeQuote q cs).map fun (inside, rest) => (c :: inside, rest)

theorem fraction_append (cs : List Char) : (fraction cs).1 ++ (fraction cs).2 = cs := by
  unfold fraction
  split
  · split <;> simp
  · rfl

theorem take_filter_append_drop (p : Char → Bool) (cs : List Char) :
    (cs.take 1).filter p ++ cs.drop ((cs.take 1).filter p).length = cs := by
  cases cs with
  | nil => rfl
  | cons c cs => by_cases h : p c = true <;> simp [h]

theorem exponent_append (cs : List Char) : (exponent cs).2.1 ++ (exponent cs).2.2 = cs := by
  unfold exponent
  split
  · rfl
  · rename_i e cs
    split
    · simp only [List.cons_append, List.append_assoc, List.takeWhile_append_dropWhile, take_filter_append_drop]
    · rfl

theorem decimal_append (cs : List Char) : (decimal cs).2.1 ++ (decimal cs).2.2 = cs := by
  simp only [decimal, List.append_assoc, exponent_append, fraction_append, List.takeWhile_append_dropWhile]

theorem number_append (cs : List Char) : (number cs).2.1 ++ (number cs).2.2 = cs := by
  unfold number
  split
  · split
    · simp
    · exact decimal_append _
  · exact decimal_append _

/-- The inside of a text quoted by `q`, up to the first quote that no backslash takes. -/
inductive Closed (q : Char) : List Char → Prop
  | quote : q ≠ '\\' → Closed q [q]
  | escape (c : Char) {cs : List Char} : Closed q cs → Closed q ('\\' :: c :: cs)
  | cons {c : Char} {cs : List Char} : c ≠ q → c ≠ '\\' → Closed q cs → Closed q (c :: cs)

theorem ne_backslash {c : Char} {cs : List Char} (hone : c = '\\' → cs = [] → False)
    (hmore : ∀ d ds, c = '\\' → cs = d :: ds → False) : c ≠ '\\' := fun hc => by
  cases cs with
  | nil => exact hone hc rfl
  | cons d ds => exact hmore d ds hc rfl

/-- What is closed is the inside of a text, and the rest is left. -/
theorem closeQuote_closed {q : Char} {cs inside rest : List Char} (h : closeQuote q cs = some (inside, rest)) :
    Closed q inside ∧ inside ++ rest = cs := by
  fun_induction closeQuote q cs generalizing inside rest with
  | case1 => cases h
  | case2 => cases h
  | case3 c cs ih =>
    obtain ⟨⟨i, r⟩, hr, he⟩ := Option.map_eq_some_iff.mp h
    cases he
    obtain ⟨hi, rfl⟩ := ih hr
    exact ⟨.escape c hi, rfl⟩
  | case4 c cs hone hmore hc =>
    cases h
    obtain rfl := eq_of_beq hc
    exact ⟨.quote (ne_backslash hone hmore), rfl⟩
  | case5 c cs hone hmore hc ih =>
    obtain ⟨⟨i, r⟩, hr, he⟩ := Option.map_eq_some_iff.mp h
    cases he
    obtain ⟨hi, rfl⟩ := ih hr
    exact ⟨.cons (by simpa using hc) (ne_backslash hone hmore) hi, rfl⟩

/-! ## Lexemes -/

/-- What can be wrong with the text at the head of which a lexeme is wanted. -/
inductive Flaw where
  /-- No lexeme begins with this character. -/
  | character (c : Char)
  | openString
  | openTemplate
  | openComment
  /-- Digits are missing after this much of a number. -/
  | number (text : String)
deriving DecidableEq, Repr

/-- One step of reading: the kind of the lexeme or its flaw, the characters it took, and those it left. -/
structure Lexeme where
  kind : Except Flaw Kind
  taken : List Char
  rest : List Char

namespace Lexeme

/-- The word at the head of a text. `named` says that a plain name is due. -/
def word (named : Bool) (cs : List Char) : Lexeme :=
  let taken := cs.takeWhile isWordChar
  ⟨.ok (if named then .identifier else .ofWord (String.ofList taken)), taken, cs.dropWhile isWordChar⟩

/-- The number at the head of a text. -/
def number (cs : List Char) : Lexeme :=
  let (complete, taken, rest) := Vernacular.number cs
  ⟨if complete then .ok .number else .error (.number (String.ofList taken)), taken, rest⟩

/-- The text after the opening quote `q`. An open one takes all that is left. -/
def quoted (q : Char) (kind : Kind) (flaw : Flaw) (cs : List Char) : Lexeme :=
  match closeQuote q cs with
  | some (inside, rest) => ⟨.ok kind, q :: inside, rest⟩
  | none => ⟨.error flaw, q :: cs, []⟩

/-- The symbol at the head of a text that begins with `c`. -/
def symbol (c : Char) (cs : List Char) : Lexeme :=
  match Symbol.head? (c :: cs) with
  | some s => ⟨.ok (.symbol s), (c :: cs).take s.text.length, (c :: cs).drop s.text.length⟩
  | none => ⟨.error (.character c), [], c :: cs⟩

/-- The lexeme at the head of a text without leading blanks and comments. `named` says that a plain name is due if a
word comes. -/
def read (named : Bool) : List Char → Lexeme
  | [] => ⟨.ok .eof, [], []⟩
  | '/' :: '*' :: cs => ⟨.error .openComment, '/' :: '*' :: cs, []⟩
  | c :: cs =>
    if isLetter c then word named (c :: cs)
    else if c.isDigit || c == '.' && cs.head?.any Char.isDigit then number (c :: cs)
    else if c == '"' || c == '\'' then quoted c .string .openString cs
    else if c == '`' then quoted c .template .openTemplate cs
    else symbol c cs

theorem quoted_append (q : Char) (kind : Kind) (flaw : Flaw) (cs : List Char) :
    (quoted q kind flaw cs).taken ++ (quoted q kind flaw cs).rest = q :: cs := by
  unfold quoted
  split
  · rename_i h; simp [(closeQuote_closed h).2]
  · simp

theorem quoted_taken_ne_nil (q : Char) (kind : Kind) (flaw : Flaw) (cs : List Char) :
    (quoted q kind flaw cs).taken ≠ [] := by
  unfold quoted
  split <;> simp

theorem symbol_append (c : Char) (cs : List Char) : (symbol c cs).taken ++ (symbol c cs).rest = c :: cs := by
  unfold symbol
  split
  · exact List.take_append_drop _ _
  · rfl

/-- What a lexeme took and what it left is what there was. -/
theorem read_append (named : Bool) (cs : List Char) :
    (read named cs).taken ++ (read named cs).rest = cs := by
  unfold read
  split
  · rfl
  · simp
  · split
    · simp [word]
    · split
      · exact number_append _
      · split
        · exact quoted_append ..
        · split
          · exact quoted_append ..
          · exact symbol_append ..

theorem number_taken_ne_nil {c : Char} {cs : List Char}
    (h : (c.isDigit || c == '.' && cs.head?.any Char.isDigit) = true) : (number (c :: cs)).taken ≠ [] := by
  have hd : (decimal (c :: cs)).2.1 ≠ [] := by
    cases hc : c.isDigit with
    | true => simp [decimal, hc]
    | false =>
      simp only [hc, Bool.false_or, Bool.and_eq_true, beq_iff_eq] at h
      obtain ⟨rfl, h⟩ := h
      cases cs with
      | nil => simp at h
      | cons d cs =>
        have hd : d.isDigit = true := by simpa using h
        have hp : startsProperty (d :: cs) = false := startsProperty_of_isDigit hd
        simp [decimal, fraction, hp, hc]
  have hn : (Vernacular.number (c :: cs)).2.1 ≠ [] := by
    unfold Vernacular.number
    split
    · rename_i x ds he
      cases he
      split
      · simp
      · exact hd
    · exact hd
  simpa [number] using hn

/-- Something is taken wherever there is no flaw and text is left. -/
theorem read_taken_ne_nil {named : Bool} {cs : List Char} {k : Kind} (hk : (read named cs).kind = .ok k)
    (hne : k ≠ .eof) : (read named cs).taken ≠ [] := by
  unfold read at hk ⊢
  split at hk
  · cases hk; exact absurd rfl hne
  · cases hk
  · rename_i c cs _
    split at hk
    · rename_i hl
      have hw : isWordChar c = true := by
        simp only [isLetter] at hl
        simp [isWordChar, Char.isAlphanum, hl]
      simp [hl, word, hw]
    · rename_i hl
      rw [if_neg hl]
      split at hk
      · rename_i hn
        rw [if_pos hn]
        exact number_taken_ne_nil hn
      · rename_i hn
        rw [if_neg hn]
        split at hk
        · rename_i hq
          rw [if_pos hq]
          exact quoted_taken_ne_nil _ _ _ _
        · rename_i hq
          rw [if_neg hq]
          split at hk
          · rename_i ht
            rw [if_pos ht]
            exact quoted_taken_ne_nil _ _ _ _
          · rename_i ht
            rw [if_neg ht]
            unfold symbol at hk ⊢
            cases hs : Symbol.head? (c :: cs) with
            | none => simp [hs] at hk
            | some s => simpa [hs] using Symbol.text_ne_empty s

/-- A lexeme that is neither a flaw nor the end leaves less than there was. -/
theorem read_rest_lt {named : Bool} {cs : List Char} {k : Kind} (hk : (read named cs).kind = .ok k)
    (hne : k ≠ .eof) : (read named cs).rest.length < cs.length := by
  have hlen := congrArg List.length (read_append named cs)
  have hpos := List.length_pos_iff.mpr (read_taken_ne_nil hk hne)
  simp only [List.length_append] at hlen
  omega

end Lexeme

end Vernacular
