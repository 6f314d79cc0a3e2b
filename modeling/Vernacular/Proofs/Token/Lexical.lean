import Vernacular.Token.Lexeme

/-!
# Lexemes at the head of a longer text

A lexeme ends where the next character cannot belong to it. So a text that is a lexeme by itself (`IsLexeme`) is read in
the same way at the head of a longer text, if what follows it begins suitably, and what was read at the head of a longer
text is a lexeme by itself.

- words: `Lexeme.read_word`, before anything that goes on no word;
- numbers: `IsNumber` says which texts are numbers, `Lexeme.read_number` that they are read before anything that goes on
  no word and is no point;
- quoted texts: `Lexeme.read_quoted`, before anything;
- symbols: `Lexeme.read_symbol`, before anything that makes no longer symbol (`Symbol.stopsAt`);
- `isLexeme_of_read`: what was read, by itself.
-/

namespace Vernacular

variable {cs inside power r rest : List Char} {c q : Char} {k : Kind} {s : Symbol}

/-- The text is one lexeme of the given kind and nothing more. -/
def IsLexeme (k : Kind) (s : String) : Prop := Lexeme.read false s.toList = ⟨.ok k, s.toList, []⟩

/-- A stretch with `p` is taken up to the first character without it. -/
theorem takeWhile_append_stop {p : Char → Bool} (h : ∀ c ∈ cs, p c = true) (hr : ∀ c ∈ r.head?, p c = false) :
    (cs ++ r).takeWhile p = cs ∧ (cs ++ r).dropWhile p = r := by
  have hr : r.takeWhile p = [] ∧ r.dropWhile p = r := by
    cases r with
    | nil => exact ⟨rfl, rfl⟩
    | cons c r =>
      have := hr c rfl
      simp [this]
  rw [List.takeWhile_append_of_pos h, List.dropWhile_append_of_pos h, hr.1, hr.2, List.append_nil]
  exact ⟨rfl, rfl⟩

/-- A text that begins no open comment is read by its first character. -/
theorem Lexeme.read_cons {named : Bool} (h : c = '/' → cs.head? ≠ some '*') :
    Lexeme.read named (c :: cs) =
      if isLetter c then word named (c :: cs)
      else if c.isDigit || c == '.' && cs.head?.any Char.isDigit then number (c :: cs)
      else if c == '"' || c == '\'' then quoted c .string .openString cs
      else if c == '`' then quoted c .template .openTemplate cs
      else symbol c cs := by
  rw [Lexeme.read]
  rintro ds rfl rfl
  exact h rfl rfl

/-! ## Words -/

/-- A letter, and characters that go on a word. -/
def isWordText (cs : List Char) : Bool := cs.head?.any isLetter && cs.all isWordChar

/-- A word is read up to the first character that goes on no word. Behind a mark that announces a name it is a plain
name. -/
theorem Lexeme.read_word (named : Bool) (h : isWordText cs = true) (hr : ∀ c ∈ r.head?, isWordChar c = false) :
    Lexeme.read named (cs ++ r) = ⟨.ok (if named then .identifier else .ofWord (String.ofList cs)), cs, r⟩ := by
  simp only [isWordText, Bool.and_eq_true, List.all_eq_true] at h
  obtain ⟨hhead, hall⟩ := h
  cases cs with
  | nil => simp at hhead
  | cons c cs =>
    have hc : isLetter c = true := by simpa using hhead
    obtain ⟨ht, hd⟩ := takeWhile_append_stop hall hr
    rw [List.cons_append] at ht hd ⊢
    rw [read_cons (by rintro rfl; exact absurd hc (by decide)), if_pos hc, word, ht, hd]

/-- No spelling is shared by two keywords. -/
theorem Keyword.ofWord?_of_mem {k : Keyword} {w : String} (h : w ∈ k.spellings) : ofWord? w = some k := by
  have hall : ∀ k ∈ all, ∀ w ∈ k.spellings, ofWord? w = some k := by decide +kernel
  exact hall k (mem_all k) w h

/-- A spelling of a keyword is that keyword. -/
theorem Kind.ofWord_of_mem {k : Keyword} {w : String} (h : w ∈ k.spellings) : ofWord w = .keyword k := by
  rw [ofWord, Keyword.ofWord?_of_mem h]

theorem isWordChar_of_isLetter (h : isLetter c = true) : isWordChar c = true := by
  simp only [isLetter] at h
  simp [isWordChar, Char.isAlphanum, h]

/-! ## Numbers -/

/-- Nothing, or a point and digits. -/
def IsFraction (cs : List Char) : Prop := cs = [] ∨ ∃ ds, (∀ d ∈ ds, d.isDigit = true) ∧ cs = '.' :: ds

/-- Nothing, or a mark, perhaps a sign, and digits. -/
def IsExponent (cs : List Char) : Prop :=
  cs = [] ∨ ∃ m sign ds, isExponentMark m = true ∧ (∀ s ∈ sign, isSign s = true) ∧ sign.length ≤ 1 ∧ ds ≠ [] ∧
    (∀ d ∈ ds, d.isDigit = true) ∧ cs = m :: (sign ++ ds)

/-- The texts that are numbers. -/
inductive IsNumber : List Char → Prop where
  | inBase {x : Char} {base : Nat} {ds : List Char} : baseOf? x = some base → ds ≠ [] →
      (∀ d ∈ ds, isDigitIn base d = true) → IsNumber ('0' :: x :: ds)
  | decimal {whole part power : List Char} : (∀ d ∈ whole, d.isDigit = true) → IsFraction part → IsExponent power →
      (whole ≠ [] ∨ ∃ d ∈ part, d.isDigit = true) → IsNumber (whole ++ part ++ power)

/-- What follows a number: nothing that goes on a word, and no point. -/
def endsNumber (cs : List Char) : Prop := ∀ c ∈ cs.head?, isWordChar c = false ∧ c ≠ '.'

/-- What is read as the fraction of a number is one, perhaps an empty one. -/
theorem isFraction_fraction (cs : List Char) : IsFraction (fraction cs).1 := by
  unfold fraction
  split
  · split
    · exact .inr ⟨_, fun d hd => List.all_eq_true.mp List.all_takeWhile d hd, rfl⟩
    · exact .inl rfl
  · exact .inl rfl

/-- What is read as an exponent is one. -/
theorem isExponent_exponent (h : (exponent cs).1 = true) : IsExponent (exponent cs).2.1 := by
  unfold exponent at h ⊢
  split at h
  · exact .inl rfl
  · rename_i m cs
    split at h
    · rename_i hm
      refine .inr ⟨m, (cs.take 1).filter isSign,
        (cs.drop ((cs.take 1).filter isSign).length).takeWhile Char.isDigit, hm, ?_, ?_, ?_, ?_, ?_⟩
      · exact fun s hs => (List.mem_filter.mp hs).2
      · exact Nat.le_trans (List.length_filter_le ..) (List.length_take_le ..)
      · simp only at h
        cases hd : cs.drop ((cs.take 1).filter isSign).length with
        | nil => rw [hd] at h; cases h
        | cons d ds =>
          rw [hd] at h
          have hd : d.isDigit = true := by simpa using h
          simp [hd]
      · exact fun d hd => List.all_eq_true.mp List.all_takeWhile d hd
      · simp [hm]
    · rename_i hm
      simp only [hm]
      exact .inl rfl

/-- Where a number begins, there is a digit before or behind the point. -/
theorem exists_digit (hc : (c.isDigit || c == '.' && cs.head?.any Char.isDigit) = true) :
    (c :: cs).takeWhile Char.isDigit ≠ [] ∨ ∃ d ∈ (fraction ((c :: cs).dropWhile Char.isDigit)).1,
    d.isDigit = true := by
  cases hd : c.isDigit with
  | true => exact .inl (by simp [hd])
  | false =>
    simp only [hd, Bool.false_or, Bool.and_eq_true, beq_iff_eq] at hc
    obtain ⟨rfl, hc⟩ := hc
    cases cs with
    | nil => cases hc
    | cons d ds =>
      have hdigit : d.isDigit = true := by simpa using hc
      refine .inr ⟨d, ?_, hdigit⟩
      simp [fraction, hd, startsProperty_of_isDigit hdigit, hdigit]

/-- What was read as a number is one. -/
theorem isNumber_number (hc : (c.isDigit || c == '.' && cs.head?.any Char.isDigit) = true)
    (h : (number (c :: cs)).1 = true) : IsNumber (number (c :: cs)).2.1 := by
  have hdecimal (h : (decimal (c :: cs)).1 = true) : IsNumber (decimal (c :: cs)).2.1 := by
    refine .decimal ?_ (isFraction_fraction _) (isExponent_exponent h) (exists_digit hc)
    exact fun d hd => List.all_eq_true.mp List.all_takeWhile d hd
  unfold number at h ⊢
  split at h
  · rename_i x ds he
    cases he
    split at h
    · rename_i base hb
      simp only
      refine .inBase hb ?_ fun d hd => List.all_eq_true.mp List.all_takeWhile d hd
      cases ds with
      | nil => cases h
      | cons d ds =>
        have hd : isDigitIn base d = true := by simpa using h
        simp [hd]
    · exact hdecimal h
  · exact hdecimal h

theorem not_isDigit_point : '.'.isDigit = false := by decide

/-- The mark of an exponent is neither a digit nor a point. -/
theorem not_isDigit_of_isExponentMark {m : Char} (h : isExponentMark m = true) : m.isDigit = false ∧ m ≠ '.' := by
  simp only [isExponentMark, Bool.or_eq_true, beq_iff_eq] at h
  rcases h with rfl | rfl <;> decide

theorem not_isDigit_of_isSign {s : Char} (h : isSign s = true) : s.isDigit = false := by
  simp only [isSign, Bool.or_eq_true, beq_iff_eq] at h
  rcases h with rfl | rfl <;> decide

theorem not_isSign_of_isDigit {d : Char} (h : d.isDigit = true) : isSign d = false := by
  cases hs : isSign d with
  | false => rfl
  | true => rw [not_isDigit_of_isSign hs] at h; cases h

theorem isWordChar_of_isDigit {d : Char} (h : d.isDigit = true) : isWordChar d = true := by
  simp [isWordChar, Char.isAlphanum, h]

/-- An exponent is read before anything that does not go on its digits or, where it is empty, begins one. -/
theorem exponent_append_of_stops (h : IsExponent power)
    (hr : ∀ c ∈ rest.head?, (power ≠ [] → c.isDigit = false) ∧ (power = [] → isExponentMark c = false)) :
    exponent (power ++ rest) = (true, power, rest) := by
  rcases h with rfl | ⟨m, sign, ds, hm, hsign, hlen, hne, hds, rfl⟩
  · cases rest with
    | nil => rfl
    | cons c rest => simp [exponent, (hr c rfl).2 rfl]
  · have hsplit : ((sign ++ ds ++ rest).take 1).filter isSign = sign ∧
        (sign ++ ds ++ rest).drop sign.length = ds ++ rest := by
      cases sign with
      | nil =>
        cases ds with
        | nil => exact absurd rfl hne
        | cons d ds => simp [not_isSign_of_isDigit (hds d (by simp))]
      | cons s sign =>
        obtain rfl : sign = [] := by simpa using hlen
        simp [hsign s (by simp)]
    obtain ⟨ht, hd⟩ := takeWhile_append_stop (p := Char.isDigit) hds fun c hc => (hr c hc).1 (by simp)
    have hany : (ds ++ rest).head?.any Char.isDigit = true := by
      cases ds with
      | nil => exact absurd rfl hne
      | cons d ds => simpa using hds d (by simp)
    simp only [List.cons_append, exponent, hm, if_true, hsplit.1, hsplit.2, hany, ht, hd]

/-- An exponent is read before anything that ends a number. -/
theorem exponent_append_stop (h : IsExponent power) (hr : endsNumber rest) :
    exponent (power ++ rest) = (true, power, rest) := by
  refine exponent_append_of_stops h fun c hc => ⟨fun _ => ?_, fun _ => ?_⟩
  · exact Bool.eq_false_iff.mpr fun h => by simpa [isWordChar_of_isDigit h] using (hr c hc).1
  · refine Bool.eq_false_iff.mpr fun hm => ?_
    have hword := (hr c hc).1
    simp only [isExponentMark, Bool.or_eq_true, beq_iff_eq] at hm
    rcases hm with rfl | rfl <;> exact absurd hword (by decide)

/-- At an exponent that is not empty an exponent starts, whatever follows it. -/
theorem startsExponent_append (h : IsExponent power) (hne : power ≠ []) (rest : List Char) :
    startsExponent (power ++ rest) = true := by
  obtain ⟨m, sign, ds, hm, hsign, hlen, hds, hdigits, rfl⟩ := h.resolve_left hne
  obtain ⟨d, ds, rfl⟩ := List.exists_cons_of_ne_nil hds
  have hd := hdigits d (by simp)
  cases sign with
  | nil =>
    cases hrest : ds ++ rest with
    | nil => simp [startsExponent, hm, hd, hrest]
    | cons c cs => simp [startsExponent, hm, hd, hrest]
  | cons s sign =>
    obtain rfl : sign = [] := by simpa using hlen
    simp [startsExponent, hm, hd, hsign s (by simp)]

/-- A fraction is read before an exponent and anything that ends a number. -/
theorem fraction_append_stop {part : List Char} (hp : IsFraction part) (he : IsExponent power) (hr : endsNumber rest) :
    fraction (part ++ (power ++ rest)) = (part, power ++ rest) := by
  have hpoint : (power ++ rest).head? ≠ some '.' := by
    rcases he with rfl | ⟨m, sign, ds, hm, -, -, -, -, rfl⟩
    · exact fun h => (hr '.' h).2 rfl
    · simpa using (not_isDigit_of_isExponentMark hm).2
  rcases hp with rfl | ⟨ds, hds, rfl⟩
  · rw [List.nil_append, fraction]
    intro cs hcs
    rw [hcs] at hpoint
    exact hpoint rfl
  · have hdigit : ∀ c ∈ (power ++ rest).head?, c.isDigit = false := by
      rcases he with rfl | ⟨m, sign, es, hm, -, -, -, -, rfl⟩
      · exact fun c hc => Bool.eq_false_iff.mpr fun h => by simpa [isWordChar_of_isDigit h] using (hr c hc).1
      · simpa using (not_isDigit_of_isExponentMark hm).1
    obtain ⟨ht, hd⟩ := takeWhile_append_stop hds hdigit
    have hcond : (!startsProperty (ds ++ (power ++ rest)) || startsExponent (ds ++ (power ++ rest))) = true := by
      cases ds with
      | cons d ds => simp [startsProperty_of_isDigit (hds d (by simp))]
      | nil =>
        by_cases hpower : power = []
        · subst hpower
          cases rest with
          | nil => rfl
          | cons c rest =>
            obtain ⟨hw, hp⟩ := hr c rfl
            have hl : isLetter c = false := Bool.eq_false_iff.mpr fun h => by
              rw [isWordChar_of_isLetter h] at hw; cases hw
            have hu : (c == '_') = false := Bool.eq_false_iff.mpr fun h => by
              rw [eq_of_beq h] at hw; exact absurd hw (by decide)
            simp [startsProperty, hl, hu, hp]
        · rw [Bool.or_eq_true]
          exact .inr (startsExponent_append he hpower rest)
    simp only [List.cons_append, fraction, hcond, if_true, ht, hd]

/-- A decimal number is read to its end, if what follows does not go on it. -/
theorem decimal_append_stop {whole part : List Char} (hw : ∀ d ∈ whole, d.isDigit = true) (hp : IsFraction part)
    (he : IsExponent power) (hr : endsNumber rest) :
    decimal (whole ++ (part ++ (power ++ rest))) = (true, whole ++ part ++ power, rest) := by
  have hdigit : ∀ c ∈ (part ++ (power ++ rest)).head?, c.isDigit = false := by
    rcases hp with rfl | ⟨ds, -, rfl⟩
    · rcases he with rfl | ⟨m, sign, es, hm, -, -, -, -, rfl⟩
      · exact fun c hc => Bool.eq_false_iff.mpr fun h => by simpa [isWordChar_of_isDigit h] using (hr c hc).1
      · simpa using (not_isDigit_of_isExponentMark hm).1
    · simp [not_isDigit_point]
  obtain ⟨ht, hd⟩ := takeWhile_append_stop hw hdigit
  simp only [decimal, ht, hd, fraction_append_stop hp he hr, exponent_append_stop he hr]

/-- The second character of a decimal number announces no base. -/
theorem baseOf?_eq_none (h : c.isDigit = true ∨ c = '.' ∨ isExponentMark c = true ∨ isWordChar c = false) :
    baseOf? c = none := by
  have hne : ∀ x ∈ ['x', 'X', 'b', 'B', 'o', 'O'], c ≠ x := by
    rintro x hx rfl
    simp only [List.mem_cons, List.not_mem_nil, or_false] at hx
    rcases hx with rfl | rfl | rfl | rfl | rfl | rfl <;> exact absurd h (by decide)
  simp only [List.mem_cons, List.not_mem_nil, or_false, forall_eq_or_imp, forall_eq] at hne
  simp [baseOf?, hne]

theorem isLetter_of_lower (ha : 'a'.val ≤ c.val) (hz : c.val ≤ 'z'.val) : isLetter c = true :=
  Bool.or_eq_true_iff.mpr (.inr (Bool.and_eq_true_iff.mpr ⟨decide_eq_true ha, decide_eq_true hz⟩))

theorem isLetter_of_upper (ha : 'A'.val ≤ c.val) (hz : c.val ≤ 'Z'.val) : isLetter c = true :=
  Bool.or_eq_true_iff.mpr (.inl (decide_eq_true ⟨ha, hz⟩))

/-- A digit of any base may stand in a word, so a number has to be told from a word that goes on it. -/
theorem isWordChar_of_isDigitIn {base : Nat} (h : isDigitIn base c = true) : isWordChar c = true := by
  unfold isDigitIn at h
  split at h
  · exact isWordChar_of_isDigit (Bool.and_eq_true_iff.mp h).1
  · simp only [Bool.or_eq_true, Bool.and_eq_true, decide_eq_true_eq, Char.le_def] at h
    rcases h with (h | h) | h
    · exact isWordChar_of_isDigit h
    · have hf : 'f'.val ≤ 'z'.val := by decide
      exact isWordChar_of_isLetter (isLetter_of_lower h.1 (UInt32.le_trans h.2 hf))
    · have hf : 'F'.val ≤ 'Z'.val := by decide
      exact isWordChar_of_isLetter (isLetter_of_upper h.1 (UInt32.le_trans h.2 hf))

/-- A number with no mark for a base is decimal. -/
theorem number_eq_decimal (h : ∀ x ds, cs = '0' :: x :: ds → baseOf? x = none) : number cs = decimal cs := by
  unfold number
  split
  · rename_i x ds
    rw [h x ds rfl]
  · rfl

/-- A number is read before anything that ends it. -/
theorem number_append_stop (h : IsNumber cs) (hr : endsNumber rest) : number (cs ++ rest) = (true, cs, rest) := by
  cases h with
  | @inBase x base ds hb hne hds =>
    obtain ⟨ht, hd⟩ := takeWhile_append_stop hds fun c hc => Bool.eq_false_iff.mpr fun h => by
      simpa [isWordChar_of_isDigitIn h] using (hr c hc).1
    have hany : (ds ++ rest).head?.any (isDigitIn base) = true := by
      obtain ⟨d, ds, rfl⟩ := List.exists_cons_of_ne_nil hne
      simpa using hds d (by simp)
    simp only [List.cons_append, number, hb, hany, ht, hd]
  | @decimal whole part power hw hp he hsome =>
    rw [List.append_assoc, List.append_assoc, number_eq_decimal]
    · exact decimal_append_stop hw hp he hr
    · intro x ds hcs
      -- the second character is a digit, or begins what follows the digits
      refine baseOf?_eq_none ?_
      cases whole with
      | nil =>
        rcases hp with rfl | ⟨ds, -, rfl⟩
        · simp at hsome
        · cases hcs
      | cons d whole =>
        cases whole with
        | cons d' whole =>
          cases hcs
          exact .inl (hw _ (by simp))
        | nil =>
          have hcs : part ++ (power ++ rest) = x :: ds := (List.cons.inj hcs).2
          rcases hp with rfl | ⟨es, -, rfl⟩
          · rcases he with rfl | ⟨m, sign, es, hm, -, -, -, -, rfl⟩
            · exact .inr (.inr (.inr (hr x (by rw [List.nil_append, List.nil_append] at hcs; rw [hcs]; rfl)).1))
            · cases hcs
              exact .inr (.inr (.inl hm))
          · cases hcs
            exact .inr (.inl rfl)

/-- A number begins with a digit, or with a point before one. -/
theorem IsNumber.exists_cons (h : IsNumber cs) :
    ∃ c ds, cs = c :: ds ∧ (c.isDigit = true ∨ c = '.' ∧ ds.head?.any Char.isDigit = true) := by
  cases h with
  | inBase => exact ⟨_, _, rfl, .inl rfl⟩
  | @decimal whole part power hw hp he hsome =>
    cases whole with
    | cons d whole => exact ⟨d, _, rfl, .inl (hw d (by simp))⟩
    | nil =>
      rcases hp with rfl | ⟨ds, hds, rfl⟩
      · simp at hsome
      · cases ds with
        | nil => simp [not_isDigit_point] at hsome
        | cons d ds => exact ⟨'.', _, rfl, .inr ⟨rfl, by simpa using hds d (by simp)⟩⟩

/-- Where a number stands, a number is read. -/
theorem Lexeme.read_of_isNumber (named : Bool) (h : IsNumber cs) (rest : List Char) :
    Lexeme.read named (cs ++ rest) = Lexeme.number (cs ++ rest) := by
  obtain ⟨c, ds, rfl, hc⟩ := h.exists_cons
  have hnumber : (c.isDigit || c == '.' && (ds ++ rest).head?.any Char.isDigit) = true := by
    rcases hc with hd | ⟨rfl, hd⟩
    · simp [hd]
    · cases ds with
      | nil => cases hd
      | cons d ds => simpa using hd
  have hletter : isLetter c = false := by
    rcases hc with hd | ⟨rfl, -⟩
    · have : startsProperty [c] = false := startsProperty_of_isDigit hd
      simp only [startsProperty, Bool.or_eq_false_iff] at this
      exact this.1.1
    · decide
  rw [List.cons_append, read_cons, if_neg (by simp [hletter]), if_pos hnumber]
  rintro rfl
  simp at hc

/-- A number is read to its end. -/
theorem Lexeme.read_number (named : Bool) (h : IsNumber cs) (hr : endsNumber rest) :
    Lexeme.read named (cs ++ rest) = ⟨.ok .number, cs, rest⟩ := by
  rw [read_of_isNumber named h, Lexeme.number, number_append_stop h hr]
  rfl

/-! ## Quoted texts -/

/-- A closing quote is looked for one character after the other. -/
theorem closeQuote_cons (h : c ≠ '\\') (cs : List Char) : closeQuote q (c :: cs) =
    if c == q then some ([c], cs) else (closeQuote q cs).map fun (inside, rest) => (c :: inside, rest) := by
  rw [closeQuote]
  · exact fun hc _ => h hc
  · exact fun _ _ hc _ => h hc

/-- What follows the closing quote does not matter. -/
theorem Closed.closeQuote_append (h : Closed q inside) (more : List Char) :
    closeQuote q (inside ++ more) = some (inside, more) := by
  induction h with
  | quote hq => simp [closeQuote_cons hq]
  | escape c _ ih => simp [closeQuote, ih]
  | cons hc hslash _ ih => simp [closeQuote_cons hslash, hc, ih]

/-- A quote and the kind of the texts that it encloses. -/
def quoteKind? (q : Char) : Option Kind :=
  if q == '"' || q == '\'' then some .string else if q == '`' then some .template else none

/-- A string or template is read up to its closing quote. -/
theorem Lexeme.read_quoted (named : Bool) (hq : quoteKind? q = some k) (h : closeQuote q inside = some (inside, []))
    (rest : List Char) :
    Lexeme.read named (q :: inside ++ rest) = ⟨.ok k, q :: inside, rest⟩ := by
  have hclose := (closeQuote_closed h).1.closeQuote_append rest
  unfold quoteKind? at hq
  split at hq
  · rename_i hs
    cases hq
    simp only [Bool.or_eq_true, beq_iff_eq] at hs
    rcases hs with rfl | rfl <;> rw [List.cons_append, read_cons fun h => absurd h (by decide)] <;>
      simp [quoted, hclose, show isLetter '"' = false from rfl, show isLetter '\'' = false from rfl, Char.isDigit]
  · split at hq
    · rename_i ht
      cases hq
      obtain rfl := eq_of_beq ht
      rw [List.cons_append, read_cons fun h => absurd h (by decide)]
      simp [quoted, hclose, show isLetter '`' = false from rfl, Char.isDigit]
    · cases hq

/-! ## Symbols -/

namespace Symbol

/-- The characters that make a longer symbol of a symbol. -/
def followers (s : Symbol) : List Char :=
  all.filterMap fun s' =>
    if s.text.toList.isPrefixOf s'.text.toList then (s'.text.toList.drop s.text.toList.length).head? else none

/-- Before this character the symbol is read as it is: no longer symbol, comment or number begins so. -/
def stopsAt (s : Symbol) (c : Char) : Bool :=
  !s.followers.contains c && !(s == dot && c.isDigit) && !(s == slash && (c == '/' || c == '*'))

/-- No symbol has a blank in it. -/
theorem not_isBlank_of_mem : (all.all fun s => s.text.toList.all fun c => !isBlank c) = true := by
  decide +kernel

/-- Before a blank every symbol is read as it is. -/
theorem stopsAt_of_isBlank (s : Symbol) (h : isBlank c = true) : s.stopsAt c = true := by
  have hf : c ∉ s.followers := by
    intro hmem
    obtain ⟨s', hs', hc⟩ := List.mem_filterMap.mp hmem
    split at hc
    · have hmem := List.mem_of_mem_drop (List.mem_of_mem_head? hc)
      have hblank := List.all_eq_true.mp (List.all_eq_true.mp not_isBlank_of_mem s' hs') c hmem
      rw [h] at hblank
      cases hblank
    · cases hc
  have hrest : c.isDigit = false ∧ (c == '/' || c == '*') = false := by
    simp only [isBlank, Bool.or_eq_true, beq_iff_eq] at h
    rcases h with (((rfl | rfl) | rfl) | rfl) | rfl <;> decide
  simp only [stopsAt, List.contains_eq_mem, hf, hrest.1, hrest.2, decide_false, Bool.and_false, Bool.not_false,
    Bool.and_self]

/-- A blank ends every symbol. -/
theorem stopsAt_space (s : Symbol) : s.stopsAt ' ' = true := s.stopsAt_of_isBlank rfl

/-- The symbols that come before another one in the list of all are no beginnings of it. -/
theorem not_prefix_of_before : (all.all fun s => (all.takeWhile (· != s)).all fun s' =>
    !s'.text.toList.isPrefixOf s.text.toList) = true := by
  decide +kernel

/-- A symbol is read before anything that makes no longer one. -/
theorem head?_append_stop (h : ∀ c ∈ rest.head?, s.stopsAt c = true) : head? (s.text.toList ++ rest) = some s := by
  have hall : ∃ bs, all = all.takeWhile (· != s) ++ s :: bs := by cases s <;> exact ⟨_, rfl⟩
  obtain ⟨bs, hall⟩ := hall
  refine List.find?_eq_some_iff_append.mpr ⟨?_, _, bs, hall, fun s' hs' => ?_⟩
  · simp
  · have hbefore := List.all_eq_true.mp (List.all_eq_true.mp not_prefix_of_before s (mem_all s)) s' hs'
    simp only [Bool.not_eq_true', ← Bool.not_eq_true, List.isPrefixOf_iff_prefix] at hbefore ⊢
    intro hp
    -- of two beginnings of one text one is a beginning of the other
    rcases List.prefix_or_prefix_of_prefix hp (List.prefix_append s.text.toList rest) with hp' | ⟨r, hr⟩
    · exact hbefore hp'
    · cases r with
      | nil =>
        rw [List.append_nil] at hr
        exact hbefore (hr ▸ List.prefix_refl _)
      | cons c r =>
        rw [← hr, List.prefix_append_right_inj] at hp
        obtain ⟨r', hr'⟩ := hp
        have hstop := h c (by rw [← hr']; rfl)
        simp only [stopsAt, Bool.and_eq_true, Bool.not_eq_true', List.contains_eq_mem, decide_eq_false_iff_not] at hstop
        refine hstop.1.1 (List.mem_filterMap.mpr ⟨s', mem_all s', ?_⟩)
        simp [← hr]

/-- Symbols begin with no letter, digit, quote or blank; one that begins with a slash or a point goes on with neither a
comment nor a digit. -/
def opensWell (s : Symbol) : Bool :=
  match s.text.toList with
  | [] => false
  | c :: cs => !isLetter c && !c.isDigit && (quoteKind? c).isNone && !isBlank c
      && (c != '/' || (s == slash && cs == []) || cs.head? == some '=') &&
        (c != '.' || (s == dot && cs == []) || cs.head? == some '.')

/-- No symbol begins as a word, a number, a string or a comment does. -/
theorem opensWell_eq (s : Symbol) : s.opensWell = true := by
  cases s <;> decide +kernel

end Symbol

/-- The first character of a symbol, and what may follow it. -/
theorem Symbol.exists_cons (h : ∀ c ∈ rest.head?, s.stopsAt c = true) :
    ∃ c cs, s.text.toList = c :: cs ∧ isLetter c = false ∧ c.isDigit = false ∧ quoteKind? c = none ∧ isBlank c = false ∧
      (c = '.' → ∀ d ∈ (cs ++ rest).head?, d.isDigit = false) ∧
      (c = '/' → ∀ d ∈ (cs ++ rest).head?, d ≠ '/' ∧ d ≠ '*') := by
  have hopens := s.opensWell_eq
  unfold opensWell at hopens
  split at hopens
  · cases hopens
  · rename_i c cs htext
    simp only [Bool.and_eq_true, Bool.not_eq_true', Bool.or_eq_true, bne_iff_ne, beq_iff_eq, Option.isNone_iff_eq_none]
      at hopens
    obtain ⟨⟨⟨⟨⟨hl, hd⟩, hq⟩, hb⟩, hslash⟩, hdot⟩ := hopens
    refine ⟨c, cs, htext, hl, hd, hq, hb, fun hc => ?_, fun hc => ?_⟩
    · rcases hdot with (hne | ⟨rfl, rfl⟩) | hcs
      · exact absurd hc hne
      · intro d hd
        have := h d hd
        simp only [stopsAt, Bool.and_eq_true, Bool.not_eq_true', beq_self_eq_true, Bool.true_and] at this
        exact this.1.2
      · intro d hd
        simp only [List.head?_append, hcs, Option.some_or, Option.mem_def, Option.some.injEq] at hd
        exact hd ▸ not_isDigit_point
    · rcases hslash with (hne | ⟨rfl, rfl⟩) | hcs
      · exact absurd hc hne
      · intro d hd
        have := h d hd
        simp only [stopsAt, Bool.and_eq_true, Bool.not_eq_true', beq_self_eq_true, Bool.true_and, Bool.or_eq_false_iff,
          beq_eq_false_iff_ne] at this
        exact this.2
      · intro d hd
        simp only [List.head?_append, hcs, Option.some_or, Option.mem_def, Option.some.injEq] at hd
        subst hd
        decide

/-- A symbol is read to its end, if no longer one begins in the same way. -/
theorem Lexeme.read_symbol {n : Bool} (h : ∀ c ∈ r.head?, s.stopsAt c = true) :
    Lexeme.read n (s.text.toList ++ r) = ⟨.ok (.symbol s), s.text.toList, r⟩ := by
  have hhead := Symbol.head?_append_stop h
  obtain ⟨c, cs, htext, hl, hd, hq, -, hpoint, hslash⟩ := Symbol.exists_cons h
  have hlen : s.text.length = (c :: cs).length := by rw [← htext, String.length_toList]
  have hnumber : (c.isDigit || c == '.' && (cs ++ r).head?.any Char.isDigit) = false := by
    rw [hd, Bool.false_or]
    refine Bool.eq_false_iff.mpr fun hc => ?_
    simp only [Bool.and_eq_true, beq_iff_eq, Option.any_eq_true] at hc
    obtain ⟨hc, d, hd, hdigit⟩ := hc
    rw [hpoint hc d hd] at hdigit
    cases hdigit
  unfold quoteKind? at hq
  split at hq
  · cases hq
  · rename_i hstring
    split at hq
    · cases hq
    · rename_i htemplate
      rw [htext, List.cons_append] at hhead ⊢
      rw [read_cons fun hc hstar => (hslash hc _ hstar).2 rfl, if_neg (by rw [hl]; exact Bool.false_ne_true), hnumber,
        if_neg Bool.false_ne_true, if_neg hstring, if_neg htemplate, symbol, hhead]
      simp [hlen]

/-! ## All lexemes -/

/-- A text that begins with neither a blank nor a comment. -/
theorem trivia_cons_stop (hb : isBlank c = false) (hs : c = '/' → ∀ d ∈ cs.head?, d ≠ '/' ∧ d ≠ '*') :
    trivia (c :: cs) = ([], c :: cs) := by
  rw [trivia]
  · simp [hb]
  · rintro ds rfl rfl
    exact (hs rfl _ rfl).1 rfl
  · rintro ds rfl rfl
    exact (hs rfl _ rfl).2 rfl

/-- At the head of a text stands a lexeme of kind `k`, with neither blanks nor comments before it; `rest` follows. -/
structure LexemeAt (named : Bool) (k : Kind) (text rest : List Char) : Prop where
  trivia : trivia (text ++ rest) = ([], text ++ rest)
  read : Lexeme.read named (text ++ rest) = ⟨.ok k, text, rest⟩

theorem not_isBlank_of_isWordChar (h : isWordChar c = true) : isBlank c = false ∧ c ≠ '/' := by
  refine ⟨Bool.eq_false_iff.mpr fun hb => ?_, ?_⟩
  · simp only [isBlank, Bool.or_eq_true, beq_iff_eq] at hb
    rcases hb with (((rfl | rfl) | rfl) | rfl) | rfl <;> exact absurd h (by decide)
  · rintro rfl
    exact absurd h (by decide)

/-- A word stands at a place if it is read there. -/
theorem LexemeAt.word (named : Bool) (h : isWordText cs = true) (hr : ∀ c ∈ r.head?, isWordChar c = false) :
    LexemeAt named (if named then .identifier else .ofWord (String.ofList cs)) cs r := by
  refine ⟨?_, Lexeme.read_word named h hr⟩
  cases cs with
  | nil => cases h
  | cons c cs =>
    simp only [isWordText, Bool.and_eq_true, List.all_cons] at h
    obtain ⟨hb, hs⟩ := not_isBlank_of_isWordChar h.2.1
    exact trivia_cons_stop hb fun hc => absurd hc hs

/-- A number stands at a place if it is read there. -/
theorem LexemeAt.number (named : Bool) (h : IsNumber cs) (hr : endsNumber rest) : LexemeAt named .number cs rest := by
  refine ⟨?_, Lexeme.read_number named h hr⟩
  obtain ⟨c, ds, rfl, hd | ⟨rfl, -⟩⟩ := h.exists_cons
  · obtain ⟨hb, hs⟩ := not_isBlank_of_isWordChar (isWordChar_of_isDigit hd)
    exact trivia_cons_stop hb fun hc => absurd hc hs
  · exact trivia_cons_stop (by decide) fun hc => absurd hc (by decide)

theorem LexemeAt.quoted (named : Bool) (hq : quoteKind? q = some k) (h : closeQuote q inside = some (inside, []))
    (rest : List Char) : LexemeAt named k (q :: inside) rest := by
  refine ⟨?_, Lexeme.read_quoted named hq h rest⟩
  have hfirst : isBlank q = false ∧ q ≠ '/' := by
    unfold quoteKind? at hq
    split at hq
    · rename_i hs
      simp only [Bool.or_eq_true, beq_iff_eq] at hs
      rcases hs with rfl | rfl <;> decide
    · split at hq
      · rename_i ht
        obtain rfl := eq_of_beq ht
        decide
      · cases hq
  exact trivia_cons_stop hfirst.1 fun hc => absurd hc hfirst.2

theorem LexemeAt.symbol {named : Bool} (h : ∀ c ∈ rest.head?, s.stopsAt c = true) :
    LexemeAt named (.symbol s) s.text.toList rest := by
  refine ⟨?_, Lexeme.read_symbol h⟩
  obtain ⟨c, cs, htext, -, -, -, hb, -, hslash⟩ := Symbol.exists_cons h
  rw [htext]
  exact trivia_cons_stop hb hslash

/-- Every word is of a kind of words. -/
theorem Kind.isWord_ofWord (w : String) : (Kind.ofWord w).isWord = true := by
  unfold Kind.ofWord
  split
  · rfl
  · split
    · rfl
    · split <;> rfl

/-- What a lexeme that was read is, by itself. -/
theorem Lexeme.read_inv {named : Bool} (h : (read named cs).kind = .ok k) (hne : k ≠ .eof) :
    (k.isWord = true ∧ isWordText (read named cs).taken = true ∧
        k = if named then .identifier else .ofWord (String.ofList (read named cs).taken)) ∨
      (k = .number ∧ IsNumber (read named cs).taken) ∨
      (∃ q inside, quoteKind? q = some k ∧ (read named cs).taken = q :: inside ∧
        closeQuote q inside = some (inside, [])) ∨
      ∃ s, k = .symbol s := by
  have hquoted {q : Char} {k' : Kind} {flaw : Flaw} {cs : List Char} (hq : quoteKind? q = some k')
      (h : (quoted q k' flaw cs).kind = .ok k) : ∃ q' inside, quoteKind? q' = some k ∧
        (quoted q k' flaw cs).taken = q' :: inside ∧ closeQuote q' inside = some (inside, []) := by
    unfold quoted at h ⊢
    split at h
    · rename_i inside rest hc
      cases h
      refine ⟨q, inside, hq, rfl, ?_⟩
      simpa using (closeQuote_closed hc).1.closeQuote_append []
    · cases h
  cases cs with
  | nil => cases h; exact absurd rfl hne
  | cons c cs =>
    by_cases hcomment : c = '/' ∧ cs.head? = some '*'
    · obtain ⟨rfl, hstar⟩ := hcomment
      cases cs with
      | nil => cases hstar
      | cons d cs => cases hstar; cases h
    · rw [read_cons fun hc hs => hcomment ⟨hc, hs⟩] at h ⊢
      split at h
      · rename_i hl
        rw [if_pos hl]
        cases h
        refine .inl ⟨?_, by simp [word, isWordText, isWordChar_of_isLetter hl, hl], rfl⟩
        split
        · rfl
        · exact Kind.isWord_ofWord _
      · rename_i hl
        rw [if_neg hl]
        split at h
        · rename_i hn
          rw [if_pos hn]
          unfold number at h ⊢
          simp only at h ⊢
          split at h
          · rename_i hcomplete
            cases h
            exact .inr (.inl ⟨rfl, isNumber_number hn hcomplete⟩)
          · cases h
        · rename_i hn
          rw [if_neg hn]
          split at h
          · rename_i hq
            rw [if_pos hq]
            exact .inr (.inr (.inl (hquoted (by simp [quoteKind?, hq]) h)))
          · rename_i hq
            rw [if_neg hq]
            split at h
            · rename_i ht
              rw [if_pos ht]
              exact .inr (.inr (.inl (hquoted (by simp [quoteKind?, hq, ht]) h)))
            · unfold symbol at h
              split at h
              · cases h
                exact .inr (.inr (.inr ⟨_, rfl⟩))
              · cases h

/-- A word is a lexeme. -/
theorem isLexeme_word {s : String} (h : isWordText s.toList = true) : IsLexeme (.ofWord s) s := by
  have hread : Lexeme.read false (s.toList ++ []) = _ := Lexeme.read_word false h nofun
  simpa only [IsLexeme, List.append_nil, Bool.false_eq_true, if_false, String.ofList_toList] using hread

/-- A number is a lexeme. -/
theorem isLexeme_number {s : String} (h : IsNumber s.toList) : IsLexeme .number s := by
  have hread : Lexeme.read false (s.toList ++ []) = _ := Lexeme.read_number false h nofun
  simpa only [IsLexeme, List.append_nil] using hread

/-- A text in quotes is a lexeme. -/
theorem isLexeme_quoted {s : String} (hq : quoteKind? q = some k) (hs : s.toList = q :: inside)
    (h : closeQuote q inside = some (inside, [])) : IsLexeme k s := by
  have hread := Lexeme.read_quoted false hq h []
  simpa only [IsLexeme, List.append_nil, ← hs] using hread

/-- What makes a text a lexeme of its kind. -/
theorem IsLexeme.inv {s : String} (h : IsLexeme k s) (hne : k ≠ .eof) :
    (isWordText s.toList = true ∧ k = .ofWord s) ∨ (k = .number ∧ IsNumber s.toList) ∨
      (∃ q inside, quoteKind? q = some k ∧ s.toList = q :: inside ∧ closeQuote q inside = some (inside, [])) ∨
      ∃ s, k = .symbol s := by
  have hinv := Lexeme.read_inv (congrArg Lexeme.kind h) hne
  rw [IsLexeme] at h
  rw [h] at hinv
  exact hinv.imp_left fun hw => ⟨hw.2.1, by simpa using hw.2.2⟩

end Vernacular
