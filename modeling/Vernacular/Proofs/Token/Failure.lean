import Vernacular.Proofs.Token.Shape

/-!
# Flaws of a text

Reading stops at the first flaw, and no earlier: what stands before the flaw can be read by itself, and what stands at
it is no beginning of a lexeme, or of one that is never complete (`Flaw.Justified`).

The text before a flaw is read in two ways, alone and before the flaw. The readers look ahead, so the two runs could
differ where the text ends. They do so in one case only: a point behind a number belongs to it at the end of a text, and
not before a letter, an underscore or another point.

- `Scanner.next_justified`: what the scanner calls a flaw is one;
- `trivia_cut`, `number_cut`, `Lexeme.Opens.cut`: what is taken from a text is taken from its beginning too;
- `Scanner.Steps.cut`: so the tokens before a place can be read from the text before it;
- `Scanner.tokens_error`: a run that ends with a flaw;
- `tokenize_fails_closed`: both for a source, and that nothing is left open in a source without a flaw.
-/

namespace Vernacular

variable {cs kept : List Char} {s : Scanner} {c : Char}

/-! ## What justifies a flaw -/

/-- Digits are missing between the text taken for a number and what follows it. -/
inductive LacksDigits : List Char → List Char → Prop
  /-- Behind a letter that announces a base no digit of the base comes. -/
  | inBase {base : String × String} {x : Char} {rest : List Char} : base ∈ Numeral.bases → x ∈ base.1.toList →
      (∀ c ∈ rest.head?, c ∉ base.2.toList) → LacksDigits ['0', x] rest
  /-- Behind the mark of an exponent and the sign, if there is one, no digit comes. -/
  | inExponent {mantissa sign rest : List Char} {e : Char} : mantissa ∈ Numeral.mantissa.matches' → e ∈ ['e', 'E'] →
      sign ∈ [[], ['+'], ['-']] → (sign = [] → ∀ c ∈ rest.head?, c ∉ ['+', '-']) →
      (∀ c ∈ rest.head?, c.isDigit = false) → LacksDigits (mantissa ++ e :: sign) rest

/-- The text from the place of a flaw on is what the flaw says. -/
def Flaw.Justified : Flaw → List Char → Prop
  | character c, cs => cs.head? = some c ∧ isBlank c = false ∧ isLetter c = false ∧ c.isDigit = false ∧
      c ∉ ['"', '\'', '`'] ∧ ∀ s : Symbol, s.text.toList.head? ≠ some c
  | openString, cs => ∃ q ∈ ['"', '\''], ∃ body, cs = q :: body ∧ AllEscaped q body
  | openTemplate, cs => ∃ body, cs = '`' :: body ∧ AllEscaped '`' body
  | openComment, cs => ∃ body, cs = '/' :: '*' :: body ∧ ¬ ['*', '/'] <:+: body
  | number text, cs => ∃ rest, cs = text.toList ++ rest ∧ LacksDigits text.toList rest

/-- What `trivia` leaves begins with no blank, and a comment there is never closed. -/
theorem trivia_rest (cs : List Char) : (∀ c ∈ (trivia cs).2.head?, isBlank c = false) ∧
    ∀ ds, (trivia cs).2 = '/' :: '*' :: ds → closeComment ds = none := by
  fun_induction trivia cs with
  | case1 => exact ⟨fun c hc => (by cases hc), fun ds hds => (by cases hds)⟩
  | case2 cs taken rest h ih =>
    rw [h] at ih
    exact ih
  | case3 cs h =>
    refine ⟨by simp [isBlank], fun ds hds => ?_⟩
    cases hds
    exact h
  | case4 cs inside after h taken rest h' ih =>
    rw [h'] at ih
    exact ih
  | case5 c cs _ _ _ taken rest h ih =>
    rw [h] at ih
    exact ih
  | case6 c cs hline hblock hb =>
    refine ⟨by simpa using hb, fun ds hds => ?_⟩
    cases hds
    exact (hblock ds rfl rfl).elim

theorem not_infix_of_closeComment (h : closeComment cs = none) : ¬ ['*', '/'] <:+: cs := by
  fun_induction closeComment cs with
  | case1 => simp
  | case2 => cases h
  | case3 c cs hne ih =>
    rw [List.infix_cons_iff]
    rintro (⟨ds, hp⟩ | hi)
    · cases hp
      exact hne ds rfl rfl
    · exact ih (Option.map_eq_none_iff.mp h) hi

theorem takeWhile_of_not_any {p : Char → Bool} (h : cs.head?.any p = false) :
    cs.takeWhile p = [] ∧ cs.dropWhile p = cs ∧ ∀ c ∈ cs.head?, p c = false := by
  cases cs with
  | nil => exact ⟨rfl, rfl, nofun⟩
  | cons c cs =>
    have hc : p c = false := by simpa using h
    simp [hc]

theorem lacksDigits_exponent {mantissa : List Char} (hmantissa : mantissa ∈ Numeral.mantissa.matches')
    (h : (exponent cs).1 = false) : LacksDigits (mantissa ++ (exponent cs).2.1) (exponent cs).2.2 := by
  cases cs with
  | nil => cases h
  | cons e cs =>
    by_cases he : isExponentMark e = true
    · simp only [exponent, he, if_true] at h ⊢
      obtain ⟨ht, hd, hhead⟩ := takeWhile_of_not_any h
      rw [ht, hd, List.append_nil]
      refine .inExponent hmantissa (by simpa [isExponentMark] using he) ?_ (fun hsign => ?_) hhead
      · cases cs with
        | nil => simp
        | cons s cs =>
          by_cases hs : isSign s = true
          · simp only [isSign, Bool.or_eq_true, beq_iff_eq] at hs
            rcases hs with rfl | rfl <;> simp [isSign]
          · simp [hs]
      · rw [hsign, List.length_nil, List.drop_zero]
        rintro c hc
        cases cs with
        | nil => cases hc
        | cons s cs =>
          cases hc
          have hs : ¬ isSign c = true := by simpa using hsign
          simpa [isSign] using hs
    · simp [exponent, he] at h

/-- A number that is not complete lacks digits. -/
theorem lacksDigits_number (hc : (c.isDigit || c == '.' && cs.head?.any Char.isDigit) = true)
    (h : (number (c :: cs)).1 = false) : LacksDigits (number (c :: cs)).2.1 (number (c :: cs)).2.2 := by
  have hdecimal (h : (decimal (c :: cs)).1 = false) : LacksDigits (decimal (c :: cs)).2.1 (decimal (c :: cs)).2.2 :=
    lacksDigits_exponent (Numeral.mem_mantissa (fun d hd => List.all_eq_true.mp List.all_takeWhile d hd)
      (isFraction_fraction _) (exists_digit hc)) h
  unfold number at h ⊢
  split at h
  · rename_i x ds hcs
    cases hcs
    split at h
    · rename_i n hb
      obtain ⟨base, hbase, hx, hdigits⟩ := Numeral.exists_base hb
      obtain ⟨ht, hd, hhead⟩ := takeWhile_of_not_any h
      simp only [ht, hd]
      refine .inBase hbase hx fun c hc hmem => ?_
      have hno := hhead c hc
      rw [(hdigits c).mpr hmem] at hno
      cases hno
    · exact hdecimal h
  · exact hdecimal h

theorem Symbol.exists_single : (all.all fun s => all.any fun s' => s'.text.toList == s.text.toList.take 1) = true := by
  decide +kernel

/-- Where no symbol stands, the first character is that of none. -/
theorem Symbol.head?_ne_of_none (h : head? (c :: cs) = none) (s : Symbol) : s.text.toList.head? ≠ some c := by
  intro hs
  obtain ⟨s', hs', htake⟩ := List.any_eq_true.mp (List.all_eq_true.mp exists_single s (mem_all s))
  have hsingle : s'.text.toList = [c] := by
    rw [eq_of_beq htake, List.head?_eq_some_iff.mp hs |>.choose_spec]
    rfl
  have := List.find?_eq_none.mp h s' hs'
  simp [hsingle] at this

/-- A lexeme with a flaw stands where the flaw is justified. -/
theorem Lexeme.Opens.justified {named : Bool} {lexeme : Lexeme} {flaw : Flaw} (h : Opens named cs lexeme)
    (hk : lexeme.kind = .error flaw) (hblank : ∀ c ∈ cs.head?, isBlank c = false)
    (hcomment : ∀ ds, cs = '/' :: '*' :: ds → closeComment ds = none) : flaw.Justified cs := by
  cases h with
  | eof => cases hk
  | @openComment ds =>
    cases hk
    exact ⟨ds, rfl, not_infix_of_closeComment (hcomment ds rfl)⟩
  | word => cases hk
  | @number c cs hn =>
    simp only [Lexeme.number] at hk
    split at hk
    · cases hk
    · rename_i hcomplete
      cases hk
      refine ⟨(Vernacular.number (c :: cs)).2.2, ?_, ?_⟩
      · rw [String.toList_ofList, number_append]
      · rw [String.toList_ofList]
        exact lacksDigits_number hn (by simpa using hcomplete)
  | @quoted q k flaw' cs hq =>
    cases hclose : closeQuote q cs with
    | some closed => simp [Lexeme.quoted, hclose] at hk
    | none =>
      simp only [Lexeme.quoted, hclose, Except.error.injEq] at hk
      subst hk
      rcases hq with ⟨hq, -, rfl⟩ | ⟨rfl, -, rfl⟩
      · refine ⟨q, hq, cs, rfl, closeQuote_none ?_ hclose⟩
        rintro rfl
        simp at hq
      · exact ⟨cs, rfl, closeQuote_none (by decide) hclose⟩
  | @symbol c cs _ hl hn hq =>
    cases hs : Symbol.head? (c :: cs) with
    | some s => simp [Lexeme.symbol, hs] at hk
    | none =>
      simp only [Lexeme.symbol, hs, Except.error.injEq] at hk
      subst hk
      rw [Bool.or_eq_false_iff] at hn
      exact ⟨rfl, hblank c rfl, hl, hn.1, hq, Symbol.head?_ne_of_none hs⟩

/-- What the scanner calls a flaw is one, and stands behind the blanks and comments. -/
theorem Scanner.next_justified {s' : Scanner} {e : LexicalError} (h : s.next = (.error e, s')) :
    e.position = s.position.advanceOver (trivia s.rest).1 ∧ e.flaw.Justified (trivia s.rest).2 := by
  simp only [next] at h
  split at h
  · rename_i flaw hk
    cases h
    have hopens := Lexeme.opens_read (s.skipTrivia.previous.any Kind.namesNext) s.skipTrivia.rest
    exact ⟨rfl, hopens.justified hk (trivia_rest s.rest).1 (trivia_rest s.rest).2⟩
  · cases h

/-! ## Reading the beginning of a text -/

/-- As far as a class of characters goes at the head of a text, it goes in the beginning of the text. -/
theorem takeWhile_cut {p : Char → Bool} {cut : List Char} (h : cs.dropWhile p = kept ++ cut) :
    (cs.takeWhile p ++ kept).takeWhile p = cs.takeWhile p ∧ (cs.takeWhile p ++ kept).dropWhile p = kept := by
  refine takeWhile_append_stop (fun c hc => List.all_eq_true.mp List.all_takeWhile c hc) fun c hc => ?_
  have hd := List.head?_dropWhile_not p cs
  rw [h, List.mem_head?_append_of_mem_head? hc] at hd
  exact hd

/-- What follows the closing mark of a comment does not matter. -/
theorem closeComment_append_stop {inside rest : List Char} (h : closeComment cs = some (inside, rest)) :
    ∀ more, closeComment (inside ++ more) = some (inside, more) := by
  fun_induction closeComment cs generalizing inside rest with
  | case1 => cases h
  | case2 cs =>
    cases h
    exact fun more => rfl
  | case3 c cs hne ih =>
    obtain ⟨⟨i, r⟩, hr, he⟩ := Option.map_eq_some_iff.mp h
    cases he
    intro more
    have hi := ih hr
    rw [List.cons_append, closeComment, hi more]
    · rfl
    · -- a mark at the head would have closed the comment before
      rintro ds rfl hds
      cases i with
      | nil =>
        have := hi []
        cases this
      | cons d i =>
        cases hds
        exact hne (i ++ rest) rfl (closeComment_append hr).symm

theorem trivia_line (cs : List Char) : trivia ('/' :: '/' :: cs) =
    ('/' :: '/' :: cs.takeWhile (· != '\n') ++ (trivia (cs.dropWhile (· != '\n'))).1,
      (trivia (cs.dropWhile (· != '\n'))).2) := by
  rw [trivia]

theorem trivia_block {inside after : List Char} (h : closeComment cs = some (inside, after)) :
    trivia ('/' :: '*' :: cs) = ('/' :: '*' :: inside ++ (trivia after).1, (trivia after).2) := by
  rw [trivia]
  split
  · rename_i hnone
    rw [h] at hnone
    cases hnone
  · rename_i hsome
    rw [h] at hsome
    cases hsome
    rfl

theorem trivia_openComment (h : closeComment cs = none) : trivia ('/' :: '*' :: cs) = ([], '/' :: '*' :: cs) := by
  rw [trivia]
  split
  · rfl
  · rename_i hsome
    rw [h] at hsome
    cases hsome

theorem trivia_blank (h : isBlank c = true) (cs : List Char) :
    trivia (c :: cs) = (c :: (trivia cs).1, (trivia cs).2) := by
  have hslash : c ≠ '/' := by
    rintro rfl
    cases h
  rw [trivia, if_pos h]
  · exact fun _ hc => absurd hc hslash
  · exact fun _ hc => absurd hc hslash

/-- The blanks and comments at the head of a text are taken from its beginning too. -/
theorem trivia_cut {gap cut : List Char} (h : trivia cs = (gap, kept ++ cut)) : trivia (gap ++ kept) = (gap, kept) := by
  fun_induction trivia cs generalizing gap with
  | case1 =>
    obtain ⟨rfl, hnil⟩ := Prod.mk.inj h
    obtain ⟨rfl, -⟩ := List.append_eq_nil_iff.mp hnil.symm
    rw [List.append_nil, trivia]
  | case2 cs taken rest ht ih =>
    obtain ⟨rfl, rfl⟩ := Prod.mk.inj h
    have happend := trivia_append (cs.dropWhile (· != '\n'))
    rw [ht, ← List.append_assoc] at happend
    obtain ⟨htake, hdrop⟩ := takeWhile_cut happend.symm
    simp only [List.cons_append, List.append_assoc, trivia_line, htake, hdrop, ih ht]
  | case3 cs hopen =>
    obtain ⟨rfl, hkept⟩ := Prod.mk.inj h
    rw [List.nil_append]
    cases kept with
    | nil => rw [trivia]
    | cons c kept =>
      obtain ⟨rfl, htail⟩ := List.cons.inj hkept
      cases kept with
      | nil => exact trivia_cons_stop (by decide) fun _ d hd => by cases hd
      | cons c ds =>
        obtain ⟨rfl, rfl⟩ := List.cons.inj htail
        refine trivia_openComment ?_
        cases hclose : closeComment ds with
        | none => rfl
        | some closed =>
          -- a mark that closes the beginning closes the whole
          have hall := closeComment_append_stop hclose (closed.2 ++ cut)
          rw [← List.append_assoc, closeComment_append hclose] at hall
          cases hall.symm.trans hopen
  | case4 cs inside after hclose taken rest ht ih =>
    obtain ⟨rfl, rfl⟩ := Prod.mk.inj h
    simp only [List.cons_append, List.append_assoc, trivia_block (closeComment_append_stop hclose _), ih ht]
  | case5 c cs hline hblock hb taken rest ht ih =>
    obtain ⟨rfl, rfl⟩ := Prod.mk.inj h
    simp only [List.cons_append, trivia_blank hb, ih ht]
  | case6 c cs hline hblock hb =>
    obtain ⟨rfl, hkept⟩ := Prod.mk.inj h
    rw [List.nil_append]
    cases kept with
    | nil => rw [trivia]
    | cons d kept =>
      obtain ⟨rfl, rfl⟩ := List.cons.inj hkept
      refine trivia_cons_stop (by simpa using hb) fun hc d hd => ⟨?_, ?_⟩
      · rintro rfl
        obtain ⟨ds, rfl⟩ := List.head?_eq_some_iff.mp hd
        exact hline (ds ++ cut) hc rfl
      · rintro rfl
        obtain ⟨ds, rfl⟩ := List.head?_eq_some_iff.mp hd
        exact hblock (ds ++ cut) hc rfl

theorem exponent_stops (cs : List Char) : ∀ c ∈ (exponent cs).2.2.head?,
    ((exponent cs).2.1 ≠ [] → c.isDigit = false) ∧ ((exponent cs).2.1 = [] → isExponentMark c = false) := by
  unfold exponent
  split
  · exact nofun
  · rename_i e cs
    split
    · refine fun c hc => ⟨fun _ => ?_, nofun⟩
      have h := List.head?_dropWhile_not Char.isDigit (cs.drop ((cs.take 1).filter isSign).length)
      rw [Option.mem_def.mp hc] at h
      exact h
    · rename_i he
      rintro c ⟨⟩
      exact ⟨fun h => absurd rfl h, fun _ => by simpa using he⟩

theorem exponent_cut {power cut : List Char} (h : exponent cs = (true, power, kept ++ cut)) :
    exponent (power ++ kept) = (true, power, kept) := by
  have hpower : IsExponent (exponent cs).2.1 := isExponent_exponent (by rw [h])
  have hstops := exponent_stops cs
  rw [h] at hpower hstops
  exact exponent_append_of_stops hpower fun c hc => hstops c (List.mem_head?_append_of_mem_head? hc)

theorem startsExponent_of_append (h : startsExponent cs = true) (cut : List Char) :
    startsExponent (cs ++ cut) = true := by
  rcases cs with _ | ⟨e, _ | ⟨s, _ | ⟨d, cs⟩⟩⟩
  · cases h
  · cases h
  · cases cut with
    | nil => exact h
    | cons d cut =>
      simp only [startsExponent, Bool.and_eq_true] at h
      simp [startsExponent, h]
  · exact h

theorem exists_of_startsExponent (h : startsExponent cs = true) : ∃ e ds, cs = e :: ds ∧ isExponentMark e = true := by
  rcases cs with _ | ⟨e, _ | ⟨s, _ | ⟨d, cs⟩⟩⟩
  · cases h
  · cases h
  · exact ⟨e, _, rfl, (Bool.and_eq_true_iff.mp h).1⟩
  · exact ⟨e, _, rfl, (Bool.and_eq_true_iff.mp h).1⟩

theorem startsProperty_append (hne : cs ≠ []) (cut : List Char) : startsProperty (cs ++ cut) = startsProperty cs := by
  obtain ⟨c, cs, rfl⟩ := List.exists_cons_of_ne_nil hne
  rfl

/-- Whether a point belongs to a number is decided by what is taken behind it. -/
theorem point_cut {ds power cut : List Char} (hds : ds = ds.takeWhile Char.isDigit ++ (power ++ (kept ++ cut)))
    (hexponent : IsExponent power) (hpower : exponent (power ++ (kept ++ cut)) = (true, power, kept ++ cut))
    (h : (!startsProperty ds || startsExponent ds) = true) :
    (!startsProperty (ds.takeWhile Char.isDigit ++ (power ++ kept)) ||
      startsExponent (ds.takeWhile Char.isDigit ++ (power ++ kept))) = true := by
  by_cases hempty : ds.takeWhile Char.isDigit ++ (power ++ kept) = []
  · rw [hempty]
    rfl
  · have hsame : startsProperty ds = startsProperty (ds.takeWhile Char.isDigit ++ (power ++ kept)) := by
      rw [← startsProperty_append hempty cut, List.append_assoc, List.append_assoc, ← hds]
    rw [Bool.or_eq_true] at h ⊢
    refine h.imp (fun hproperty => by rw [← hsame, hproperty]) fun hstarts => ?_
    -- an exponent right behind the point: it is the whole of what was taken
    obtain ⟨e, es, rfl, he⟩ := exists_of_startsExponent hstarts
    have hnil : (e :: es).takeWhile Char.isDigit = [] := by simp [(not_isDigit_of_isExponentMark he).1]
    rw [hnil, List.nil_append] at hds ⊢
    refine startsExponent_append hexponent ?_ kept
    rintro rfl
    rw [← hds] at hpower
    simp [exponent, he] at hpower

/-- A fraction is taken from the beginning of a text too, unless nothing follows the point there. -/
theorem fraction_cut {part power cut : List Char} (h : fraction cs = (part, power ++ (kept ++ cut)))
    (hpower : exponent (power ++ (kept ++ cut)) = (true, power, kept ++ cut)) :
    fraction (part ++ (power ++ kept)) = (part, power ++ kept) ∨ part = [] ∧ power = [] ∧ kept = ['.'] := by
  have hexponent := isExponent_exponent (by rw [hpower])
  rw [hpower] at hexponent
  unfold fraction at h
  split at h
  · rename_i ds
    split at h
    · rename_i hcond
      obtain ⟨rfl, hrest⟩ := Prod.mk.inj h
      have hds : ds = ds.takeWhile Char.isDigit ++ (power ++ (kept ++ cut)) := by
        rw [← hrest, List.takeWhile_append_dropWhile]
      obtain ⟨ht, hd⟩ := takeWhile_cut (hrest.trans (List.append_assoc ..).symm)
      have hcond' := point_cut hds hexponent hpower hcond
      left
      simp only [List.cons_append, fraction, hcond', if_true, ht, hd]
    · rename_i hcond
      obtain ⟨rfl, hrest⟩ := Prod.mk.inj h
      rcases hexponent with rfl | ⟨m, sign, es, hm, -, -, -, -, rfl⟩
      · cases kept with
        | nil => exact .inl rfl
        | cons c kept =>
          obtain ⟨rfl, rfl⟩ := List.cons.inj hrest
          cases kept with
          | nil => exact .inr ⟨rfl, rfl, rfl⟩
          | cons c kept =>
            left
            refine if_neg fun hcut => hcond ?_
            rw [Bool.or_eq_true] at hcut ⊢
            exact hcut.imp id fun hstarts => startsExponent_of_append hstarts cut
      · cases hrest
        exact absurd hm (by decide)
  · rename_i hpoint
    obtain ⟨rfl, rfl⟩ := Prod.mk.inj h
    left
    rw [List.nil_append, fraction]
    intro ds hds
    exact hpoint (ds ++ cut) (by rw [← List.append_assoc, hds]; rfl)

/-- A decimal number is taken from the beginning of a text too, unless that ends with a point behind the number. -/
theorem decimal_cut {taken cut : List Char} (h : decimal cs = (true, taken, kept ++ cut)) :
    decimal (taken ++ kept) = (true, taken, kept) ∨ kept = ['.'] ∧ ∀ d ∈ taken, d.isDigit = true := by
  simp only [decimal, Prod.mk.injEq] at h
  obtain ⟨hcomplete, rfl, hrest⟩ := h
  have hdrop := fraction_append (cs.dropWhile Char.isDigit)
  cases hf : fraction (cs.dropWhile Char.isDigit) with
  | mk part cs₂ =>
    rw [hf] at hcomplete hrest hdrop
    cases he : exponent cs₂ with
    | mk complete read =>
      obtain ⟨power, rest⟩ := read
      rw [he] at hcomplete hrest
      simp only at hcomplete hrest hdrop
      subst hcomplete hrest
      obtain rfl : power ++ (kept ++ cut) = cs₂ := by
        have := exponent_append cs₂
        rwa [he] at this
      rcases fraction_cut hf he with hcut | ⟨rfl, rfl, rfl⟩
      · have hdigits : cs.dropWhile Char.isDigit = part ++ (power ++ kept) ++ cut := by
          rw [← hdrop]
          simp only [List.append_assoc]
        obtain ⟨ht, hd⟩ := takeWhile_cut hdigits
        left
        simp only [decimal, List.append_assoc, ht, hd, hcut, exponent_cut he]
      · right
        refine ⟨rfl, fun d hd => ?_⟩
        rw [List.append_nil, List.append_nil] at hd
        exact List.all_eq_true.mp List.all_takeWhile d hd

/-- A number is taken from the beginning of a text too, unless that ends with a point behind the number. -/
theorem number_cut {taken cut : List Char} (h : number cs = (true, taken, kept ++ cut)) :
    number (taken ++ kept) = (true, taken, kept) ∨ kept = ['.'] ∧ ∀ d ∈ taken, d.isDigit = true := by
  have hdecimal (hcs : ∀ x ds, cs = '0' :: x :: ds → baseOf? x = none) (h : decimal cs = (true, taken, kept ++ cut)) :
      number (taken ++ kept) = (true, taken, kept) ∨ kept = ['.'] ∧ ∀ d ∈ taken, d.isDigit = true := by
    rw [number_eq_decimal]
    · exact decimal_cut h
    · intro x ds htaken
      refine hcs x (ds ++ cut) ?_
      have happend := decimal_append cs
      rw [h, ← List.append_assoc, htaken] at happend
      exact happend.symm
  unfold number at h
  split at h
  · rename_i x ds
    split at h
    · rename_i base hb
      simp only [Prod.mk.injEq] at h
      obtain ⟨hany, rfl, hrest⟩ := h
      left
      obtain ⟨ht, hd⟩ := takeWhile_cut hrest
      have hany' : (ds.takeWhile (isDigitIn base) ++ kept).head?.any (isDigitIn base) = true := by
        cases ds with
        | nil => cases hany
        | cons d ds =>
          have hd : isDigitIn base d = true := by simpa using hany
          simp [hd]
      simp only [List.cons_append, number, hb, hany', ht, hd]
    · rename_i hb
      refine hdecimal ?_ h
      rintro x' ds' ⟨⟩
      exact hb
  · rename_i hcs
    exact hdecimal (fun x ds hc => (hcs x ds hc).elim) h

/-- A symbol that stands whole in the beginning of a text is the one at the head there too. -/
theorem Symbol.head?_cut {s : Symbol} {cut : List Char} (h : head? (s.text.toList ++ (kept ++ cut)) = some s) :
    head? (s.text.toList ++ kept) = some s := by
  obtain ⟨-, as, bs, hall, hbefore⟩ := List.find?_eq_some_iff_append.mp h
  refine List.find?_eq_some_iff_append.mpr ⟨by simp, as, bs, hall, fun s' hs' => ?_⟩
  have hno := hbefore s' hs'
  simp only [Bool.not_eq_true', ← Bool.not_eq_true, List.isPrefixOf_iff_prefix] at hno ⊢
  exact fun hfits => hno (hfits.trans ⟨cut, List.append_assoc ..⟩)

theorem Lexeme.read_eq_symbol {named : Bool} (hslash : c = '/' → cs.head? ≠ some '*') (hl : isLetter c = false)
    (hn : (c.isDigit || c == '.' && cs.head?.any Char.isDigit) = false) (hq : c ∉ ['"', '\'', '`']) :
    read named (c :: cs) = symbol c cs := by
  simp only [List.mem_cons, List.not_mem_nil, or_false, not_or] at hq
  rw [read_cons hslash, hn]
  simp [hl, hq]

/-- A symbol is read from the beginning of a text too. -/
theorem Lexeme.symbol_cut (named : Bool) {cut : List Char} {s : Symbol} (hslash : c = '/' → cs.head? ≠ some '*')
    (hl : isLetter c = false) (hn : (c.isDigit || c == '.' && cs.head?.any Char.isDigit) = false)
    (hq : c ∉ ['"', '\'', '`'])
    (hs : Symbol.head? (c :: cs) = some s) (hcs : c :: cs = s.text.toList ++ (kept ++ cut)) :
    read named (s.text.toList ++ kept) = ⟨.ok (.symbol s), s.text.toList, kept⟩ := by
  rw [hcs] at hs
  have hhead := Symbol.head?_cut hs
  obtain ⟨d, ts, htext⟩ : ∃ d ts, s.text.toList = d :: ts :=
    List.exists_cons_of_ne_nil (by simpa using s.text_ne_empty)
  have hlen : s.text.length = (d :: ts).length := by rw [← htext, String.length_toList]
  rw [htext] at hcs hhead ⊢
  rw [List.cons_append] at hcs
  obtain ⟨rfl, rfl⟩ := List.cons.inj hcs
  -- what the characters behind the first one rule out, they rule out in the beginning
  have hmem {e : Char} (he : e ∈ (ts ++ kept).head?) : e ∈ (ts ++ (kept ++ cut)).head? := by
    rw [← List.append_assoc]
    exact List.mem_head?_append_of_mem_head? he
  have hnumber : (c.isDigit || c == '.' && (ts ++ kept).head?.any Char.isDigit) = false := by
    cases hfirst : (ts ++ kept).head? with
    | none =>
      rw [Bool.or_eq_false_iff] at hn
      simp [hn.1]
    | some e =>
      rw [hmem hfirst] at hn
      exact hn
  rw [List.cons_append, read_eq_symbol (fun hc he => hslash hc (hmem he)) hl hnumber hq, Lexeme.symbol,
    ← List.cons_append, hhead]
  simp [hlen]

/-- A lexeme is read from the beginning of a text too, unless that ends with a point behind a number. -/
theorem Lexeme.Opens.cut {named : Bool} {cut : List Char} {lexeme : Lexeme} {k : Kind} (h : Opens named cs lexeme)
    (hk : lexeme.kind = .ok k) (hrest : lexeme.rest = kept ++ cut) :
    read named (lexeme.taken ++ kept) = ⟨.ok k, lexeme.taken, kept⟩ ∨ IsNumber (lexeme.taken ++ kept) := by
  cases h with
  | eof =>
    cases hk
    obtain ⟨rfl, -⟩ := List.append_eq_nil_iff.mp hrest.symm
    exact .inl rfl
  | openComment => cases hk
  | @word c cs hl =>
    have hread := read_word named (isWordText_word named hl cs) (r := kept) fun d hd =>
      word_rest named (c :: cs) d (by rw [hrest]; exact List.mem_head?_append_of_mem_head? hd)
    cases hk
    exact .inl hread
  | @number c cs hn =>
    have hne := number_taken_ne_nil hn
    simp only [Lexeme.number] at hk hrest hne ⊢
    split at hk
    · rename_i hcomplete
      cases hk
      rcases number_cut (Prod.ext hcomplete (Prod.ext rfl hrest)) with hcut | ⟨rfl, hdigits⟩
      · left
        rw [read_of_isNumber named (isNumber_number hn hcomplete), Lexeme.number, hcut]
        rfl
      · right
        have hpoint : IsFraction ['.'] := .inr ⟨[], by simp, rfl⟩
        simpa using IsNumber.decimal hdigits hpoint (.inl rfl) (.inl hne)
    · cases hk
  | @quoted q k' flaw cs hq =>
    cases hclose : closeQuote q cs with
    | none => simp [Lexeme.quoted, hclose] at hk
    | some closed =>
      obtain ⟨inside, rest⟩ := closed
      simp only [Lexeme.quoted, hclose, Except.ok.injEq] at hk ⊢
      subst hk
      have hkind : quoteKind? q = some k' := by
        rcases hq with ⟨hq, rfl, -⟩ | ⟨rfl, rfl, -⟩
        · have : q = '"' ∨ q = '\'' := by simpa using hq
          rcases this with rfl | rfl <;> rfl
        · rfl
      exact .inl (read_quoted named hkind (by simpa using (closeQuote_closed hclose).1.closeQuote_append []) kept)
  | @symbol c cs hslash hl hn hq =>
    cases hs : Symbol.head? (c :: cs) with
    | none => simp [Lexeme.symbol, hs] at hk
    | some s =>
      simp only [Lexeme.symbol, hs, Except.ok.injEq] at hk hrest ⊢
      subst hk
      have htake := (Symbol.longest_of_head? hs).take_eq
      have hcs : c :: cs = s.text.toList ++ (kept ++ cut) := by rw [← htake, ← hrest, List.take_append_drop]
      rw [htake]
      exact .inl (symbol_cut named hslash hl hn hq hs hcs)

/-! ## The text before a flaw -/

namespace Scanner

theorem next_of_read {gap taken rest : List Char} {k : Kind} (htrivia : trivia s.rest = (gap, cs))
    (hread : Lexeme.read (s.previous.any Kind.namesNext) cs = ⟨.ok k, taken, rest⟩) :
    s.next = (.ok ⟨k, String.ofList taken, s.position.advanceOver gap, (s.position.advanceOver gap).advanceOver taken⟩,
      ⟨rest, (s.position.advanceOver gap).advanceOver taken, some k⟩) := by
  simp only [next, skipTrivia, skip, htrivia, hread]

/-- Where only blanks and comments are left, the end is all that is read. -/
theorem tokens_of_trivia {gap : List Char} (h : trivia s.rest = (gap, [])) : ∃ t, s.tokens = .ok [t] :=
  ⟨_, tokens_of_eof (next_of_read h rfl) rfl⟩

/-- A step is made before the beginning of what follows too, unless that is a point behind a number: then the number
takes it, and nothing is left. -/
theorem next_cut {s' : Scanner} {t : Token} {cut : List Char} (h : s.next = (.ok t, s'))
    (hrest : s'.rest = kept ++ cut) : ∃ passed, s.rest = passed ++ s'.rest ∧
      (({ s with rest := passed ++ kept } : Scanner).next = (.ok t, { s' with rest := kept }) ∨
        ∃ u s'', ({ s with rest := passed ++ kept } : Scanner).next = (.ok u, s'') ∧ u.kind = .number ∧
        s''.rest = []) := by
  simp only [next] at h
  split at h
  · cases h
  · rename_i k hk
    cases h
    have happend := Lexeme.read_append (s.previous.any Kind.namesNext) (trivia s.rest).2
    have hopens := Lexeme.opens_read (s.previous.any Kind.namesNext) (trivia s.rest).2
    have hsplit := trivia_append s.rest
    simp only [skipTrivia, skip] at hk hrest ⊢
    generalize Lexeme.read (s.previous.any Kind.namesNext) (trivia s.rest).2 = lexeme at hk hrest happend hopens ⊢
    rw [hrest] at happend ⊢
    have htrivia : trivia ((trivia s.rest).1 ++ lexeme.taken ++ kept) = ((trivia s.rest).1, lexeme.taken ++ kept) := by
      have hgap : trivia s.rest = ((trivia s.rest).1, lexeme.taken ++ kept ++ cut) := by
        rw [List.append_assoc, happend]
      rw [List.append_assoc, trivia_cut hgap]
    refine ⟨(trivia s.rest).1 ++ lexeme.taken, by rw [List.append_assoc, happend, hsplit], ?_⟩
    rcases hopens.cut hk hrest with hread | hnumber
    · exact .inl (next_of_read htrivia hread)
    · have hread := Lexeme.read_number (s.previous.any Kind.namesNext) hnumber
        (show endsNumber [] from fun d hd => by cases hd)
      rw [List.append_nil] at hread
      exact .inr ⟨_, _, next_of_read htrivia hread, rfl, rfl⟩

/-- The tokens before a place are read from the text before it, if what is kept of the text at the place is read. -/
theorem Steps.cut {s' : Scanner} {ts : List Token} {cut : List Char} (h : Steps s ts s') (hrest : s'.rest = kept ++ cut)
    {us : List Token} (hkept : ({ s' with rest := kept } : Scanner).tokens = .ok us) :
    ∃ passed, s.rest = passed ++ s'.rest ∧ ∃ us, ({ s with rest := passed ++ kept } : Scanner).tokens = .ok us := by
  induction h with
  | done => exact ⟨[], rfl, us, hkept⟩
  | @step s s₁ s' t ts hx ht _ ih =>
    obtain ⟨passed, hpassed, us, hus⟩ := ih hrest hkept
    have hcut : s₁.rest = passed ++ kept ++ cut := by rw [hpassed, hrest, List.append_assoc]
    obtain ⟨before, hbefore, hstep⟩ := next_cut hx hcut
    refine ⟨before ++ passed, by rw [hbefore, hpassed, List.append_assoc], ?_⟩
    rw [List.append_assoc]
    rcases hstep with hnext | ⟨u, s₂, hnext, hnumber, hnil⟩
    · refine ⟨t :: us, ?_⟩
      rw [tokens_of_ok hnext ht, hus]
      rfl
    · -- the number takes the point, and the end follows
      obtain ⟨final, hfinal⟩ := tokens_of_trivia (show trivia s₂.rest = ([], []) by rw [hnil, trivia])
      refine ⟨[u, final], ?_⟩
      rw [tokens_of_ok hnext (by rw [hnumber]; decide), hfinal]
      rfl

/-- A run that ends with a flaw: the text before the flaw is read, and the text from there on is what the flaw says. -/
theorem tokens_error {e : LexicalError} (h : s.tokens = .error e) : ∃ passed rest, s.rest = passed ++ rest ∧
    e.position = s.position.advanceOver passed ∧ (∃ ts, ({ s with rest := passed } : Scanner).tokens = .ok ts) ∧
    e.flaw.Justified rest := by
  obtain ⟨words, s₁, s₂, hsteps, ⟨e', hnext, htokens⟩ | ⟨t, -, htokens⟩⟩ := run_ends s
  · obtain rfl : e' = e := Except.error.inj (htokens.symm.trans h)
    obtain ⟨hposition, hjustified⟩ := next_justified hnext
    have hsplit := (trivia_append s₁.rest).symm
    have hgap : trivia ((trivia s₁.rest).1 ++ []) = ((trivia s₁.rest).1, []) :=
      trivia_cut (show trivia s₁.rest = (_, [] ++ (trivia s₁.rest).2) from rfl)
    rw [List.append_nil] at hgap
    obtain ⟨final, hfinal⟩ := tokens_of_trivia (s := { s₁ with rest := (trivia s₁.rest).1 }) hgap
    obtain ⟨passed, hpassed, hts⟩ := hsteps.cut hsplit hfinal
    have hadvance : s₁.position = s.position.advanceOver passed := by
      obtain ⟨passed', hpassed', hposition', -⟩ := hsteps.passed
      rw [hposition', List.append_cancel_right (hpassed'.symm.trans hpassed)]
    refine ⟨passed ++ (trivia s₁.rest).1, (trivia s₁.rest).2, ?_, ?_, hts, hjustified⟩
    · rw [hpassed, List.append_assoc, ← hsplit]
    · rw [hposition, hadvance, Position.advanceOver_append]
  · cases htokens.symm.trans h

/-- The scanner of the beginning of a source is that of the source, with less left. -/
theorem ofText_cut (source : String) {cut : List Char} (h : (ofText source).rest = kept ++ cut) :
    ofText (leadingMark source ++ String.ofList kept) = { ofText source with rest := kept } := by
  unfold ofText leadingMark at *
  cases hsource : source.toList with
  | nil =>
    rw [hsource] at h
    obtain ⟨rfl, -⟩ := List.append_eq_nil_iff.mp h.symm
    rfl
  | cons c cs =>
    rw [hsource] at h
    by_cases hc : c = byteOrderMark
    · subst hc
      simp
    · cases kept with
      | nil => simp [hc]
      | cons d kept =>
        simp only [hc, if_false, List.cons_append] at h
        obtain ⟨rfl, -⟩ := List.cons.inj h
        simp [hc]

end Scanner

/-- **Reading fails at the first flaw.** The text before a flaw can be read by itself, and the text from there on is
what the flaw says. Where there is no flaw, every quoted text is closed, and what stands between the tokens is blanks
and closed comments. -/
theorem tokenize_fails_closed (source : String) :
    (∀ e, tokenize source = .error e → ∃ left right : String, source = left ++ right ∧
      left.utf8ByteSize = e.position.offset ∧ (∃ ts, tokenize left = .ok ts) ∧ e.flaw.Justified right.toList) ∧
    ∀ ts, tokenize source = .ok ts →
      (∀ t ∈ ts, (t.kind = .string → ∃ q ∈ ['"', '\''], IsQuoted q t.text.toList) ∧
        (t.kind = .template → IsQuoted '`' t.text.toList)) ∧
      ∃ gaps, AreGaps source (leadingMark source).utf8ByteSize ts gaps ∧
      leadingMark source ++ rebuilt ts gaps = source := by
  obtain ⟨hsource, hmark⟩ := Scanner.ofText_spec source
  refine ⟨fun e he => ?_, fun ts hts => ⟨fun t ht => ?_, ?_⟩⟩
  · obtain ⟨passed, rest, hrest, hposition, ⟨before, hbefore⟩, hjustified⟩ := Scanner.tokens_error he
    refine ⟨leadingMark source ++ String.ofList passed, String.ofList rest, ?_, ?_, ⟨before, ?_⟩, ?_⟩
    · rw [String.append_assoc, ← String.ofList_append, ← hrest]
      exact hsource
    · rw [hposition, String.utf8ByteSize_append, hmark, Position.advanceOver_offset]
    · rw [tokenize, Scanner.ofText_cut source hrest, hbefore]
    · rwa [String.toList_ofList]
  · obtain ⟨previous, after, hshaped⟩ := Scanner.tokens_shaped hts ht
    exact ⟨hshaped.string, hshaped.template⟩
  · obtain ⟨gaps, hgaps, -, hjoin⟩ := (Scanner.covers_tokens hts).gaps hsource hmark
    exact ⟨gaps, hmark ▸ hgaps, by rw [hjoin, ← hsource]⟩

/-- A point that belongs to a number where the text ends, and not before a second one; behind it digits are missing. -/
theorem tokenize_fails_closed_point :
    let source := "\ufeff1..5e+x"
    let e : LexicalError := ⟨.number ".5e+", ⟨1, 3, 5⟩⟩
    tokenize source = .error e ∧ ∃ left right : String, source = left ++ right ∧ left.utf8ByteSize = 5 ∧
      (∃ ts, tokenize left = .ok ts) ∧ e.flaw.Justified right.toList := by
  intro source e
  have h : tokenize source = .error e := by decide +kernel
  exact ⟨h, (tokenize_fails_closed source).1 e h⟩

end Vernacular
