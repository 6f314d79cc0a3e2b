import Mathlib.Computability.RegularExpressions
import Vernacular.Proofs.Token.Lexical
import Vernacular.Proofs.Token.Lossless

/-!
# The shape of tokens

What a token of each kind looks like, said without the scanner: numbers are a regular language (`Numeral.pattern`), a
quoted text holds its quote only behind a backslash (`IsQuoted`), words are told apart by three tables (`Kind.Lists`),
and a symbol is the longest one that fits. `Token.Shaped` puts the promises together, for a token with what stands
before and behind it.

- `Lexeme.opens_read`: the first characters of a text decide how its first lexeme is read;
- `Scanner.next_shaped`: one step of the scanner keeps the promises;
- `Scanner.Steps`: runs of the scanner; each ends with a flaw or with the end (`Scanner.run_ends`), and every token was
  given by a step of the run (`Scanner.tokens_split`);
- `tokenize_shaped`: the tokens of a source.
-/

namespace Vernacular

variable {cs : List Char} {c q : Char} {t : Token} {w : String} {previous : Option Kind}

/-! ## Numbers -/

namespace Numeral

open RegularExpression

/-- One of the characters. -/
def oneOf (cs : List Char) : RegularExpression Char := cs.foldr (fun c p => char c + p) 0

/-- Once or more often. -/
def repeated (p : RegularExpression Char) : RegularExpression Char := p * star p

/-- Once or not at all. -/
def optional (p : RegularExpression Char) : RegularExpression Char := 1 + p

def digit : RegularExpression Char := oneOf "0123456789".toList

/-- Digits with perhaps a point behind or among them, or digits behind a point. -/
def mantissa : RegularExpression Char :=
  repeated digit * optional (char '.' * star digit) + char '.' * repeated digit

/-- The letters that announce a base behind a zero, and the digits of that base. -/
def bases : List (String × String) :=
  [("xX", "0123456789abcdefABCDEF"), ("bB", "01"), ("oO", "01234567")]

/-- A zero, a letter that announces a base, and digits of that base. -/
def inBase (base : String × String) : RegularExpression Char :=
  char '0' * oneOf base.1.toList * repeated (oneOf base.2.toList)

/-- The numbers of the dialect. -/
def pattern : RegularExpression Char :=
  bases.foldr (fun base p => inBase base + p)
    (mantissa * optional (oneOf "eE".toList * optional (oneOf "+-".toList) * repeated digit))

theorem singleton_mem_oneOf (h : c ∈ cs) : [c] ∈ (oneOf cs).matches' := by
  induction cs with
  | nil => cases h
  | cons d cs ih =>
    refine (Language.mem_add ..).mpr ?_
    rcases List.mem_cons.mp h with rfl | h
    · exact .inl rfl
    · exact .inr (ih h)

/-- Characters that match one by one. -/
theorem mem_star {p : RegularExpression Char} (h : ∀ c ∈ cs, [c] ∈ p.matches') : cs ∈ (star p).matches' := by
  refine Language.mem_kstar.mpr ⟨cs.map ([·]), by simp [← List.flatMap_def], fun x hx => ?_⟩
  obtain ⟨c, hc, rfl⟩ := List.mem_map.mp hx
  exact h c hc

theorem mem_repeated {p : RegularExpression Char} (hne : cs ≠ []) (h : ∀ c ∈ cs, [c] ∈ p.matches') :
    cs ∈ (repeated p).matches' := by
  obtain ⟨c, cs, rfl⟩ := List.exists_cons_of_ne_nil hne
  refine Language.mem_mul.mpr ⟨[c], h c (by simp), cs, mem_star fun d hd => h d (by simp [hd]), rfl⟩

theorem nil_mem_optional {p : RegularExpression Char} : [] ∈ (optional p).matches' := .inl rfl

theorem mem_optional {p : RegularExpression Char} (h : cs ∈ p.matches') : cs ∈ (optional p).matches' := .inr h

/-- A class of ASCII characters is known by its members. -/
theorem mem_of_class {p : Char → Bool}
    (hp : ((List.range 128).all fun n => !p (Char.ofNat n) || cs.contains (Char.ofNat n)) = true) (hc : p c = true)
    (hlt : c.toNat < 128) : c ∈ cs := by
  have h := List.all_eq_true.mp hp c.toNat (List.mem_range.mpr hlt)
  simpa [Char.ofNat_toNat, hc] using h

/-- Characters of words are ASCII. -/
theorem toNat_lt_of_isWordChar (h : isWordChar c = true) : c.toNat < 128 := by
  have hlast {b : UInt32} (h : c.val ≤ b) (hb : b.toNat < 128) : c.toNat < 128 :=
    Nat.lt_of_le_of_lt (UInt32.le_iff_toNat_le.mp h) hb
  rcases Bool.or_eq_true_iff.mp h with h | h
  · rcases Bool.or_eq_true_iff.mp h with h | h
    · rcases Bool.or_eq_true_iff.mp h with h | h
      · exact hlast (And.right (of_decide_eq_true h)) (by decide)
      · exact hlast (of_decide_eq_true (Bool.and_eq_true_iff.mp h).2) (by decide)
    · exact hlast (of_decide_eq_true (Bool.and_eq_true_iff.mp h).2) (by decide)
  · rw [eq_of_beq h]
    decide

theorem mem_digit {d : Char} (h : d.isDigit = true) : [d] ∈ digit.matches' :=
  singleton_mem_oneOf (mem_of_class (p := Char.isDigit) (by decide +kernel) h
    (toNat_lt_of_isWordChar (isWordChar_of_isDigit h)))

/-- The digits around the point of a number, of which there is at least one. -/
theorem mem_mantissa {whole part : List Char} (hw : ∀ d ∈ whole, d.isDigit = true) (hp : IsFraction part)
    (hsome : whole ≠ [] ∨ ∃ d ∈ part, d.isDigit = true) : whole ++ part ∈ mantissa.matches' := by
  by_cases hwhole : whole = []
  · subst hwhole
    obtain ⟨d, hd, hdigit⟩ := hsome.resolve_left (· rfl)
    rcases hp with rfl | ⟨ds, hds, rfl⟩
    · cases hd
    · have hne : ds ≠ [] := by
        rintro rfl
        rw [List.mem_singleton.mp hd, not_isDigit_point] at hdigit
        cases hdigit
      exact .inr (Language.mem_mul.mpr ⟨['.'], rfl, ds, mem_repeated hne fun d hd => mem_digit (hds d hd), rfl⟩)
  · refine .inl (Language.mem_mul.mpr ⟨whole, mem_repeated hwhole fun d hd => mem_digit (hw d hd), part, ?_, rfl⟩)
    rcases hp with rfl | ⟨ds, hds, rfl⟩
    · exact nil_mem_optional
    · exact mem_optional (Language.mem_mul.mpr ⟨['.'], rfl, ds, mem_star fun d hd => mem_digit (hds d hd), rfl⟩)

/-- An exponent, which may be missing. -/
theorem mem_exponent {power : List Char} (h : IsExponent power) :
    power ∈ (optional (oneOf "eE".toList * optional (oneOf "+-".toList) * repeated digit)).matches' := by
  rcases h with rfl | ⟨m, sign, ds, hm, hsign, hlen, hne, hds, rfl⟩
  · exact nil_mem_optional
  · have hmark : [m] ∈ (oneOf "eE".toList).matches' := by
      refine singleton_mem_oneOf ?_
      simpa [isExponentMark] using hm
    have hsigned : sign ∈ (optional (oneOf "+-".toList)).matches' := by
      cases sign with
      | nil => exact nil_mem_optional
      | cons s sign =>
        obtain rfl : sign = [] := by simpa using hlen
        refine mem_optional (singleton_mem_oneOf ?_)
        simpa [isSign] using hsign s (by simp)
    refine mem_optional (Language.mem_mul.mpr
      ⟨[m] ++ sign, Language.mem_mul.mpr ⟨[m], hmark, sign, hsigned, rfl⟩, ds, ?_, ?_⟩)
    · exact mem_repeated hne fun d hd => mem_digit (hds d hd)
    · simp

/-- The table of bases says which letters announce one and which digits it has. -/
theorem exists_base {x : Char} {n : Nat} (h : baseOf? x = some n) :
    ∃ base ∈ bases, x ∈ base.1.toList ∧ ∀ c, isDigitIn n c = true ↔ c ∈ base.2.toList := by
  have hdigits {n : Nat} {digits : List Char}
      (hclass : ((List.range 128).all fun i => !isDigitIn n (Char.ofNat i) || digits.contains (Char.ofNat i)) = true)
      (hall : digits.all (isDigitIn n) = true) (c : Char) : isDigitIn n c = true ↔ c ∈ digits :=
    ⟨fun hc => mem_of_class hclass hc (toNat_lt_of_isWordChar (isWordChar_of_isDigitIn hc)), List.all_eq_true.mp hall c⟩
  unfold baseOf? at h
  split at h
  · rename_i hx
    cases h
    exact ⟨_, .head _, by simpa using hx, hdigits (by decide +kernel) (by decide +kernel)⟩
  · split at h
    · rename_i hx
      cases h
      exact ⟨_, .tail _ (.head _), by simpa using hx, hdigits (by decide +kernel) (by decide +kernel)⟩
    · split at h
      · rename_i hx
        cases h
        exact ⟨_, .tail _ (.tail _ (.head _)), by simpa using hx, hdigits (by decide +kernel) (by decide +kernel)⟩
      · cases h

/-- A number in another base. -/
theorem mem_inBase {base : String × String} {x : Char} {ds : List Char} (hx : x ∈ base.1.toList) (hne : ds ≠ [])
    (hds : ∀ d ∈ ds, d ∈ base.2.toList) : '0' :: x :: ds ∈ (inBase base).matches' := by
  refine Language.mem_mul.mpr ⟨['0', x],
    Language.mem_mul.mpr ⟨['0'], rfl, [x], singleton_mem_oneOf hx, rfl⟩, ds, ?_, rfl⟩
  exact mem_repeated hne fun d hd => singleton_mem_oneOf (hds d hd)

/-- One of several patterns, or another one. -/
theorem mem_foldr {bs : List (String × String)} {q : RegularExpression Char}
    (h : (∃ b ∈ bs, cs ∈ (inBase b).matches') ∨ cs ∈ q.matches') :
    cs ∈ (bs.foldr (fun b p => inBase b + p) q).matches' := by
  induction bs with
  | nil => simpa using h
  | cons b bs ih =>
    refine (Language.mem_add ..).mpr ?_
    rcases h with ⟨b', hb', hcs⟩ | hcs
    · rcases List.mem_cons.mp hb' with rfl | hb'
      · exact .inl hcs
      · exact .inr (ih (.inl ⟨b', hb', hcs⟩))
    · exact .inr (ih (.inr hcs))

/-- What has the shape of a number matches the pattern. -/
theorem mem_pattern (h : IsNumber cs) : cs ∈ pattern.matches' := by
  refine mem_foldr ?_
  cases h with
  | @inBase x n ds hb hne hds =>
    obtain ⟨base, hbase, hx, hdigits⟩ := exists_base hb
    exact .inl ⟨base, hbase, mem_inBase hx hne fun d hd => (hdigits d).mp (hds d hd)⟩
  | @decimal whole part power hw hp he hsome =>
    exact .inr (Language.mem_mul.mpr ⟨whole ++ part, mem_mantissa hw hp hsome, power, mem_exponent he, rfl⟩)

end Numeral

/-! ## Quoted texts -/

/-- Whether a backslash at the end of the text takes the next character with it. -/
def escapePending : List Char → Bool
  | [] => false
  | ['\\'] => true
  | '\\' :: _ :: cs => escapePending cs
  | _ :: cs => escapePending cs

/-- Only a backslash escapes. -/
theorem escapePending_cons (h : c ≠ '\\') (cs : List Char) : escapePending (c :: cs) = escapePending cs := by
  rw [escapePending]
  · exact fun hc _ => h hc
  · exact fun _ _ hc _ => h hc

/-- Every occurrence of the quote in the text is taken by a backslash. -/
def AllEscaped (q : Char) (cs : List Char) : Prop :=
  ∀ before after, cs = before ++ q :: after → escapePending before = true

/-- A text between two quotes: inside, the quote stands only behind a backslash that takes it, and the one at the end is
not taken. -/
def IsQuoted (q : Char) (cs : List Char) : Prop :=
  ∃ body, cs = q :: (body ++ [q]) ∧ AllEscaped q body ∧ escapePending body = false

theorem AllEscaped.nil : AllEscaped q [] := fun before after h => by simp at h

/-- A plain character inside a string. -/
theorem AllEscaped.cons (hq : c ≠ q) (hc : c ≠ '\\') (h : AllEscaped q cs) : AllEscaped q (c :: cs) := by
  intro before after hcs
  cases before with
  | nil => exact absurd (List.cons.inj hcs).1 hq
  | cons d before =>
    obtain ⟨rfl, htail⟩ := List.cons.inj hcs
    rw [escapePending_cons hc]
    exact h before after htail

/-- An escaped character inside a string, whatever it is. -/
theorem AllEscaped.escape (hq : q ≠ '\\') (h : AllEscaped q cs) : AllEscaped q ('\\' :: c :: cs) := by
  intro before after hcs
  cases before with
  | nil => exact absurd (List.cons.inj hcs).1.symm hq
  | cons d before =>
    obtain ⟨rfl, htail⟩ := List.cons.inj hcs
    cases before with
    | nil => rfl
    | cons d before => exact h before after (List.cons.inj htail).2

/-- A backslash that is last escapes nothing. -/
theorem AllEscaped.last (hq : q ≠ '\\') : AllEscaped q ['\\'] := by
  intro before after hcs
  cases before with
  | nil => exact absurd (List.cons.inj hcs).1.symm hq
  | cons d before => simp at hcs

/-- What is closed by a quote is closed by the first that no backslash takes. -/
theorem Closed.allEscaped (hq : q ≠ '\\') (h : Closed q cs) :
    ∃ body, cs = body ++ [q] ∧ AllEscaped q body ∧ escapePending body = false := by
  induction h with
  | quote => exact ⟨[], rfl, .nil, rfl⟩
  | escape c _ ih =>
    obtain ⟨body, rfl, hall, hpending⟩ := ih
    exact ⟨'\\' :: c :: body, rfl, hall.escape hq, hpending⟩
  | cons hc hslash _ ih =>
    obtain ⟨body, rfl, hall, hpending⟩ := ih
    exact ⟨_ :: body, rfl, hall.cons hc hslash, by rw [escapePending_cons hslash, hpending]⟩

/-- What is never closed has no quote that is not taken by a backslash. -/
theorem closeQuote_none (hq : q ≠ '\\') (h : closeQuote q cs = none) : AllEscaped q cs := by
  fun_induction closeQuote q cs with
  | case1 => exact .nil
  | case2 => exact .last hq
  | case3 c cs ih => exact (ih (Option.map_eq_none_iff.mp h)).escape hq
  | case4 c cs _ _ hc => cases h
  | case5 c cs hone hmore hc ih =>
    exact (ih (Option.map_eq_none_iff.mp h)).cons (by simpa using hc) (ne_backslash hone hmore)

/-! ## Words -/

/-- The words of a kind by the tables of keywords, of primitive types and of provided objects. The first table that has
the word decides; an identifier is in none of them. -/
def Kind.Lists : Kind → String → Prop
  | keyword k, w => w ∈ k.spellings
  | type, w => w ∉ Keyword.allSpellings ∧ w ∈ primitiveTypes
  | builtin, w => w ∉ Keyword.allSpellings ∧ w ∉ primitiveTypes ∧ w ∈ builtins
  | identifier, w => w ∉ Keyword.allSpellings ∧ w ∉ primitiveTypes ∧ w ∉ builtins
  | _, _ => False

/-- A word is a keyword exactly if it is one of its spellings. -/
theorem Keyword.ofWord?_eq_some_iff {k : Keyword} : ofWord? w = some k ↔ w ∈ k.spellings := by
  refine ⟨fun h => ?_, ofWord?_of_mem⟩
  simpa using List.find?_some h

theorem Keyword.ofWord?_eq_none_iff : ofWord? w = none ↔ w ∉ allSpellings := by
  simp [ofWord?, allSpellings]

theorem Keyword.mem_allSpellings {k : Keyword} (h : w ∈ k.spellings) : w ∈ allSpellings := by
  by_contra hw
  rw [ofWord?_eq_none_iff.symm, ofWord?_eq_some_iff.mpr h] at hw
  cases hw

/-- A word is of exactly one kind. -/
theorem Kind.lists_iff {k : Kind} : k.Lists w ↔ k = ofWord w := by
  unfold ofWord
  cases hk : Keyword.ofWord? w with
  | some k' =>
    have hw := Keyword.mem_allSpellings (Keyword.ofWord?_eq_some_iff.mp hk)
    cases k with
    | keyword k => simp [Lists, ← Keyword.ofWord?_eq_some_iff, hk, eq_comm]
    | _ => simp [Lists, hw]
  | none =>
    have hw := Keyword.ofWord?_eq_none_iff.mp hk
    by_cases hp : w ∈ primitiveTypes
    · cases k with
      | keyword k => simp [Lists, ← Keyword.ofWord?_eq_some_iff, hk, hp]
      | _ => simp [Lists, hw, hp]
    · by_cases hb : w ∈ builtins
      · cases k with
        | keyword k => simp [Lists, ← Keyword.ofWord?_eq_some_iff, hk, hp, hb]
        | _ => simp [Lists, hw, hp, hb]
      · cases k with
        | keyword k => simp [Lists, ← Keyword.ofWord?_eq_some_iff, hk, hp, hb]
        | _ => simp [Lists, hw, hp, hb]

/-! ## Symbols -/

namespace Symbol

/-- The symbol that stands at the head of a text and is longer than every other that does. -/
structure Longest (s : Symbol) (cs : List Char) : Prop where
  fits : s.text.toList <+: cs
  longer : ∀ s' : Symbol, s'.text.toList <+: cs → s' = s ∨ s'.text.length < s.text.length

theorem Longest.take_eq {s : Symbol} (h : s.Longest cs) : cs.take s.text.length = s.text.toList := by
  rw [← String.length_toList, ← List.prefix_iff_eq_take.mp h.fits]

/-- The symbols are ordered by their length, so that the first that fits is the longest. -/
theorem all_pairwise : all.Pairwise fun s s' => s'.text.length ≤ s.text.length ∧ s.text ≠ s'.text := by
  decide +kernel

/-- The symbol that is read is the longest that fits. -/
theorem longest_of_head? {s : Symbol} (h : head? cs = some s) : s.Longest cs := by
  obtain ⟨hfits, as, bs, hall, hbefore⟩ := List.find?_eq_some_iff_append.mp h
  rw [List.isPrefixOf_iff_prefix] at hfits
  refine ⟨hfits, fun s' hs' => ?_⟩
  have hmem : s' ∈ as ++ s :: bs := hall ▸ mem_all s'
  rcases List.mem_append.mp hmem with hs | hs
  · have := hbefore s' hs
    simp [List.isPrefixOf_iff_prefix.mpr hs'] at this
  · rcases List.mem_cons.mp hs with rfl | hs
    · exact .inl rfl
    · -- of the later ones that fit, none is as long: it would be the same text
      have hpair : (s :: bs).Pairwise fun s s' => s'.text.length ≤ s.text.length ∧ s.text ≠ s'.text :=
        (List.pairwise_append.mp (hall ▸ all_pairwise)).2.1
      obtain ⟨hle, hne⟩ := (List.pairwise_cons.mp hpair).1 s' hs
      refine .inr (Nat.lt_of_le_of_ne hle fun hlen => hne (String.toList_inj.mp ?_))
      have hlist : s'.text.toList.length = s.text.toList.length := by
        rw [String.length_toList, String.length_toList, hlen]
      exact ((List.prefix_of_prefix_length_le hs' hfits hlist.le).eq_of_length hlist).symm

end Symbol

/-! ## How a lexeme is read -/

/-- The first characters of a text decide how its first lexeme is read. -/
inductive Lexeme.Opens (named : Bool) : List Char → Lexeme → Prop
  | eof : Opens named [] ⟨.ok .eof, [], []⟩
  | openComment {cs : List Char} : Opens named ('/' :: '*' :: cs) ⟨.error .openComment, '/' :: '*' :: cs, []⟩
  | word {c : Char} {cs : List Char} : isLetter c = true → Opens named (c :: cs) (word named (c :: cs))
  | number {c : Char} {cs : List Char} : (c.isDigit || c == '.' && cs.head?.any Char.isDigit) = true →
      Opens named (c :: cs) (number (c :: cs))
  | quoted {q : Char} {k : Kind} {flaw : Flaw} {cs : List Char} :
      q ∈ ['"', '\''] ∧ k = .string ∧ flaw = .openString ∨ q = '`' ∧ k = .template ∧ flaw = .openTemplate →
      Opens named (q :: cs) (quoted q k flaw cs)
  | symbol {c : Char} {cs : List Char} : (c = '/' → cs.head? ≠ some '*') → isLetter c = false →
      (c.isDigit || c == '.' && cs.head?.any Char.isDigit) = false → c ∉ ['"', '\'', '`'] →
      Opens named (c :: cs) (symbol c cs)

/-- How a lexeme begins decides its kind, or what is wrong with it. -/
theorem Lexeme.opens_read (named : Bool) (cs : List Char) : Opens named cs (read named cs) := by
  cases cs with
  | nil => exact .eof
  | cons c cs =>
    by_cases hcomment : c = '/' ∧ cs.head? = some '*'
    · obtain ⟨rfl, hstar⟩ := hcomment
      cases cs with
      | nil => cases hstar
      | cons d cs =>
        cases hstar
        exact .openComment
    · have hslash : c = '/' → cs.head? ≠ some '*' := fun hc hs => hcomment ⟨hc, hs⟩
      rw [read_cons hslash]
      split
      · rename_i hl
        exact .word hl
      · rename_i hl
        split
        · rename_i hn
          exact .number hn
        · rename_i hn
          split
          · rename_i hq
            exact .quoted (.inl ⟨by simpa using hq, rfl, rfl⟩)
          · rename_i hq
            split
            · rename_i ht
              exact .quoted (.inr ⟨eq_of_beq ht, rfl, rfl⟩)
            · rename_i ht
              refine .symbol hslash (by simpa using hl) (Bool.eq_false_iff.mpr hn) ?_
              simp only [Bool.or_eq_true, beq_iff_eq, not_or] at hq ht
              simp [hq, ht]

/-! ## Tokens -/

/-- The kinds after which every word is a plain name. -/
def nameMarks : List Kind := [.symbol .dot, .symbol .optionalChain, .symbol .hash]

/-- What the kind of a token promises, behind a token of kind `previous` and before the characters `after`. -/
structure Token.Shaped (previous : Option Kind) (t : Token) (after : List Char) : Prop where
  number : t.kind = .number → t.text.toList ∈ Numeral.pattern.matches'
  string : t.kind = .string → ∃ q ∈ ['"', '\''], IsQuoted q t.text.toList
  template : t.kind = .template → IsQuoted '`' t.text.toList
  /-- A letter and what may go on a word, as far as it goes. -/
  word : t.kind.isWord = true → isWordText t.text.toList = true ∧ ∀ c ∈ after.head?, isWordChar c = false
  /-- Behind a point or a hash every word is a plain name. -/
  named : t.kind.isWord = true → (∃ k ∈ previous, k ∈ nameMarks) → t.kind = .identifier
  /-- Elsewhere the tables decide. -/
  listed : t.kind.isWord = true → (¬ ∃ k ∈ previous, k ∈ nameMarks) → ∀ k : Kind, k.Lists t.text ↔ k = t.kind
  symbol : ∀ s, t.kind = .symbol s → t.text = s.text ∧ s.Longest (t.text.toList ++ after)

theorem any_namesNext_iff : previous.any Kind.namesNext = true ↔ ∃ k ∈ previous, k ∈ nameMarks := by
  have hiff (k : Kind) : k.namesNext = true ↔ k ∈ nameMarks := by
    cases k with
    | symbol s => cases s <;> simp [Kind.namesNext, nameMarks]
    | _ => simp [Kind.namesNext, nameMarks]
  cases previous <;> simp [hiff]

/-- A word that was read ends where no word goes on. -/
theorem Lexeme.word_rest (named : Bool) (cs : List Char) : ∀ c ∈ (word named cs).rest.head?, isWordChar c = false := by
  intro c hc
  have h := List.head?_dropWhile_not isWordChar cs
  rw [show cs.dropWhile isWordChar = (word named cs).rest from rfl, Option.mem_def.mp hc] at h
  exact h

/-- What is read as a word is one. -/
theorem Lexeme.isWordText_word (named : Bool) (hl : isLetter c = true) (cs : List Char) :
    isWordText (word named (c :: cs)).taken = true := by
  simp [word, isWordText, isWordChar_of_isLetter hl, hl]

/-- What a word is shaped like, with what follows it. -/
theorem Token.Shaped.of_word {after : List Char} (hw : t.kind.isWord = true) (htext : isWordText t.text.toList = true)
    (hafter : ∀ c ∈ after.head?, isWordChar c = false)
    (hk : t.kind = if previous.any Kind.namesNext then .identifier else .ofWord t.text) : t.Shaped previous after where
  number h := by rw [h] at hw; cases hw
  string h := by rw [h] at hw; cases hw
  template h := by rw [h] at hw; cases hw
  word _ := ⟨htext, hafter⟩
  named _ hnamed := by rw [hk, if_pos (any_namesNext_iff.mpr hnamed)]
  listed _ hnamed k := by
    rw [hk, if_neg (mt any_namesNext_iff.mp hnamed)]
    exact Kind.lists_iff
  symbol s h := by rw [h] at hw; cases hw

/-- What is no word has only to keep the promise of its kind. -/
theorem Token.Shaped.of_not_isWord {after : List Char} (hw : t.kind.isWord = false)
    (hnumber : t.kind = .number → t.text.toList ∈ Numeral.pattern.matches')
    (hstring : t.kind = .string → ∃ q ∈ ['"', '\''], IsQuoted q t.text.toList)
    (htemplate : t.kind = .template → IsQuoted '`' t.text.toList)
    (hsymbol : ∀ s, t.kind = .symbol s → t.text = s.text ∧ s.Longest (t.text.toList ++ after)) :
    t.Shaped previous after where
  number := hnumber
  string := hstring
  template := htemplate
  word h := by rw [h] at hw; cases hw
  named h := by rw [h] at hw; cases hw
  listed h := by rw [h] at hw; cases hw
  symbol := hsymbol

/-- A lexeme without a flaw keeps the promises of its kind. -/
theorem Lexeme.Opens.shaped {lexeme : Lexeme} (h : Opens (previous.any Kind.namesNext) cs lexeme)
    (hk : lexeme.kind = .ok t.kind) (htext : t.text.toList = lexeme.taken) :
    t.Shaped previous lexeme.rest := by
  cases h with
  | eof =>
    have hk : t.kind = .eof := (Except.ok.inj hk).symm
    exact .of_not_isWord (by rw [hk]; rfl) (by simp [hk]) (by simp [hk]) (by simp [hk]) (by simp [hk])
  | openComment => cases hk
  | @word c cs hl =>
    have hk : t.kind = if previous.any Kind.namesNext then .identifier else .ofWord t.text := by
      rw [← String.ofList_toList (s := t.text), htext]
      exact (Except.ok.inj hk).symm
    refine .of_word ?_ ?_ (word_rest _ _) hk
    · rw [hk]
      split
      · rfl
      · exact Kind.isWord_ofWord _
    · rw [htext]
      exact isWordText_word _ hl _
  | @number c cs hn =>
    simp only [Lexeme.number] at hk htext
    split at hk
    · rename_i hcomplete
      have hk : t.kind = .number := (Except.ok.inj hk).symm
      refine .of_not_isWord (by rw [hk]; rfl) (fun _ => ?_) (by simp [hk]) (by simp [hk]) (by simp [hk])
      rw [htext]
      exact Numeral.mem_pattern (isNumber_number hn hcomplete)
    · cases hk
  | @quoted q k flaw cs hq =>
    have hslash : q ≠ '\\' := by
      rcases hq with ⟨hq, -⟩ | ⟨rfl, -⟩
      · rintro rfl
        simp at hq
      · decide
    cases hclose : closeQuote q cs with
    | none => simp [Lexeme.quoted, hclose] at hk
    | some closed =>
      obtain ⟨inside, rest⟩ := closed
      obtain ⟨body, rfl, hbody⟩ := (closeQuote_closed hclose).1.allEscaped hslash
      simp only [Lexeme.quoted, hclose, Except.ok.injEq] at hk htext
      have hquoted : IsQuoted q t.text.toList := ⟨body, htext, hbody⟩
      rcases hq with ⟨hq, rfl, -⟩ | ⟨rfl, rfl, -⟩
      · exact .of_not_isWord (by rw [← hk]; rfl) (by simp [← hk]) (fun _ => ⟨q, hq, hquoted⟩) (by simp [← hk])
          (by simp [← hk])
      · exact .of_not_isWord (by rw [← hk]; rfl) (by simp [← hk]) (by simp [← hk]) (fun _ => hquoted) (by simp [← hk])
  | @symbol c cs =>
    cases hs : Symbol.head? (c :: cs) with
    | none => simp [Lexeme.symbol, hs] at hk
    | some s =>
      have hlongest := Symbol.longest_of_head? hs
      simp only [Lexeme.symbol, hs, Except.ok.injEq] at hk htext ⊢
      refine .of_not_isWord (by rw [← hk]; rfl) (by simp [← hk]) (by simp [← hk]) (by simp [← hk]) fun s' hs' => ?_
      obtain rfl : s = s' := by simpa [← hk] using hs'
      refine ⟨String.toList_inj.mp ?_, ?_⟩
      · rw [htext, hlongest.take_eq]
      · rw [htext, List.take_append_drop]
        exact hlongest

/-- One step of the scanner keeps the promises. -/
theorem Scanner.next_shaped {s s' : Scanner} (h : s.next = (.ok t, s')) :
    t.Shaped s.previous s'.rest ∧ s'.previous = some t.kind := by
  simp only [next] at h
  split at h
  · cases h
  · rename_i k hk
    cases h
    exact ⟨(Lexeme.opens_read (s.previous.any Kind.namesNext) s.skipTrivia.rest).shaped hk String.toList_ofList, rfl⟩

/-! ## Runs -/

namespace Scanner

/-- The scanner `s` gives the tokens, none of them the end, and is then at `s'`. -/
inductive Steps : Scanner → List Token → Scanner → Prop
  | done {s : Scanner} : Steps s [] s
  | step {s s' s'' : Scanner} {t : Token} {ts : List Token} : s.next = (.ok t, s') → t.kind ≠ .eof → Steps s' ts s'' →
      Steps s (t :: ts) s''

/-- Steps go over a part of the text, and the last token is remembered. -/
theorem Steps.passed {s s' : Scanner} {ts : List Token} (h : Steps s ts s') : ∃ passed, s.rest = passed ++ s'.rest ∧
    s'.position = s.position.advanceOver passed ∧ s'.previous = (ts.getLast?.map Token.kind).or s.previous := by
  induction h with
  | done => exact ⟨[], rfl, rfl, rfl⟩
  | @step s s' s'' t ts hx _ _ ih =>
    obtain ⟨passed, hrest, hposition, hprevious⟩ := ih
    obtain ⟨gap, text, -, hgap, -, hstart, hstop, hpos, -⟩ := next_ok hx
    refine ⟨gap ++ text ++ passed, ?_, ?_, ?_⟩
    · rw [hgap, hrest]
      simp only [List.append_assoc]
    · rw [hposition, hpos, hstop, hstart, Position.advanceOver_append, Position.advanceOver_append]
    · rw [hprevious, (next_shaped hx).2]
      cases ts with
      | nil => rfl
      | cons u us => rw [List.getLast?_cons_cons, List.getLast?_cons]; rfl

/-- A run can be split where some of its tokens end. -/
theorem Steps.split {s s' : Scanner} {before after : List Token} (h : Steps s (before ++ after) s') :
    ∃ m, Steps s before m ∧ Steps m after s' := by
  induction before generalizing s with
  | nil => exact ⟨s, .done, h⟩
  | cons t before ih =>
    cases h with
    | step hx ht hrest =>
      obtain ⟨m, hbefore, hafter⟩ := ih hrest
      exact ⟨m, .step hx ht hbefore, hafter⟩

/-- A run ends with a flaw or with the end of the text. -/
theorem run_ends (s : Scanner) : ∃ words s₁ s₂, Steps s words s₁ ∧
    ((∃ e, s₁.next = (.error e, s₂) ∧ s.tokens = .error e) ∨
      ∃ t, s₁.next = (.ok t, s₂) ∧ s.tokens = .ok (words ++ [t])) := by
  induction hn : s.rest.length using Nat.strongRecOn generalizing s with
  | ind n ih =>
    cases hx : s.next with
    | mk r s' =>
      cases r with
      | error e => exact ⟨[], s, s', .done, .inl ⟨e, hx, tokens_of_error hx⟩⟩
      | ok t =>
        by_cases ht : t.kind = .eof
        · exact ⟨[], s, s', .done, .inr ⟨t, hx, tokens_of_eof hx ht⟩⟩
        · obtain ⟨words, s₁, s₂, hsteps, hend⟩ := ih _ (hn ▸ next_rest_lt hx ht) s' rfl
          refine ⟨t :: words, s₁, s₂, .step hx ht hsteps, hend.imp ?_ ?_⟩
          · rintro ⟨e, he, htokens⟩
            exact ⟨e, he, by rw [tokens_of_ok hx ht, htokens]; rfl⟩
          · rintro ⟨u, hu, htokens⟩
            exact ⟨u, hu, by rw [tokens_of_ok hx ht, htokens]; rfl⟩

/-- Every token of a run was given by a step of it. -/
theorem tokens_split {s : Scanner} {before after : List Token} (h : s.tokens = .ok (before ++ t :: after)) :
    ∃ s₁ s₂, Steps s before s₁ ∧ s₁.next = (.ok t, s₂) := by
  obtain ⟨words, s₁, s₂, hsteps, ⟨e, -, he⟩ | ⟨u, hu, htokens⟩⟩ := run_ends s
  · rw [he] at h
    cases h
  · have heq : words ++ [u] = before ++ t :: after := Except.ok.inj (htokens.symm.trans h)
    rcases after.eq_nil_or_concat with rfl | ⟨after, v, rfl⟩
    · obtain ⟨rfl, hlast⟩ := List.append_inj' heq rfl
      cases hlast
      exact ⟨s₁, s₂, hsteps, hu⟩
    · rw [List.concat_eq_append, ← List.cons_append, ← List.append_assoc] at heq
      obtain ⟨rfl, -⟩ := List.append_inj' heq rfl
      obtain ⟨m, hbefore, hafter⟩ := hsteps.split
      cases hafter with
      | step hx => exact ⟨m, _, hbefore, hx⟩

/-- Every token of a run has the shape that its kind promises. -/
theorem tokens_shaped {s : Scanner} {ts : List Token} (h : s.tokens = .ok ts) (ht : t ∈ ts) :
    ∃ previous after, t.Shaped previous after := by
  obtain ⟨before, after, rfl⟩ := List.append_of_mem ht
  obtain ⟨s₁, s₂, -, hnext⟩ := tokens_split h
  exact ⟨_, _, (next_shaped hnext).1⟩

end Scanner

theorem Scanner.ofText_previous (source : String) : (ofText source).previous = none := by
  unfold ofText
  split
  · rfl
  · split <;> rfl

/-- **Every token has the shape that its kind promises.** A token stands in the source at its offset, and its text keeps
the promises of its kind there, behind the token before it and before the characters that follow. -/
theorem tokenize_shaped {source : String} {before after : List Token} {t : Token}
    (h : tokenize source = .ok (before ++ t :: after)) : ∃ left right : String, source = left ++ t.text ++ right ∧
      left.utf8ByteSize = t.start.offset ∧ t.Shaped (before.getLast?.map Token.kind) right.toList := by
  obtain ⟨hsource, hmark⟩ := Scanner.ofText_spec source
  obtain ⟨s₁, s₂, hsteps, hnext⟩ := Scanner.tokens_split h
  obtain ⟨passed, hrest, hposition, hprevious⟩ := hsteps.passed
  obtain ⟨gap, text, -, hgap, htext, hstart, -⟩ := Scanner.next_ok hnext
  refine ⟨leadingMark source ++ String.ofList (passed ++ gap), String.ofList s₂.rest, ?_, ?_, ?_⟩
  · calc source = leadingMark source ++ String.ofList (passed ++ (gap ++ text ++ s₂.rest)) := by
          rw [← hgap, ← hrest]
          exact hsource
      _ = leadingMark source ++ String.ofList (passed ++ gap) ++ t.text ++ String.ofList s₂.rest := by
          simp only [htext, String.ofList_append, String.append_assoc]
  · rw [hstart, hposition, String.utf8ByteSize_append, hmark, ← Position.advanceOver_append,
      Position.advanceOver_offset]
  · have hshaped := (Scanner.next_shaped hnext).1
    rw [hprevious, Scanner.ofText_previous, Option.or_none] at hshaped
    rwa [String.toList_ofList]

/-- A keyword's spelling behind a point is a plain name, and of the symbols that begin with `>` the longest is taken. -/
theorem tokenize_shaped_name :
    let source := "a?.se>>>=b"
    let before : List Token := [⟨.identifier, "a", ⟨1, 1, 0⟩, ⟨1, 2, 1⟩⟩,
      ⟨.symbol .optionalChain, "?.", ⟨1, 2, 1⟩, ⟨1, 4, 3⟩⟩, ⟨.identifier, "se", ⟨1, 4, 3⟩, ⟨1, 6, 5⟩⟩]
    let t : Token := ⟨.symbol .unsignedRightShift, ">>>", ⟨1, 6, 5⟩, ⟨1, 9, 8⟩⟩
    let after : List Token := [⟨.symbol .assign, "=", ⟨1, 9, 8⟩, ⟨1, 10, 9⟩⟩,
      ⟨.identifier, "b", ⟨1, 10, 9⟩, ⟨1, 11, 10⟩⟩, ⟨.eof, "", ⟨1, 11, 10⟩, ⟨1, 11, 10⟩⟩]
    tokenize source = .ok (before ++ t :: after) ∧ ∃ left right : String, source = left ++ t.text ++ right ∧
      left.utf8ByteSize = 5 ∧ t.Shaped (some .identifier) right.toList := by
  intro source before t after
  have h : tokenize source = .ok (before ++ t :: after) := ok_of_toOption (by decide +kernel)
  exact ⟨h, tokenize_shaped h⟩

end Vernacular
