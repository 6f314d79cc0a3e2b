import Mathlib.Data.Option.Basic
import Vernacular.Json.Reader

/-!
# Strings and numbers are read back

What a text and a natural number are written as is read as just that, whatever stands behind it.

- `Json.body_escape`, `Json.unescape?_escape`: the written form of a text ends where it should, and gives back the text;
- `Json.isNumeral_nat`: digits are read as a number up to a delimiter.
-/

namespace Vernacular.Json

/-! ## Strings -/

/-- The characters are the inside of a written string: reading goes on to the quote behind them, and no further. -/
def Body (w : List Char) : Prop := ∀ rest, stringBody (w ++ '"' :: rest) = some (w, rest)

theorem hexValue4?_hexDigit : ∀ n < 32, hexValue4? '0' '0' (hexDigit (n / 16)) (hexDigit (n % 16)) = some n := by decide

/-- The three ways to write a character: a letter behind a backslash, a number in hexadecimal digits, or itself. -/
theorem escapeChar_cases (c : Char) :
    (∃ e, escapeChar c = ['\\', e] ∧ e ≠ 'u' ∧ escaped? e = some c) ∨
    (∃ a b, escapeChar c = ['\\', 'u', '0', '0', a, b] ∧ hexValue4? '0' '0' a b = some c.toNat ∧ c.toNat < 32) ∨
    (escapeChar c = [c] ∧ c ≠ '"' ∧ c ≠ '\\' ∧ 32 ≤ c.toNat) := by
  by_cases hletter : c ∈ ['"', '\\', '\x08', '\x0c', '\n', '\r', '\t']
  · left
    simp only [List.mem_cons, List.not_mem_nil, or_false] at hletter
    rcases hletter with rfl | rfl | rfl | rfl | rfl | rfl | rfl <;> exact ⟨_, rfl, by decide, rfl⟩
  · right
    simp only [List.mem_cons, List.not_mem_nil, or_false, not_or] at hletter
    obtain ⟨hquote, hslash, h3, h4, h5, h6, h7⟩ := hletter
    simp only [escapeChar, hquote, hslash, h3, h4, h5, h6, h7, if_false]
    by_cases hlow : c.toNat < 32
    · exact .inl ⟨_, _, if_pos hlow, hexValue4?_hexDigit _ hlow, hlow⟩
    · exact .inr ⟨if_neg hlow, hquote, hslash, Nat.le_of_not_lt hlow⟩

theorem stringBody_escapeChar (c : Char) (cs : List Char) :
    stringBody (escapeChar c ++ cs) = (stringBody cs).map fun (body, rest) => (escapeChar c ++ body, rest) := by
  rcases escapeChar_cases c with ⟨e, he, hu, hc⟩ | ⟨a, b, hab, hc, -⟩ | ⟨hself, hquote, hslash, hlow⟩
  · rw [he]
    cases h : stringBody cs <;> simp [stringBody, hu, hc, h]
  · rw [hab]
    cases h : stringBody cs <;> simp [stringBody, hc, h]
  · rw [hself]
    cases h : stringBody cs <;> simp [stringBody, hslash, hlow, h, guard]

theorem body_escape (s : String) : Body (escape s).toList := by
  intro rest
  rw [escape, String.toList_ofList]
  induction s.toList with
  | nil => rfl
  | cons c cs ih => rw [List.flatMap_cons, List.append_assoc, stringBody_escapeChar, ih]; rfl

theorem unescapeChars?_escapeChar (c : Char) (cs : List Char) :
    unescapeChars? (escapeChar c ++ cs) = (unescapeChars? cs).map (c :: ·) := by
  rcases escapeChar_cases c with ⟨e, he, hu, hc⟩ | ⟨a, b, hab, hc, hlow⟩ | ⟨hself, hquote, hslash, hlow⟩
  · rw [he]
    cases h : unescapeChars? cs <;> simp [unescapeChars?, hu, hc, h]
  · have hsurrogate : c.toNat < highSurrogates := Nat.lt_trans hlow (by decide)
    rw [hab]
    cases h : unescapeChars? cs <;> simp [unescapeChars?, hc, hsurrogate, h]
  · rw [hself]
    cases h : unescapeChars? cs <;> simp [unescapeChars?, hslash, h]

/-- A text is what its written form stands for. -/
theorem unescape?_escape (s : String) : unescape? (escape s) = some s := by
  have hchars (cs : List Char) : unescapeChars? (cs.flatMap escapeChar) = some cs := by
    induction cs with
    | nil => rfl
    | cons c cs ih => rw [List.flatMap_cons, unescapeChars?_escapeChar, ih]; rfl
  rw [unescape?, escape, String.toList_ofList, hchars, Option.map_some, String.ofList_toList]

@[simp] theorem text_inj (s t : String) : text s = text t ↔ s = t := by
  refine ⟨fun h => ?_, congrArg text⟩
  have hescape : unescape? (escape s) = unescape? (escape t) := congrArg unescape? (string.inj h)
  rwa [unescape?_escape, unescape?_escape, Option.some_inj] at hescape

/-! ## Numbers -/

/-- The characters that stand behind a value, if any do. -/
def delimiters : List Char := [' ', '\n', '\t', '\r', ',', ']', '}']

/-- What follows a value begins with a delimiter. -/
def Delimited (rest : List Char) : Prop := ∀ c ∈ rest.head?, c ∈ delimiters

/-- The characters are a number, read up to a delimiter. -/
def IsNumeral (w : List Char) : Prop :=
  (∃ d ds, w = d :: ds ∧ d.isDigit = true) ∧ ∀ rest, Delimited rest → numeral (w ++ rest) = some (w, rest)

theorem not_numeric : ∀ c ∈ delimiters, c.isDigit = false ∧ c ≠ '.' ∧ c ≠ 'e' ∧ c ≠ 'E' := by
  simp [delimiters]

theorem digits_append {ds rest : List Char} (hne : ds ≠ []) (hds : ∀ d ∈ ds, d.isDigit = true)
    (hrest : Delimited rest) : digits (ds ++ rest) = some (ds, rest) := by
  obtain ⟨d, ds, rfl⟩ := List.exists_cons_of_ne_nil hne
  have htake : rest.takeWhile Char.isDigit = [] ∧ rest.dropWhile Char.isDigit = rest := by
    cases rest with
    | nil => exact ⟨rfl, rfl⟩
    | cons c rest =>
      have hc := (not_numeric c (hrest c rfl)).1
      exact ⟨List.takeWhile_cons_of_neg (by simp [hc]), List.dropWhile_cons_of_neg (by simp [hc])⟩
  have hhead : ((d :: ds ++ rest).head?.any Char.isDigit) = true := hds d List.mem_cons_self
  rw [digits, if_pos hhead, List.takeWhile_append_of_pos hds, List.dropWhile_append_of_pos hds, htake.1, htake.2,
    List.append_nil]

/-- Only the digits of zero begin with a zero. -/
theorem head?_toDigits {n : Nat} (hn : 0 < n) : (Nat.toDigits 10 n).head? ≠ some '0' := by
  induction n using Nat.strongRecOn with
  | ind n ih =>
    by_cases hlt : n < 10
    · rw [Nat.toDigits_of_lt_base hlt]
      exact (by decide : ∀ n < 10, 0 < n → [n.digitChar].head? ≠ some '0') n hlt hn
    · have hrec := ih (n / 10) (Nat.div_lt_self hn (by decide)) (by omega)
      rw [Nat.toDigits_of_base_le (by decide) (by omega)]
      obtain ⟨d, ds, hd⟩ := List.exists_cons_of_ne_nil (Nat.toDigits_ne_nil (n := n / 10) (b := 10))
      rw [hd] at hrec ⊢
      exact hrec

theorem wholePart_toDigits (n : Nat) {rest : List Char} (hrest : Delimited rest) :
    wholePart (Nat.toDigits 10 n ++ rest) = some (Nat.toDigits 10 n, rest) := by
  have hdigits : digits (Nat.toDigits 10 n ++ rest) = some (Nat.toDigits 10 n, rest) :=
    digits_append Nat.toDigits_ne_nil (fun d hd => Nat.isDigit_of_mem_toDigits (by decide) (by decide) hd) hrest
  rcases Nat.eq_zero_or_pos n with rfl | hn
  · rfl
  · have hhead := head?_toDigits hn
    obtain ⟨d, ds, hd⟩ := List.exists_cons_of_ne_nil (Nat.toDigits_ne_nil (n := n) (b := 10))
    rw [hd] at hhead hdigits ⊢
    have hzero : d ≠ '0' := fun h => hhead (congrArg some h)
    rw [← hdigits, List.cons_append]
    simp [wholePart, hzero]

theorem isNumeral_toDigits (n : Nat) : IsNumeral (Nat.toDigits 10 n) := by
  obtain ⟨d, ds, hd⟩ := List.exists_cons_of_ne_nil (Nat.toDigits_ne_nil (n := n) (b := 10))
  have hdigit : d.isDigit = true :=
    Nat.isDigit_of_mem_toDigits (n := n) (b := 10) (by decide) (by decide) (hd ▸ List.mem_cons_self)
  refine ⟨⟨d, ds, hd, hdigit⟩, fun rest hrest => ?_⟩
  have hsign : ((Nat.toDigits 10 n ++ rest).take 1).filter (· == '-') = [] := by
    have hminus : d ≠ '-' := by
      rintro rfl
      exact absurd hdigit (by decide)
    simp [hd, hminus]
  have hend : fractionPart rest = some ([], rest) ∧ exponentPart rest = some ([], rest) := by
    cases rest with
    | nil => exact ⟨rfl, rfl⟩
    | cons c rest =>
      obtain ⟨-, hpoint, hlower, hupper⟩ := not_numeric c (hrest c rfl)
      simp [fractionPart, exponentPart, hpoint, hlower, hupper]
  rw [numeral, hsign, List.length_nil, List.drop_zero, wholePart_toDigits n hrest]
  simp [hend]

@[simp] theorem nat_inj (m n : Nat) : nat m = nat n ↔ m = n := by
  refine ⟨fun h => ?_, congrArg nat⟩
  have hdigits : Nat.toDigits 10 m = Nat.toDigits 10 n := by
    simpa [nat] using congrArg String.toList (number.inj h)
  rw [← Nat.ofDigitChars_ten_toDigits (n := m), hdigits, Nat.ofDigitChars_ten_toDigits]

end Vernacular.Json
