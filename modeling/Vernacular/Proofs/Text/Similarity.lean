import Mathlib.Algebra.Order.Field.Rat
import Mathlib.Tactic.FieldSimp
import Mathlib.Tactic.Linarith
import Mathlib.Tactic.Positivity
import Vernacular.Proofs.Text.Distance

/-!
# Scores rank names as exact fractions do

A score is rounded twice, and still tells names of usual length apart as the fraction `distance / length` does.

- `Score.round_near`: rounding changes a fraction by at most `1 / 2 ^ 24`;
- `Score.round_congr`: equal fractions are rounded to the same score, whatever their terms;
- `Score.likeness_le_iff`: so scores compare as the fractions do, if the product of the lengths is below `2 ^ 22`:
  different fractions are then further apart than the errors add up to.
- `Score.alike_le_iff`, `Score.of_le_iff`: what this means for the names.
-/

namespace Vernacular

theorem twoPow_eq (n : Nat) : twoPow n = 2 ^ n := rfl

/-- Rounding depends on the fraction and not on its terms. -/
theorem roundDiv_mul_left {k : Nat} (hk : 0 < k) (n d : Nat) : roundDiv (k * n) (k * d) = roundDiv n d := by
  have hscale (r : Nat) : 2 * (k * r) = k * (2 * r) := by rw [Nat.mul_left_comm]
  simp only [roundDiv, Nat.mul_div_mul_left _ _ hk, Nat.mul_mod_mul_left, hscale, Nat.mul_lt_mul_left hk]

namespace Score

/-! ## Equal fractions -/

/-- With `p` places, twenty-four digits stand before the point of `n / d`. -/
def Fits (n d p : Nat) : Prop := d * 2 ^ 23 ≤ n * 2 ^ p ∧ n * 2 ^ p < d * 2 ^ 24

variable {n d n' d' p q : Nat}

theorem mul_two_pow_succ (n p : Nat) : n * 2 ^ (p + 1) = 2 * (n * 2 ^ p) := by
  rw [Nat.pow_succ, ← Nat.mul_assoc, Nat.mul_comm]

theorem log2_le_log2 (hn : 0 < n) (h : n ≤ d) : n.log2 ≤ d.log2 :=
  (Nat.le_log2 (hn.trans_le h).ne').mpr ((Nat.log2_self_le hn.ne').trans h)

/-- The places that are chosen give twenty-four digits. -/
theorem fits_placesFor (hn : 0 < n) (h : n ≤ d) : Fits n d (placesFor n d) := by
  have hlog := log2_le_log2 hn h
  generalize hp : 23 + d.log2 - n.log2 = p
  have hexp : n.log2 + 1 + p = d.log2 + 24 := by omega
  have hhigh : n * 2 ^ p < d * 2 ^ 24 := calc
    n * 2 ^ p < 2 ^ (n.log2 + 1) * 2 ^ p := Nat.mul_lt_mul_of_pos_right Nat.lt_log2_self (Nat.two_pow_pos p)
    _ = 2 ^ d.log2 * 2 ^ 24 := by rw [← Nat.pow_add, ← Nat.pow_add, hexp]
    _ ≤ d * 2 ^ 24 := Nat.mul_le_mul_right _ (Nat.log2_self_le (hn.trans_le h).ne')
  have hlow : d * 2 ^ 23 ≤ n * 2 ^ (p + 1) := calc
    d * 2 ^ 23 ≤ 2 ^ (d.log2 + 1) * 2 ^ 23 := Nat.mul_le_mul_right _ Nat.lt_log2_self.le
    _ = 2 ^ n.log2 * 2 ^ (p + 1) := by rw [← Nat.pow_add, ← Nat.pow_add]; congr 1; omega
    _ ≤ n * 2 ^ (p + 1) := Nat.mul_le_mul_right _ (Nat.log2_self_le hn.ne')
  have hplaces : placesFor n d = if n * 2 ^ p < d * 2 ^ 23 then p + 1 else p := by rw [← hp]; rfl
  rw [mul_two_pow_succ n] at hlow
  rw [hplaces]
  split
  · rw [Fits, mul_two_pow_succ n]
    omega
  · rw [Fits]
    omega

/-- With twenty-four digits for one number of places there are more for a larger one, so the number is unique. -/
theorem Fits.le (hp : Fits n d p) (hq : Fits n d q) : p ≤ q := by
  by_contra! hlt
  have hpow : n * 2 ^ (q + 1) ≤ n * 2 ^ p := Nat.mul_le_mul_left n (Nat.pow_le_pow_right two_pos hlt)
  rw [mul_two_pow_succ n] at hpow
  obtain ⟨-, hhigh⟩ := hp
  obtain ⟨hlow, -⟩ := hq
  omega

/-- The places depend on the fraction and not on its terms. -/
theorem Fits.mul_left {k : Nat} (hk : 0 < k) (h : Fits n d p) : Fits (k * n) (k * d) p := by
  rw [Fits, Nat.mul_assoc, Nat.mul_assoc, Nat.mul_assoc]
  exact ⟨Nat.mul_le_mul_left k h.1, Nat.mul_lt_mul_of_pos_left h.2 hk⟩

/-- So does the score. -/
theorem round_mul_left {k : Nat} (hk : 0 < k) (h : n ≤ d) : round (k * n) (k * d) = round n d := by
  rcases Nat.eq_zero_or_pos n with rfl | hn
  · simp [round]
  · have hscaled := fits_placesFor (Nat.mul_pos hk hn) (Nat.mul_le_mul_left k h)
    have hfits := (fits_placesFor hn h).mul_left hk
    have hplaces : placesFor (k * n) (k * d) = placesFor n d := (hscaled.le hfits).antisymm (hfits.le hscaled)
    rw [round, round, if_neg (Nat.mul_pos hk hn).ne', if_neg hn.ne', hplaces, Nat.mul_assoc, roundDiv_mul_left hk]

/-- Equal fractions are rounded alike. -/
theorem round_congr (hd : 0 < d) (hd' : 0 < d') (h : n ≤ d) (h' : n' ≤ d') (heq : n * d' = n' * d) :
    round n d = round n' d' := by
  rw [← round_mul_left hd' h, ← round_mul_left hd h', Nat.mul_comm d' n, Nat.mul_comm d n', heq, Nat.mul_comm d d']

/-! ## How far a score is from what it stands for -/

/-- The fraction that a score is. -/
def value (s : Score) : ℚ := s.digits / 2 ^ s.places

theorem le_iff (a b : Score) : a.le b = true ↔ a.value ≤ b.value := by
  rw [le, decide_eq_true_iff, value, value, div_le_div_iff₀ (by positivity) (by positivity)]
  simp only [twoPow_eq]
  exact_mod_cast Iff.rfl

/-- Fractions up to one have at least twenty-three places. -/
theorem le_placesFor (hn : 0 < n) (h : n ≤ d) : 23 ≤ placesFor n d := by
  have hlog := log2_le_log2 hn h
  simp only [placesFor]
  split <;> omega

/-- A fraction up to one is rounded to at most one. -/
theorem digits_round_le (hd : 0 < d) (h : n ≤ d) : (round n d).digits ≤ 2 ^ (round n d).places := by
  rw [round]
  split
  · exact Nat.zero_le _
  · generalize placesFor n d = p
    have hnear := (roundDiv_near (n * twoPow p) hd).1
    have hone : n * twoPow p ≤ d * 2 ^ p := Nat.mul_le_mul_right _ h
    by_contra! hlt
    have hnext : d * (2 ^ p + 1) ≤ d * roundDiv (n * twoPow p) d := Nat.mul_le_mul_left d hlt
    rw [Nat.mul_succ] at hnext
    omega

/-- Rounding changes a fraction by half a unit of its last place at most. -/
theorem round_near (hd : 0 < d) (h : n ≤ d) : |(round n d).value - n / d| ≤ 1 / 2 ^ 24 := by
  rcases Nat.eq_zero_or_pos n with rfl | hn
  · simp [round, value]
  · rw [round, if_neg hn.ne', value]
    have hplaces := le_placesFor hn h
    generalize placesFor n d = p at *
    obtain ⟨hhigh, hlow⟩ := roundDiv_near (n * twoPow p) hd
    generalize roundDiv (n * twoPow p) d = r at *
    have hd' : (0 : ℚ) < d := by exact_mod_cast hd
    have hpow : (2 : ℚ) ^ 24 ≤ 2 * 2 ^ p := by
      rw [← pow_succ']
      exact pow_le_pow_right₀ one_le_two (by omega)
    have hunits : |(r : ℚ) * d - 2 ^ p * n| ≤ d / 2 := by
      have hhigh' : 2 * ((d : ℚ) * r) ≤ 2 * (n * 2 ^ p) + d := by exact_mod_cast hhigh
      have hlow' : 2 * ((n : ℚ) * 2 ^ p) ≤ 2 * (d * r) + d := by exact_mod_cast hlow
      rw [abs_le]
      constructor <;> linarith
    calc |(r : ℚ) / 2 ^ p - n / d|
        = |(r : ℚ) * d - 2 ^ p * n| / (2 ^ p * d) := by
          rw [div_sub_div _ _ (by positivity) hd'.ne', abs_div, abs_of_pos (by positivity : (0 : ℚ) < 2 ^ p * d)]
      _ ≤ (d / 2) / (2 ^ p * d) := by gcongr
      _ = 1 / (2 * 2 ^ p) := by field_simp
      _ ≤ 1 / 2 ^ 24 := one_div_le_one_div_of_le (by positivity) hpow

/-- So does taking a score from one. -/
theorem complement_near {s : Score} (h : s.digits ≤ 2 ^ s.places) :
    |s.complement.value - (1 - s.value)| ≤ 1 / 2 ^ 24 := by
  have hnear := round_near (Nat.two_pow_pos s.places) (Nat.sub_le (2 ^ s.places) s.digits)
  have hvalue : ((2 ^ s.places - s.digits : ℕ) : ℚ) / ((2 ^ s.places : ℕ) : ℚ) = 1 - s.value := by
    rw [Nat.cast_sub h, value, sub_div]
    simp
  rw [hvalue] at hnear
  exact hnear

/-! ## Fractions in order -/

/-- The score of two texts of which the longer one has `m` characters, at the distance `d`. -/
def likeness (d m : Nat) : Score := (round d m).complement

/-- Different fractions with small terms are far apart. -/
theorem add_lt_of_lt {m m' : Nat} (hm : 0 < m) (hm' : 0 < m') (hsmall : m * m' < 2 ^ 22)
    (hlt : (d : ℚ) / m < d' / m') : (d : ℚ) / m + 1 / 2 ^ 22 < d' / m' := by
  have hpos : (0 : ℚ) < m := by exact_mod_cast hm
  have hpos' : (0 : ℚ) < m' := by exact_mod_cast hm'
  have hterms : (d : ℚ) * m' + 1 ≤ d' * m := by
    rw [div_lt_div_iff₀ hpos hpos'] at hlt
    exact_mod_cast hlt
  calc (d : ℚ) / m + 1 / 2 ^ 22
      < d / m + 1 / (m * m') := by
        gcongr
        exact_mod_cast hsmall
    _ = (d * m' + 1) / (m * m') := by field_simp
    _ ≤ d' * m / (m * m') := by gcongr
    _ = d' / m' := by field_simp

section Likeness

variable {m m' : Nat} (hm : 0 < m) (hm' : 0 < m') (h : d ≤ m) (h' : d' ≤ m')
include hm h

/-- The two roundings together. -/
theorem likeness_near : |(likeness d m).value - (1 - d / m)| ≤ 1 / 2 ^ 23 := by
  have hround := round_near hm h
  have hcomplement := complement_near (digits_round_le hm h)
  rw [abs_le] at hround hcomplement ⊢
  rw [likeness]
  constructor <;> linarith

include hm' h'

/-- The lesser fraction has the greater score, if the fractions are far apart. -/
theorem likeness_lt (hfar : (d : ℚ) / m + 1 / 2 ^ 22 < d' / m') : (likeness d' m').value < (likeness d m).value := by
  have hnear := likeness_near hm h
  have hnear' := likeness_near hm' h'
  rw [abs_le] at hnear hnear'
  linarith

/-- Scores are ordered as the fractions are, the other way round. -/
theorem likeness_le_iff (hsmall : m * m' < 2 ^ 22) :
    (likeness d' m').le (likeness d m) = true ↔ (d : ℚ) / m ≤ d' / m' := by
  rw [le_iff]
  rcases lt_trichotomy ((d : ℚ) / m) (d' / m') with hlt | heq | hgt
  · have hscore := likeness_lt hm hm' h h' (add_lt_of_lt hm hm' hsmall hlt)
    exact iff_of_true hscore.le hlt.le
  · have hpos : (m : ℚ) ≠ 0 := by exact_mod_cast hm.ne'
    have hpos' : (m' : ℚ) ≠ 0 := by exact_mod_cast hm'.ne'
    have hterms : d * m' = d' * m := by
      rw [div_eq_div_iff hpos hpos'] at heq
      exact_mod_cast heq
    rw [likeness, likeness, round_congr hm hm' h h' hterms]
    exact iff_of_true le_rfl heq.le
  · have hscore := likeness_lt hm' hm h' h (add_lt_of_lt hm' hm (by rwa [Nat.mul_comm]) hgt)
    exact iff_of_false hscore.not_ge hgt.not_ge

end Likeness

end Score

/-! ## Names -/

/-- How far apart two texts are: their distance, as a part of the length of the longer one. -/
def farness (a b : String) : ℚ := editDistance a.toList b.toList / max a.length b.length

/-- A text is not the other one, and no more than three tenths of the longer of them apart from it. -/
def Nearby (name c : String) : Prop := c ≠ name ∧ 10 * editDistance name.toList c.toList ≤ 3 * max name.length c.length

instance (name c : String) : Decidable (Nearby name c) := inferInstanceAs (Decidable (_ ∧ _))

/-- The length of a name that scores tell apart from every other one. -/
def Usual (c : String) : Prop := 0 < c.length ∧ c.length ≤ 2 ^ 10

instance (c : String) : Decidable (Usual c) := inferInstanceAs (Decidable (_ ∧ _))

section Names

variable {name c c' : String}

/-- A name is no further away than the longer of the two is long. -/
theorem distance_le : editDistance name.toList c.toList ≤ max name.length c.length := by
  simpa only [String.length_toList] using editDistance_le_max name.toList c.toList

/-- Nothing of usual length is near the empty text. -/
theorem Nearby.length_pos (h : Nearby name c) (hc : Usual c) : 0 < name.length := by
  by_contra! hzero
  have hnil : name.toList = [] := List.eq_nil_of_length_eq_zero (by rw [String.length_toList]; omega)
  have hdistance : editDistance name.toList c.toList = c.length := by
    rw [hnil, editDistance_eq, List.reverse_nil, leastEdits_nil_left, List.length_reverse, String.length_toList]
  obtain ⟨-, hclose⟩ := h
  obtain ⟨hpos, -⟩ := hc
  omega

theorem length_le_add_distance : name.length ≤ c.length + editDistance name.toList c.toList := by
  simpa only [String.length_toList] using length_le_editDistance name.toList c.toList

theorem Nearby.length_lt (h : Nearby name c) (hc : Usual c) : max name.length c.length < 2 ^ 11 := by
  have hlength : name.length ≤ c.length + editDistance name.toList c.toList := length_le_add_distance
  obtain ⟨-, hclose⟩ := h
  obtain ⟨-, hlong⟩ := hc
  omega

theorem Score.of_eq (hname : 0 < name.length) (hc : Usual c) :
    Score.of name c = likeness (editDistance name.toList c.toList) (max name.length c.length) := by
  obtain ⟨hpos, -⟩ := hc
  rw [of, if_neg (by omega), likeness]

theorem Score.alike_eq : alike = likeness 3 10 := by decide +kernel

/-- A score is high enough exactly if the distance is at most three tenths of the length. -/
theorem Score.alike_le_iff (hne : c ≠ name) (hc : Usual c) : alike.le (of name c) = true ↔ Nearby name c := by
  rcases Nat.eq_zero_or_pos name.length with hzero | hname
  · refine iff_of_false ?_ fun h => (h.length_pos hc).ne' hzero
    rw [of, if_pos (.inl hzero)]
    decide
  have hmax : 0 < max name.length c.length := by omega
  have hfraction : Nearby name c ↔ ((editDistance name.toList c.toList : ℕ) : ℚ) / (max name.length c.length : ℕ) ≤
      (3 : ℕ) / (10 : ℕ) := by
    rw [Nearby, div_le_div_iff₀ (by exact_mod_cast hmax) (by norm_num), and_iff_right hne]
    norm_cast
    rw [Nat.mul_comm]
  rw [of_eq hname hc, alike_eq]
  by_cases hlong : name.length < 2 ^ 11
  · have hsmall : max name.length c.length * 10 < 2 ^ 22 := by
      obtain ⟨-, hshort⟩ := hc
      omega
    rw [likeness_le_iff hmax (by decide) distance_le (by decide) hsmall, hfraction]
  · -- Half of a long name has to go, at least.
    have hlength : name.length ≤ c.length + editDistance name.toList c.toList := length_le_add_distance
    have hhalf : max name.length c.length ≤ 2 * editDistance name.toList c.toList := by
      obtain ⟨-, hshort⟩ := hc
      omega
    have hfar : ((3 : ℕ) : ℚ) / (10 : ℕ) + 1 / 2 ^ 22 <
        (editDistance name.toList c.toList : ℕ) / (max name.length c.length : ℕ) := by
      calc ((3 : ℕ) : ℚ) / (10 : ℕ) + 1 / 2 ^ 22 < 1 / 2 := by norm_num
        _ ≤ _ := by
          rw [div_le_div_iff₀ (by norm_num) (by exact_mod_cast hmax)]
          exact_mod_cast (by omega : 1 * max name.length c.length ≤ editDistance name.toList c.toList * 2)
    have hscore := likeness_lt (by decide) hmax (by decide) distance_le hfar
    rw [le_iff, hfraction]
    exact iff_of_false hscore.not_ge (by linarith)

/-- Among names that are near, the order of the scores is that of the fractions. -/
theorem Score.of_le_iff (h : Nearby name c) (h' : Nearby name c') (hc : Usual c) (hc' : Usual c') :
    (of name c').le (of name c) = true ↔ farness name c ≤ farness name c' := by
  have hname := h.length_pos hc
  have hlt := h.length_lt hc
  have hlt' := h'.length_lt hc'
  have hsmall : max name.length c.length * max name.length c'.length < 2 ^ 22 := calc
    _ < 2 ^ 11 * 2 ^ 11 := Nat.mul_lt_mul'' hlt hlt'
    _ = 2 ^ 22 := by decide
  rw [of_eq hname hc, of_eq hname hc', likeness_le_iff (by omega) (by omega) distance_le distance_le hsmall]
  simp [farness]

end Names

/-! ## The first of the nearest -/

/-- The first element that sorting puts first is less than those before it, and at most those behind it. -/
theorem head?_mergeSort {α : Type} {le : α → α → Bool} (trans : ∀ a b c, le a b = true → le b c = true → le a c = true)
    (total : ∀ a b, (le a b || le b a) = true) {l : List α} {a : α} (h : (l.mergeSort le).head? = some a) :
    ∃ before after, l = before ++ a :: after ∧ (∀ b ∈ before, le b a = false) ∧ ∀ b ∈ after, le a b = true := by
  induction l with
  | nil => simp at h
  | cons x l ih =>
    obtain ⟨l₁, l₂, hsorted, hrest, hbefore⟩ := List.mergeSort_cons trans total x l
    cases l₁ with
    | nil =>
      obtain rfl : x = a := by simpa [hsorted] using h
      have hpairwise := List.pairwise_mergeSort trans total (x :: l)
      rw [hsorted] at hpairwise
      refine ⟨[], l, rfl, nofun, fun b hb => ?_⟩
      have hb : b ∈ l.mergeSort le := List.mem_mergeSort.mpr hb
      rw [hrest] at hb
      exact (List.pairwise_cons.mp hpairwise).1 b hb
    | cons y l₁ =>
      obtain rfl : y = a := by simpa [hsorted] using h
      obtain ⟨before, after, rfl, hlt, hle⟩ := ih (by rw [hrest]; rfl)
      refine ⟨x :: before, after, rfl, fun b hb => ?_, hle⟩
      rcases List.mem_cons.mp hb with rfl | hb
      · simpa using hbefore y List.mem_cons_self
      · exact hlt b hb

/-- `k` is near the name, nearer than all candidates before it, and no candidate behind it is nearer. -/
def Nearest (name : String) (candidates : List String) (k : String) : Prop :=
  ∃ before after, candidates = before ++ k :: after ∧ Nearby name k ∧
    (∀ c ∈ before, Nearby name c → farness name k < farness name c) ∧
    ∀ c ∈ after, Nearby name c → farness name k ≤ farness name c

section Nearest

variable {name k k' : String} {candidates : List String}

/-- There is one nearest candidate at most. -/
theorem Nearest.eq (h : Nearest name candidates k) (h' : Nearest name candidates k') : k = k' := by
  obtain ⟨before, after, hsplit, hnear, hlt, hle⟩ := h
  obtain ⟨before', after', hsplit', hnear', hlt', hle'⟩ := h'
  -- If one came before the other, it would be both nearer and not.
  rcases List.append_eq_append_iff.mp (hsplit.symm.trans hsplit') with ⟨mid, rfl, hmid⟩ | ⟨mid, rfl, hmid⟩
  · cases mid with
    | nil => exact (List.cons.inj hmid).1
    | cons x mid =>
      obtain ⟨rfl, rfl⟩ := List.cons.inj hmid
      exact absurd (hlt' k (by simp) hnear) (hle k' (by simp) hnear').not_gt
  · cases mid with
    | nil => exact (List.cons.inj hmid).1.symm
    | cons x mid =>
      obtain ⟨rfl, rfl⟩ := List.cons.inj hmid
      exact absurd (hlt k' (by simp) hnear') (hle' k (by simp) hnear).not_gt

/-- Suggestions are the near candidates, sorted by their scores. -/
theorem similarNames_eq (husual : ∀ c ∈ candidates, Usual c) : similarNames name candidates =
    ((candidates.filter fun c => decide (Nearby name c)).mergeSort fun x y =>
      (Score.of name y).le (Score.of name x)).take 3 := by
  have hfilter : (candidates.filter fun c => c != name).filter (fun c => Score.alike.le (Score.of name c)) =
      candidates.filter fun c => decide (Nearby name c) := by
    rw [List.filter_filter]
    refine List.filter_congr fun c hc => ?_
    by_cases hne : c = name
    · simp [hne, Nearby]
    · simp [hne, ← Score.alike_le_iff hne (husual c hc)]
  simp only [similarNames, List.filter_map, Function.comp_def, hfilter]
  rw [← List.map_mergeSort (r := fun x y => (Score.of name y).le (Score.of name x)) fun a _ b _ => rfl, List.map_take,
    List.map_map]
  exact congrArg _ (List.map_id _)

/-- The first suggestion is the nearest candidate. -/
theorem nearest_of_head? (husual : ∀ c ∈ candidates, Usual c) (h : (similarNames name candidates).head? = some k) :
    Nearest name candidates k := by
  rw [similarNames_eq husual, List.head?_take, if_neg (by decide)] at h
  obtain ⟨before, after, hfilter, hbefore, hafter⟩ := head?_mergeSort
    (fun a b c hab hbc => by rw [Score.le_iff] at *; exact hbc.trans hab)
    (fun a b => by simpa [Score.le_iff] using le_total _ _) h
  obtain ⟨first, rest, rfl, hfirst, hrest⟩ := List.filter_eq_append_iff.mp hfilter
  obtain ⟨skipped, last, rfl, hskipped, hk, hlast⟩ := List.filter_eq_cons_iff.mp hrest
  have hnear : Nearby name k := of_decide_eq_true hk
  have husualk : Usual k := husual k (by simp)
  refine ⟨first ++ skipped, last, by rw [List.append_assoc], hnear, fun c hc hnearc => ?_, fun c hc hnearc => ?_⟩
  · have hcusual : Usual c := husual c (by simp at hc ⊢; tauto)
    rcases List.mem_append.mp hc with hc | hc
    · have hscore := hbefore c (hfirst ▸ List.mem_filter.mpr ⟨hc, decide_eq_true hnearc⟩)
      rw [← not_le, ← Score.of_le_iff hnearc hnear hcusual husualk, hscore]
      decide
    · exact absurd (decide_eq_true hnearc) (hskipped c hc)
  · have hcusual : Usual c := husual c (by simp [hc])
    have hscore := hafter c (hlast ▸ List.mem_filter.mpr ⟨hc, decide_eq_true hnearc⟩)
    rwa [Score.of_le_iff hnear hnearc husualk hcusual] at hscore

/-- There is a suggestion exactly if some candidate is near. -/
theorem isSome_head?_similarNames (husual : ∀ c ∈ candidates, Usual c) :
    (similarNames name candidates).head?.isSome ↔ ∃ c ∈ candidates, Nearby name c := by
  rw [similarNames_eq husual, List.head?_take, if_neg (by decide), List.isSome_head?, ← List.length_pos_iff,
    List.length_mergeSort, List.length_pos_iff_exists_mem]
  simp

/-- The first suggestion is the first of the nearest candidates. -/
theorem head?_similarNames (husual : ∀ c ∈ candidates, Usual c) :
    (similarNames name candidates).head? = some k ↔ Nearest name candidates k := by
  refine ⟨nearest_of_head? husual, fun h => ?_⟩
  have hsome : (similarNames name candidates).head?.isSome := by
    obtain ⟨before, after, rfl, hnear, -⟩ := h
    exact (isSome_head?_similarNames husual).mpr ⟨k, by simp, hnear⟩
  obtain ⟨k', hk'⟩ := Option.isSome_iff_exists.mp hsome
  rw [hk', (nearest_of_head? husual hk').eq h]

end Nearest

end Vernacular
