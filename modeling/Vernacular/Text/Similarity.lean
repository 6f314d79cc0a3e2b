/-!
# Similar names

How alike two names are: one less the edit distance divided by the length of the longer name. The quotient and the
difference are each rounded to twenty-four significant binary digits, to the nearest, a half to the even neighbour
(`Score.round`). Names with a score of at least seven tenths are alike enough to be suggested for one another
(`similarNames`), the most alike first and in their given order among equals.

The edit distance is the least number of insertions, deletions and replacements of single characters that turn one text
into another. It is found by a table of which two rows are kept at a time: entry `j` of a row is the distance between
the part of the first text read so far and the first `j` characters of the second.
-/

namespace Vernacular

/-! ## Edit distance -/

/-- The entries of the next row after its first: `left` is the entry before, `diagonal` the entry before in the row
above, and `above` the rest of that row. -/
def distanceRow (a : Char) : (bs : List Char) → (diagonal left : Nat) → (above : List Nat) → List Nat
  | b :: bs, diagonal, left, up :: above =>
    let entry := min (min (up + 1) (left + 1)) (diagonal + if a = b then 0 else 1)
    entry :: distanceRow a bs up entry above
  | _, _, _, _ => []

/-- The row after `row` once the first text has gone on with `a`. -/
def nextDistanceRow (bs : List Char) (row : List Nat) (a : Char) : List Nat :=
  match row with
  | [] => []
  | diagonal :: above => (diagonal + 1) :: distanceRow a bs diagonal (diagonal + 1) above

/-- The edit distance of two texts. -/
def editDistance (as bs : List Char) : Nat :=
  (as.foldl (nextDistanceRow bs) (List.range (bs.length + 1))).getLast?.getD 0

/-! ## Rounding -/

/-- A power of two. -/
def twoPow (n : Nat) : Nat := Nat.pow 2 n

/-- A quotient rounded to the nearest natural number, a half to the even one. -/
def roundDiv (n d : Nat) : Nat :=
  let q := n / d
  let r := n % d
  if 2 * r < d then q else if d < 2 * r then q + 1 else q + q % 2

/-- A rounded quotient is within half a unit of the quotient. -/
theorem roundDiv_near (n : Nat) {d : Nat} (hd : 0 < d) :
    2 * (d * roundDiv n d) ≤ 2 * n + d ∧ 2 * n ≤ 2 * (d * roundDiv n d) + d := by
  have h := Nat.div_add_mod n d
  have lt := Nat.mod_lt n hd
  have one : d * (n / d + 1) = d * (n / d) + d := Nat.mul_succ ..
  simp only [roundDiv]
  split
  · omega
  · split
    · omega
    · rcases Nat.mod_two_eq_zero_or_one (n / d) with e | e <;> rw [e] <;> simp only [Nat.add_zero, one] <;> omega

/-! ## Scores -/

/-- The binary fraction `digits / 2 ^ places`. -/
structure Score where
  digits : Nat
  places : Nat
deriving DecidableEq, Repr

namespace Score

/-- Whether one score is at most another. -/
def le (a b : Score) : Bool :=
  a.digits * twoPow b.places ≤ b.digits * twoPow a.places

/-- The number of binary places that leave twenty-four significant digits before them in `n / d`, for `0 < n ≤ d`. -/
def placesFor (n d : Nat) : Nat :=
  let p := 23 + d.log2 - n.log2
  if n * twoPow p < d * twoPow 23 then p + 1 else p

/-- The quotient `n / d` rounded to twenty-four significant binary digits, for `n ≤ d`. -/
def round (n d : Nat) : Score :=
  if n = 0 then ⟨0, 0⟩ else ⟨roundDiv (n * twoPow (placesFor n d)) d, placesFor n d⟩

/-- One less a score, rounded likewise. -/
def complement (s : Score) : Score :=
  round (twoPow s.places - s.digits) (twoPow s.places)

/-- How alike two texts are. Nothing is like the empty text. -/
def of (a b : String) : Score :=
  if a.length = 0 ∨ b.length = 0 then ⟨0, 0⟩
  else (round (editDistance a.toList b.toList) (max a.length b.length)).complement

/-- The least score of names that are alike. -/
def alike : Score := round 7 10

end Score

/-- The candidates that are most like a name, at most three of them, best first. The name itself is not among them. -/
def similarNames (name : String) (candidates : List String) : List String :=
  let scored := (candidates.filter (· != name)).map fun c => (c, Score.of name c)
  let close := scored.filter fun (_, score) => Score.alike.le score
  ((close.mergeSort fun x y => y.2.le x.2).take 3).map Prod.fst

end Vernacular
