import Mathlib.Order.Bounds.Defs
import Vernacular.Text.Similarity

/-!
# The edit distance is least

An edit puts in, takes out or replaces one character, at any place of a text. The edit distance of two texts is the
least number of edits that turn one into the other (`editDistance_isLeast`).

- `leastEdits` is the distance by recursion on first characters. One edit changes it by one at most
  (`leastEdits_le_of_edit`), and it is reached (`edits_leastEdits`);
- `distanceRow_later`, `foldl_nextDistanceRow`: an entry of a row is the distance of the two parts that were read, last
  characters first;
- `indexedDistance?` fills the rows entry by entry, each found by its index. No index is out of bounds
  (`indexedDistance?_eq`).
-/

namespace Vernacular

variable {as bs : List Char}

/-! ## Edits -/

/-- One edit. -/
inductive Edit : List Char → List Char → Prop
  | insert (before : List Char) (c : Char) (after : List Char) : Edit (before ++ after) (before ++ c :: after)
  | delete (before : List Char) (c : Char) (after : List Char) : Edit (before ++ c :: after) (before ++ after)
  | replace (before : List Char) (c d : Char) (after : List Char) : Edit (before ++ c :: after) (before ++ d :: after)

/-- A number of edits, one after another. -/
inductive Edits : Nat → List Char → List Char → Prop
  | refl (as : List Char) : Edits 0 as as
  | step {n : Nat} {as bs cs : List Char} : Edit as bs → Edits n bs cs → Edits (n + 1) as cs

/-- An edit further inside. -/
theorem Edit.cons (x : Char) (h : Edit as bs) : Edit (x :: as) (x :: bs) := by
  cases h with
  | insert before c after => exact .insert (x :: before) c after
  | delete before c after => exact .delete (x :: before) c after
  | replace before c d after => exact .replace (x :: before) c d after

/-- An edit is one from behind as well. -/
theorem Edit.reverse (h : Edit as bs) : Edit as.reverse bs.reverse := by
  cases h with
  | insert before c after => simpa using Edit.insert after.reverse c before.reverse
  | delete before c after => simpa using Edit.delete after.reverse c before.reverse
  | replace before c d after => simpa using Edit.replace after.reverse c d before.reverse

/-- An edit changes the length by one at most. -/
theorem Edit.length_le (h : Edit as bs) : as.length ≤ bs.length + 1 := by
  cases h with
  | insert before c after => simp only [List.length_append, List.length_cons]; omega
  | delete before c after => simp only [List.length_append, List.length_cons]; omega
  | replace before c d after => simp only [List.length_append, List.length_cons]; omega

namespace Edits

variable {m n : Nat}

theorem cons (x : Char) (h : Edits n as bs) : Edits n (x :: as) (x :: bs) := by
  induction h with
  | refl as => exact .refl _
  | step he _ ih => exact .step (he.cons x) ih

/-- Edits can be made from behind. -/
theorem reverse (h : Edits n as bs) : Edits n as.reverse bs.reverse := by
  induction h with
  | refl as => exact .refl _
  | step he _ ih => exact .step he.reverse ih

theorem reverse_iff : Edits n as.reverse bs.reverse ↔ Edits n as bs :=
  ⟨fun h => by simpa using h.reverse, reverse⟩

/-- So many edits change the length by as much at most. -/
theorem length_le (h : Edits n as bs) : as.length ≤ bs.length + n := by
  induction h with
  | refl as => exact Nat.le_refl _
  | step he _ ih =>
    have := he.length_le
    omega

/-- The smaller of two numbers of edits is enough if both are. -/
theorem min (hm : Edits m as bs) (hn : Edits n as bs) : Edits (min m n) as bs := by
  rcases Nat.le_total m n with h | h
  · rwa [Nat.min_eq_left h]
  · rwa [Nat.min_eq_right h]

end Edits

/-! ## The least number of edits -/

/-- The least number of edits, by recursion on the first characters: the first one of the first text is taken out, that
of the second text is put in, or the one becomes the other. -/
def leastEdits : List Char → List Char → Nat
  | [], bs => bs.length
  | as, [] => as.length
  | a :: as, b :: bs =>
    min (min (leastEdits as (b :: bs) + 1) (leastEdits (a :: as) bs + 1)) (leastEdits as bs + if a = b then 0 else 1)

@[simp] theorem leastEdits_nil_left (bs : List Char) : leastEdits [] bs = bs.length := by
  unfold leastEdits; rfl

@[simp] theorem leastEdits_nil_right (as : List Char) : leastEdits as [] = as.length := by
  cases as <;> simp [leastEdits]

/-- The first characters are deleted, inserted or replaced, and replacing is free if they agree. -/
theorem leastEdits_cons (a b : Char) (as bs : List Char) : leastEdits (a :: as) (b :: bs) =
    min (min (leastEdits as (b :: bs) + 1) (leastEdits (a :: as) bs + 1))
      (leastEdits as bs + if a = b then 0 else 1) := by
  rw [leastEdits]

theorem leastEdits_self (as : List Char) : leastEdits as as = 0 := by
  induction as with
  | nil => simp
  | cons a as ih => simp [leastEdits_cons, ih]

/-- Replacing character by character, and inserting or deleting the rest, is one way. -/
theorem leastEdits_le_max (as bs : List Char) : leastEdits as bs ≤ max as.length bs.length := by
  induction as generalizing bs with
  | nil => simp
  | cons a as ih =>
    cases bs with
    | nil => simp
    | cons b bs =>
      have := ih bs
      have hcost : (if a = b then 0 else 1) ≤ 1 := by split <;> omega
      rw [leastEdits_cons, List.length_cons, List.length_cons]
      omega

/-- There are as many edits as that. -/
theorem edits_leastEdits (as bs : List Char) : Edits (leastEdits as bs) as bs := by
  fun_induction leastEdits as bs with
  | case1 bs =>
    induction bs with
    | nil => exact .refl _
    | cons b bs ih => exact .step (.insert [] b []) (ih.cons b)
  | case2 as has =>
    clear has
    induction as with
    | nil => exact .refl _
    | cons a as ih => exact .step (.delete [] a as) ih
  | case3 a as b bs ihDelete ihInsert ihReplace =>
    refine .min (.min (.step (.delete [] a as) ihDelete) (.step (.insert [] b (a :: as)) (ihInsert.cons b))) ?_
    split
    · rename_i heq
      exact heq ▸ ihReplace.cons a
    · exact .step (.replace [] a b as) (ihReplace.cons b)

/-! ### One edit changes it by one at most -/

section Change

variable {as' : List Char}

/-- A character in front costs one edit at most. -/
theorem leastEdits_cons_le (a : Char) (as bs : List Char) : leastEdits (a :: as) bs ≤ leastEdits as bs + 1 := by
  cases bs with
  | nil => simp
  | cons b bs => rw [leastEdits_cons]; omega

theorem leastEdits_le_cons_right (as : List Char) (b : Char) (bs : List Char) :
    leastEdits as (b :: bs) ≤ leastEdits as bs + 1 := by
  cases as with
  | nil => simp
  | cons a as => rw [leastEdits_cons]; omega

/-- A character less costs one edit at most. -/
theorem leastEdits_le_cons (a : Char) (as bs : List Char) : leastEdits as bs ≤ leastEdits (a :: as) bs + 1 := by
  induction bs with
  | nil => simp; omega
  | cons b bs ih =>
    have := leastEdits_le_cons_right as b bs
    rw [leastEdits_cons]
    omega

/-- Another character in front costs one edit at most. -/
theorem leastEdits_replace_le (a a' : Char) (as bs : List Char) :
    leastEdits (a :: as) bs ≤ leastEdits (a' :: as) bs + 1 := by
  induction bs with
  | nil => simp
  | cons b bs ih =>
    have hcost : (if a = b then 0 else 1) ≤ 1 := by split <;> omega
    rw [leastEdits_cons, leastEdits_cons]
    omega

/-- What is known of the rest of two texts holds with the same character before both. -/
theorem leastEdits_cons_congr (x : Char) (h : ∀ bs, leastEdits as bs ≤ leastEdits as' bs + 1) (bs : List Char) :
    leastEdits (x :: as) bs ≤ leastEdits (x :: as') bs + 1 := by
  induction bs with
  | nil => simpa using h []
  | cons b bs ih =>
    have hdelete := h (b :: bs)
    have hreplace := h bs
    rw [leastEdits_cons, leastEdits_cons]
    omega

/-- What costs one edit more at most does so behind a common beginning. -/
theorem leastEdits_append_congr (before : List Char) (h : ∀ bs, leastEdits as bs ≤ leastEdits as' bs + 1)
    (bs : List Char) : leastEdits (before ++ as) bs ≤ leastEdits (before ++ as') bs + 1 := by
  induction before generalizing bs with
  | nil => exact h bs
  | cons x before ih => exact leastEdits_cons_congr x ih bs

/-- An edit changes the least number of edits by one at most. -/
theorem leastEdits_le_of_edit (h : Edit as as') (bs : List Char) : leastEdits as bs ≤ leastEdits as' bs + 1 := by
  cases h with
  | insert before c after => exact leastEdits_append_congr before (leastEdits_le_cons c after) bs
  | delete before c after => exact leastEdits_append_congr before (leastEdits_cons_le c after) bs
  | replace before c d after => exact leastEdits_append_congr before (leastEdits_replace_le c d after) bs

/-- Fewer edits are not enough. -/
theorem leastEdits_le_of_edits {n : Nat} (h : Edits n as bs) : leastEdits as bs ≤ n := by
  induction h with
  | refl as => exact Nat.le_of_eq (leastEdits_self as)
  | step he _ ih => exact Nat.le_trans (leastEdits_le_of_edit he _) (Nat.succ_le_succ ih)

end Change

/-! ## Rows -/

/-- The entries of a row behind the entry for `q`, as the second text goes on with `bs`. The parts that were read, `p`
and `q`, are written last character first. -/
def laterEntries (p q : List Char) : List Char → List Nat
  | [] => []
  | b :: bs => leastEdits p (b :: q) :: laterEntries p (b :: q) bs

/-- The row for the part `p` of the first text. -/
def entries (p bs : List Char) : List Nat := p.length :: laterEntries p [] bs

/-- An entry is computed from its three neighbours, as `leastEdits` is. -/
theorem distanceRow_later (a : Char) (p q bs : List Char) :
    distanceRow a bs (leastEdits p q) (leastEdits (a :: p) q) (laterEntries p q bs) = laterEntries (a :: p) q bs := by
  induction bs generalizing q with
  | nil => rfl
  | cons b bs ih => rw [laterEntries, laterEntries, distanceRow, ← leastEdits_cons, ih]

/-- One row of the table from the one above it. -/
theorem nextDistanceRow_entries (a : Char) (p bs : List Char) :
    nextDistanceRow bs (entries p bs) a = entries (a :: p) bs := by
  have h := distanceRow_later a p [] bs
  rw [leastEdits_nil_right, leastEdits_nil_right] at h
  rw [entries, entries, nextDistanceRow, List.length_cons]
  exact congrArg _ h

/-- All rows of the table, by induction on the text. -/
theorem foldl_nextDistanceRow (as p bs : List Char) :
    as.foldl (nextDistanceRow bs) (entries p bs) = entries (as.reverse ++ p) bs := by
  induction as generalizing p with
  | nil => rfl
  | cons a as ih =>
    rw [List.foldl_cons, nextDistanceRow_entries, ih, List.reverse_cons, List.append_assoc, List.singleton_append]

/-- The first row counts characters. -/
theorem range_eq_entries (bs : List Char) : List.range (bs.length + 1) = entries [] bs := by
  have hlater (q : List Char) : laterEntries [] q bs = List.range' (q.length + 1) bs.length := by
    induction bs generalizing q with
    | nil => rfl
    | cons b bs ih => rw [laterEntries, ih, leastEdits_nil_left]; rfl
  rw [entries, hlater, List.range_eq_range', List.range'_succ]
  rfl

theorem getLast?_later (p q bs : List Char) :
    (leastEdits p q :: laterEntries p q bs).getLast? = some (leastEdits p (bs.reverse ++ q)) := by
  induction bs generalizing q with
  | nil => rfl
  | cons b bs ih =>
    rw [laterEntries, List.getLast?_cons_cons, ih, List.reverse_cons, List.append_assoc, List.singleton_append]

/-- The table gives the least number of edits of the texts from behind. -/
theorem editDistance_eq (as bs : List Char) : editDistance as bs = leastEdits as.reverse bs.reverse := by
  have hlast := getLast?_later as.reverse [] bs
  rw [leastEdits_nil_right] at hlast
  rw [editDistance, range_eq_entries, foldl_nextDistanceRow, List.append_nil, entries, hlast, List.append_nil]
  rfl

/-- So many edits are enough. -/
theorem edits_editDistance (as bs : List Char) : Edits (editDistance as bs) as bs :=
  editDistance_eq as bs ▸ Edits.reverse_iff.mp (edits_leastEdits as.reverse bs.reverse)

/-- No fewer edits are enough. -/
theorem editDistance_le_of_edits {n : Nat} (h : Edits n as bs) : editDistance as bs ≤ n :=
  editDistance_eq as bs ▸ leastEdits_le_of_edits h.reverse

theorem editDistance_le_max (as bs : List Char) : editDistance as bs ≤ max as.length bs.length := by
  simpa [editDistance_eq] using leastEdits_le_max as.reverse bs.reverse

/-- The distance is at least the difference of the lengths. -/
theorem length_le_editDistance (as bs : List Char) : as.length ≤ bs.length + editDistance as bs :=
  (edits_editDistance as bs).length_le

/-! ## Indices -/

/-- The entry behind index `j`, from the entries at the indices that it depends on; `none` if one of these is out of
bounds. -/
def entryAfter? (a b : Char) (previous current : List Nat) (j : Nat) : Option Nat := do
  let up ← previous[j + 1]?
  let left ← current[j]?
  let diagonal ← previous[j]?
  return min (min (up + 1) (left + 1)) (diagonal + if a = b then 0 else 1)

/-- Stores an entry; `none` if the index is out of bounds. -/
def store? (row : List Nat) (j entry : Nat) : Option (List Nat) :=
  if j < row.length then some (row.set j entry) else none

/-- Fills a row from index `j + 1` on, for what is left of the second text. -/
def fillRow? (a : Char) (previous : List Nat) : (j : Nat) → (bs : List Char) → (current : List Nat) → Option (List Nat)
  | _, [], current => some current
  | j, b :: bs, current => do
    let entry ← entryAfter? a b previous current j
    fillRow? a previous (j + 1) bs (← store? current (j + 1) entry)

/-- The last row, if `i` characters of the first text have been read and `previous` is their row. Every row begins as
the number of its characters, repeated. -/
def fillRows? (bs : List Char) : (i : Nat) → (as : List Char) → (previous : List Nat) → Option (List Nat)
  | _, [], previous => some previous
  | i, a :: as, previous => do
    fillRows? bs (i + 1) as (← fillRow? a previous 0 bs (List.replicate (bs.length + 1) (i + 1)))

/-- The distance by a table whose entries are found by their indices; `none` if an index is out of bounds. -/
def indexedDistance? (as bs : List Char) : Option Nat := do
  (← fillRows? bs 0 as (List.range (bs.length + 1)))[bs.length]?

/-- A row has an entry for each character. -/
theorem length_distanceRow (a : Char) (bs : List Char) (diagonal left : Nat) (above : List Nat)
    (h : above.length = bs.length) : (distanceRow a bs diagonal left above).length = bs.length := by
  induction bs generalizing diagonal left above with
  | nil => rfl
  | cons b bs ih =>
    obtain ⟨up, above, rfl⟩ := List.exists_cons_of_length_eq_add_one h
    rw [distanceRow, List.length_cons, List.length_cons, ih _ _ _ (Nat.succ.inj h)]

/-- The part of the row that has been filled is followed by one entry that has, and by entries that have not. -/
theorem fillRow?_eq (a : Char) (bs : List Char) (before filled : List Nat) (diagonal left x : Nat) (above : List Nat)
    (hfilled : filled.length = before.length) (habove : above.length = bs.length) :
    fillRow? a (before ++ diagonal :: above) before.length bs (filled ++ left :: List.replicate bs.length x) =
      some (filled ++ left :: distanceRow a bs diagonal left above) := by
  induction bs generalizing before filled diagonal left above with
  | nil => rfl
  | cons b bs ih =>
    obtain ⟨up, above, rfl⟩ := List.exists_cons_of_length_eq_add_one habove
    have hup : (before ++ diagonal :: up :: above)[before.length + 1]? = some up := by
      simp
    have hdiagonal : (before ++ diagonal :: up :: above)[before.length]? = some diagonal := by
      simp
    have hleft : (filled ++ left :: List.replicate (bs.length + 1) x)[before.length]? = some left := by
      simp [← hfilled]
    generalize hentry : min (min (up + 1) (left + 1)) (diagonal + if a = b then 0 else 1) = entry
    have hstore : store? (filled ++ left :: List.replicate (bs.length + 1) x) (before.length + 1) entry =
        some ((filled ++ [left]) ++ entry :: List.replicate bs.length x) := by
      rw [store?, if_pos (by simp [hfilled]), List.replicate_succ, ← hfilled, List.set_append_right _ _ (by omega)]
      simp
    have hnext := ih (before ++ [diagonal]) (filled ++ [left]) up entry above (by simp [hfilled]) (Nat.succ.inj habove)
    simp only [List.length_append, List.length_singleton, List.append_assoc, List.singleton_append] at hnext
    simp only [fillRow?, entryAfter?, List.length_cons, hup, hdiagonal, hleft, Option.bind_eq_bind, Option.bind_some,
      Option.pure_def, hentry, hstore, List.append_assoc, List.singleton_append, hnext, distanceRow]

/-- Filling the table never fails: every row has its length. -/
theorem fillRows?_eq (as bs : List Char) (i : Nat) (above : List Nat) (h : above.length = bs.length) :
    fillRows? bs i as (i :: above) = some (as.foldl (nextDistanceRow bs) (i :: above)) := by
  induction as generalizing i above with
  | nil => rfl
  | cons a as ih =>
    have hrow := fillRow?_eq a bs [] [] i (i + 1) (i + 1) above rfl h
    rw [List.nil_append, List.nil_append, List.nil_append, List.length_nil] at hrow
    rw [fillRows?, List.replicate_succ, hrow]
    exact ih (i + 1) _ (length_distanceRow a bs i (i + 1) above h)

theorem length_laterEntries (p q bs : List Char) : (laterEntries p q bs).length = bs.length := by
  induction bs generalizing q with
  | nil => rfl
  | cons b bs ih => rw [laterEntries, List.length_cons, List.length_cons, ih]

/-- Every index is in bounds. -/
theorem indexedDistance?_eq (as bs : List Char) : indexedDistance? as bs = some (editDistance as bs) := by
  have hrows : fillRows? bs 0 as (List.range (bs.length + 1)) = some (entries as.reverse bs) := by
    rw [range_eq_entries, entries, List.length_nil, fillRows?_eq as bs 0 _ (length_laterEntries [] [] bs)]
    exact congrArg some ((foldl_nextDistanceRow as [] bs).trans (by rw [List.append_nil]))
  have hlast : (entries as.reverse bs)[bs.length]? = some (editDistance as bs) := by
    have hlength : bs.length = (entries as.reverse bs).length - 1 := by simp [entries, length_laterEntries]
    have hgetLast := getLast?_later as.reverse [] bs
    rw [leastEdits_nil_right, List.append_nil] at hgetLast
    rw [hlength, ← List.getLast?_eq_getElem?, editDistance_eq]
    exact hgetLast
  rw [indexedDistance?, hrows]
  exact hlast

/-- The edit distance is the least number of edits that turn one text into the other, and the table that gives it is
filled without an index out of bounds. -/
theorem editDistance_isLeast (as bs : List Char) :
    IsLeast {n | Edits n as bs} (editDistance as bs) ∧ indexedDistance? as bs = some (editDistance as bs) :=
  ⟨⟨edits_editDistance as bs, fun _ => editDistance_le_of_edits⟩, indexedDistance?_eq as bs⟩

end Vernacular
