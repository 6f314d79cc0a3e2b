import Vernacular.Text.Utf8

/-!
# The order of bytes

Texts are ordered by their characters, and their bytes are ordered the same way: UTF-8 keeps the order (`ofText_lt`).
-/

namespace Vernacular.Bytes

/-! ## The bytes of a text, character by character -/

theorem toList_loop (b : ByteArray) (i : Nat) (r : Bytes) :
    ByteArray.toList.loop b i r = r.reverse ++ b.data.toList.drop i := by
  fun_induction ByteArray.toList.loop b i r with
  | case1 i r h ih =>
    have hi : i < b.data.size := h
    have hget : b.get! i = b.data[i] := getElem!_pos b.data i hi
    rw [ih, List.drop_eq_getElem_cons (i := i) hi, hget, List.reverse_cons, List.append_assoc]
    rfl
  | case2 i r h =>
    have hi : b.data.toList.length ≤ i := Nat.le_of_not_lt h
    rw [List.drop_eq_nil_of_le hi, List.append_nil]

/-- The bytes of a text are those of its characters, one after another. -/
theorem ofText_eq (s : String) : ofText s = s.toList.flatMap String.utf8EncodeChar := by
  have h : s.toByteArray = (s.toList.flatMap String.utf8EncodeChar).toByteArray := s.utf8Encode_toList.symm
  rw [ofText, String.toUTF8_eq_toByteArray, h, ByteArray.toList, toList_loop]
  simp

/-! ## The order -/

theorem cons_ofNat_lt {m n : Nat} (hm : m < 256) (hn : n < 256) (x y : Bytes) :
    UInt8.ofNat m :: x < UInt8.ofNat n :: y ↔ m < n ∨ m = n ∧ x < y := by
  rw [List.cons_lt_cons_iff, UInt8.lt_iff_toNat_lt, ← UInt8.toNat_inj, UInt8.toNat_ofNat_of_lt' hm,
    UInt8.toNat_ofNat_of_lt' hn]

/-- A character that comes before another has bytes that come before, whatever follows. -/
theorem utf8EncodeChar_lt {c d : Char} (h : c < d) (x y : Bytes) :
    String.utf8EncodeChar c ++ x < String.utf8EncodeChar d ++ y := by
  have hlt : c.val.toNat < d.val.toNat := h
  have hd : d.val.toNat < 0x110000 := by
    rcases d.valid with h | h
    · exact Nat.lt_trans h (by decide)
    · exact h.2
  have div4096 (n : Nat) : n / 4096 = n / 64 / 64 := by omega
  have div262144 (n : Nat) : n / 262144 = n / 64 / 64 / 64 := by omega
  simp only [String.utf8EncodeChar, div4096, div262144]
  generalize c.val.toNat = v, d.val.toNat = w at *
  -- A longer form begins with a greater byte; forms of one length are compared digit by digit.
  repeat' split
  all_goals
    simp (disch := omega) only [List.cons_append, List.nil_append, cons_ofNat_lt]
    omega

/-- Texts in order have bytes in order. -/
theorem ofText_lt {a b : String} (h : a < b) : ofText a < ofText b := by
  rw [ofText_eq, ofText_eq]
  rw [String.lt_iff] at h
  generalize a.toList = cs, b.toList = ds at h
  induction h with
  | @nil d ds =>
    obtain ⟨b, bs, hd⟩ := List.exists_cons_of_length_pos (l := String.utf8EncodeChar d) (by simp [Char.utf8Size_pos])
    rw [List.flatMap_cons, hd]
    exact List.Lex.nil
  | rel h => exact utf8EncodeChar_lt h _ _
  | cons h ih => exact List.append_left_lt ih

end Vernacular.Bytes
