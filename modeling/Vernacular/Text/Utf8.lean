/-!
# Bytes as text

Bytes are read as UTF-8. Where they are no UTF-8, the longest piece that could have begun a character, or else a single
byte, becomes one replacement character.
-/

namespace Vernacular

/-- A sequence of bytes. -/
abbrev Bytes : Type := List UInt8

namespace Bytes

/-- The bytes of a text. -/
def ofText (s : String) : Bytes := s.toUTF8.toList

/-- The character that stands for bytes that are none. -/
def replacement : Char := '\ufffd'

/-- How many bytes follow a first byte, and the least and greatest value of the first of them; `none` if no character
begins with that byte. -/
def follow? (b : Nat) : Option (Nat × Nat × Nat) :=
  if b < 0x80 then some (0, 0, 0)
  else if 0xc2 ≤ b ∧ b ≤ 0xdf then some (1, 0x80, 0xbf)
  else if b = 0xe0 then some (2, 0xa0, 0xbf)
  else if b = 0xed then some (2, 0x80, 0x9f)
  else if 0xe1 ≤ b ∧ b ≤ 0xef then some (2, 0x80, 0xbf)
  else if b = 0xf0 then some (3, 0x90, 0xbf)
  else if 0xf1 ≤ b ∧ b ≤ 0xf3 then some (3, 0x80, 0xbf)
  else if b = 0xf4 then some (3, 0x80, 0x8f)
  else none

/-- The value of the bits that a first byte contributes. -/
def firstBits (b : Nat) : Nat :=
  if b < 0x80 then b else if b < 0xe0 then b - 0xc0 else if b < 0xf0 then b - 0xe0 else b - 0xf0

/-- Reads bytes after a part of a character: `wanted` more bytes, the next of them from `low` to `high`, belong to it,
and `value` is what it has come to. -/
def decodeFrom (wanted low high value : Nat) : Bytes → List Char
  | [] => if wanted = 0 then [] else [replacement]
  | b :: bs =>
    let n := b.toNat
    if wanted = 0 then
      match follow? n with
      | none => replacement :: decodeFrom 0 0 0 0 bs
      | some (0, _, _) => Char.ofNat n :: decodeFrom 0 0 0 0 bs
      | some (k, low, high) => decodeFrom k low high (firstBits n) bs
    else if low ≤ n ∧ n ≤ high then
      let value := value * 64 + (n - 0x80)
      if wanted = 1 then Char.ofNat value :: decodeFrom 0 0 0 0 bs
      else decodeFrom (wanted - 1) 0x80 0xbf value bs
    else
      match follow? n with
      | none => replacement :: replacement :: decodeFrom 0 0 0 0 bs
      | some (0, _, _) => replacement :: Char.ofNat n :: decodeFrom 0 0 0 0 bs
      | some (k, low, high) => replacement :: decodeFrom k low high (firstBits n) bs

/-- The text of some bytes. -/
def toText (bs : Bytes) : String := String.ofList (decodeFrom 0 0 0 0 bs)

end Bytes

end Vernacular
