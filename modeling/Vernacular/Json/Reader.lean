import Vernacular.Json.Basic

/-!
# Reading JSON

`Json.read?` reads a text that holds one document and nothing else but blanks. Numbers and strings are checked for their
form only; `Json.unescape?` gives the text of a written string, if its surrogate escapes come in pairs.
-/

namespace Vernacular.Json

/-- The characters that may stand between the parts of a document. -/
def isBlank (c : Char) : Bool := c == ' ' || c == '\n' || c == '\t' || c == '\r'

def skipBlanks (cs : List Char) : List Char := cs.dropWhile isBlank

/-! ## Strings -/

/-- The value of a hexadecimal digit. -/
def hexValue? (c : Char) : Option Nat :=
  if '0' ≤ c ∧ c ≤ '9' then some (c.toNat - '0'.toNat)
  else if 'a' ≤ c ∧ c ≤ 'f' then some (c.toNat - 'a'.toNat + 10)
  else if 'A' ≤ c ∧ c ≤ 'F' then some (c.toNat - 'A'.toNat + 10)
  else none

/-- The value of four hexadecimal digits. -/
def hexValue4? (a b c d : Char) : Option Nat := do
  return (((← hexValue? a) * 16 + (← hexValue? b)) * 16 + (← hexValue? c)) * 16 + (← hexValue? d)

/-- What a letter stands for behind a backslash. -/
def escaped? (c : Char) : Option Char :=
  if c == '"' || c == '\\' || c == '/' then some c
  else if c == 'b' then some '\x08'
  else if c == 'f' then some '\x0c'
  else if c == 'n' then some '\n'
  else if c == 'r' then some '\r'
  else if c == 't' then some '\t'
  else none

/-- The inside of a written string and what follows its closing quote. -/
def stringBody : List Char → Option (List Char × List Char)
  | '"' :: cs => some ([], cs)
  | '\\' :: 'u' :: a :: b :: c :: d :: cs => do
    let _ ← hexValue4? a b c d
    let (body, rest) ← stringBody cs
    return ('\\' :: 'u' :: a :: b :: c :: d :: body, rest)
  | '\\' :: c :: cs => do
    let _ ← escaped? c
    let (body, rest) ← stringBody cs
    return ('\\' :: c :: body, rest)
  | c :: cs => do
    guard (c != '\\' && 32 ≤ c.toNat)
    let (body, rest) ← stringBody cs
    return (c :: body, rest)
  | [] => none

/-- The first code points of the two halves of a surrogate pair, and the one after them. -/
def highSurrogates : Nat := 0xd800
def lowSurrogates : Nat := 0xdc00
def afterSurrogates : Nat := 0xe000

/-- The characters of a written string; `none` if half a surrogate pair is missing. -/
def unescapeChars? : List Char → Option (List Char)
  | [] => some []
  | '\\' :: 'u' :: a :: b :: c :: d :: cs => do
    let n ← hexValue4? a b c d
    if n < highSurrogates || afterSurrogates ≤ n then return Char.ofNat n :: (← unescapeChars? cs)
    guard (n < lowSurrogates)
    match cs with
    | '\\' :: 'u' :: e :: f :: g :: h :: cs =>
      let m ← hexValue4? e f g h
      guard (lowSurrogates ≤ m && m < afterSurrogates)
      return Char.ofNat (0x10000 + (n - highSurrogates) * 0x400 + (m - lowSurrogates)) :: (← unescapeChars? cs)
    | _ => none
  | '\\' :: c :: cs => return (← escaped? c) :: (← unescapeChars? cs)
  | c :: cs => return c :: (← unescapeChars? cs)

/-- The text of a written string. -/
def unescape? (written : String) : Option String :=
  (unescapeChars? written.toList).map String.ofList

/-! ## Numbers -/

/-- One digit or more, and what follows. -/
def digits (cs : List Char) : Option (List Char × List Char) :=
  if cs.head?.any Char.isDigit then some (cs.takeWhile Char.isDigit, cs.dropWhile Char.isDigit) else none

/-- Digits without a leading zero, and what follows. -/
def wholePart : List Char → Option (List Char × List Char)
  | '0' :: cs => some (['0'], cs)
  | cs => digits cs

/-- A point with digits behind it, if there is a point. -/
def fractionPart : List Char → Option (List Char × List Char)
  | '.' :: cs => do
    let (ds, rest) ← digits cs
    return ('.' :: ds, rest)
  | cs => some ([], cs)

/-- An exponent, if its mark is there. -/
def exponentPart : List Char → Option (List Char × List Char)
  | [] => some ([], [])
  | e :: cs =>
    if e == 'e' || e == 'E' then do
      let sign := (cs.take 1).filter fun c => c == '+' || c == '-'
      let (ds, rest) ← digits (cs.drop sign.length)
      return (e :: sign ++ ds, rest)
    else some ([], e :: cs)

/-- A number as written, and what follows. -/
def numeral (cs : List Char) : Option (List Char × List Char) := do
  let sign := (cs.take 1).filter (· == '-')
  let (whole, cs) ← wholePart (cs.drop sign.length)
  let (fraction, cs) ← fractionPart cs
  let (exponent, cs) ← exponentPart cs
  return (sign ++ whole ++ fraction ++ exponent, cs)

/-! ## Documents -/

/-- A document that is a single word, number or string, and what follows. -/
def leaf (cs : List Char) : Option (Json × List Char) :=
  match cs with
  | 'n' :: 'u' :: 'l' :: 'l' :: cs => some (.null, cs)
  | 't' :: 'r' :: 'u' :: 'e' :: cs => some (.bool true, cs)
  | 'f' :: 'a' :: 'l' :: 's' :: 'e' :: cs => some (.bool false, cs)
  | '"' :: cs => (stringBody cs).map fun (body, rest) => (.string (String.ofList body), rest)
  | cs => (numeral cs).map fun (written, rest) => (.number (String.ofList written), rest)

mutual

/-- A document and what follows, `fuel` bounding the calls inside one another. -/
def value (fuel : Nat) (cs : List Char) : Option (Json × List Char) :=
  match fuel with
  | 0 => none
  | fuel + 1 =>
    match skipBlanks cs with
    | '[' :: cs =>
      match skipBlanks cs with
      | ']' :: cs => some (.array [], cs)
      | cs => (items fuel cs).map fun (js, rest) => (.array js, rest)
    | '{' :: cs =>
      match skipBlanks cs with
      | '}' :: cs => some (.object [], cs)
      | cs => (fields fuel cs).map fun (fs, rest) => (.object fs, rest)
    | cs => leaf cs

/-- The items of an array, one at least, and what follows the closing bracket. -/
def items (fuel : Nat) (cs : List Char) : Option (List Json × List Char) :=
  match fuel with
  | 0 => none
  | fuel + 1 => do
    let (j, cs) ← value fuel cs
    match skipBlanks cs with
    | ',' :: cs =>
      let (js, rest) ← items fuel cs
      return (j :: js, rest)
    | ']' :: cs => return ([j], cs)
    | _ => none

/-- The fields of an object, one at least, and what follows the closing brace. -/
def fields (fuel : Nat) (cs : List Char) : Option (List (String × Json) × List Char) :=
  match fuel with
  | 0 => none
  | fuel + 1 =>
    match skipBlanks cs with
    | '"' :: cs => do
      let (name, cs) ← stringBody cs
      match skipBlanks cs with
      | ':' :: cs =>
        let (j, cs) ← value fuel cs
        match skipBlanks cs with
        | ',' :: cs =>
          let (fs, rest) ← fields fuel cs
          return ((String.ofList name, j) :: fs, rest)
        | '}' :: cs => return ([(String.ofList name, j)], cs)
        | _ => none
      | _ => none
    | _ => none

end

/-- The document of a text. Every bracket and every item takes a character, and at most two calls. -/
def read? (text : String) : Option Json := do
  let cs := text.toList
  let (j, rest) ← value (2 * cs.length + 2) cs
  guard (skipBlanks rest).isEmpty
  return j

end Vernacular.Json
