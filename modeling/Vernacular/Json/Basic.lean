/-!
# JSON documents

A document keeps its numbers and the insides of its strings as they are written, escapes included. `Json.escape` gives
the written form of a text, so `Json.text` is the document that holds it. Fields of an object keep their order.

- `Json.compact` writes a document without blanks, `Json.pretty` one item to a line.
-/

namespace Vernacular

/-- A JSON document. Numbers, strings and field names are in written form. -/
inductive Json where
  | null
  | bool (b : Bool)
  | number (written : String)
  | string (written : String)
  | array (items : List Json)
  | object (fields : List (String × Json))

namespace Json

/-! ## Written form of texts -/

/-- A hexadecimal digit, in lower case. -/
def hexDigit (n : Nat) : Char :=
  Char.ofNat (if n < 10 then '0'.toNat + n else 'a'.toNat + (n - 10))

/-- How a character is written inside a string: quotes, backslashes and control characters are escaped, all else stands
for itself. -/
def escapeChar (c : Char) : List Char :=
  if c = '"' then ['\\', '"']
  else if c = '\\' then ['\\', '\\']
  else if c = '\x08' then ['\\', 'b']
  else if c = '\x0c' then ['\\', 'f']
  else if c = '\n' then ['\\', 'n']
  else if c = '\r' then ['\\', 'r']
  else if c = '\t' then ['\\', 't']
  else if c.toNat < 32 then ['\\', 'u', '0', '0', hexDigit (c.toNat / 16), hexDigit (c.toNat % 16)]
  else [c]

/-- The written form of a text, without the quotes around it. -/
def escape (s : String) : String :=
  String.ofList (s.toList.flatMap escapeChar)

/-- The document that holds a text. -/
def text (s : String) : Json := string (escape s)

/-- The document that holds a natural number. -/
def nat (n : Nat) : Json := number (toString n)

/-- The document of an optional value; absence is `null`. -/
def option {α : Type} (f : α → Json) : Option α → Json
  | none => null
  | some a => f a

/-- An object with one field. -/
def tagged (tag : String) (value : Json) : Json := object [(tag, value)]

/-! ## Writing -/

/-- A written string in its quotes. -/
def quote (written : String) : String := "\"" ++ written ++ "\""

/-- The text of a document that is neither an array nor an object. -/
def atom : Json → String
  | null => "null"
  | bool true => "true"
  | bool false => "false"
  | number w => w
  | string w => quote w
  | array _ | object _ => ""

mutual

/-- A document without any blanks. -/
def compact : Json → String
  | array items => "[" ++ String.intercalate "," (compactItems items) ++ "]"
  | object fields => r"{" ++ String.intercalate "," (compactFields fields) ++ r"}"
  | leaf => leaf.atom

def compactItems : List Json → List String
  | [] => []
  | j :: js => j.compact :: compactItems js

def compactFields : List (String × Json) → List String
  | [] => []
  | (name, j) :: js => (quote name ++ ":" ++ j.compact) :: compactFields js

end

/-- The items of an array or object between its brackets, one to a line; `margin` is the indentation of the brackets. -/
def stack (opening closing margin : String) : List String → String
  | [] => opening ++ closing
  | lines =>
    opening ++ "\n" ++ String.intercalate ",\n" (lines.map fun line => margin ++ "  " ++ line) ++ "\n" ++
      margin ++ closing

mutual

/-- A document with one item to a line, indented by two spaces for each level; `margin` is the indentation of the line
on which it begins. -/
def prettyAt (margin : String) : Json → String
  | array items => stack "[" "]" margin (prettyItems (margin ++ "  ") items)
  | object fields => stack r"{" r"}" margin (prettyFields (margin ++ "  ") fields)
  | leaf => leaf.atom

def prettyItems (margin : String) : List Json → List String
  | [] => []
  | j :: js => prettyAt margin j :: prettyItems margin js

def prettyFields (margin : String) : List (String × Json) → List String
  | [] => []
  | (name, j) :: js => (quote name ++ ": " ++ prettyAt margin j) :: prettyFields margin js

end

/-- A document with one item to a line. -/
def pretty (j : Json) : String := prettyAt "" j

end Json

end Vernacular
