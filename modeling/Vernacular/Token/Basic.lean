import Vernacular.Source.Position
import Vernacular.Token.Keyword
import Vernacular.Token.Symbol

/-!
# Tokens

A token is a stretch of source text with its kind. The text is kept exactly as written, quotes included.
-/

namespace Vernacular

/-- The kinds of tokens. -/
inductive Kind where
  /-- The end of the text. -/
  | eof
  | keyword (k : Keyword)
  /-- The name of a primitive type. -/
  | type
  /-- The name of an object that the target language provides. -/
  | builtin
  | identifier
  | number
  | string
  | template
  | symbol (s : Symbol)
deriving DecidableEq, Repr

namespace Kind

/-- Names of primitive types. -/
def primitiveTypes : List String :=
  ["Texto", "Numero", "Booleano", "Nulo"]

/-- Names of objects that the target language provides. -/
def builtins : List String :=
  ["console", "Math", "Array", "String", "Object", "JSON", "Date", "RegExp", "Map", "Set", "Promise", "Symbol",
    "Reflect", "Intl"]

/-- Words can stand for a property or object key. -/
def isWord : Kind → Bool
  | keyword _ | type | builtin | identifier => true
  | _ => false

/-- The spelling of a kind that has only one. -/
def symbol? : Kind → Option Symbol
  | symbol s => some s
  | _ => none

/-- After these kinds every word is a plain name: property and private names are never keywords. -/
def namesNext : Kind → Bool
  | symbol .dot | symbol .optionalChain | symbol .hash => true
  | _ => false

/-- The kind of a word. -/
def ofWord (word : String) : Kind :=
  match Keyword.ofWord? word with
  | some k => keyword k
  | none =>
    if primitiveTypes.contains word then type else if builtins.contains word then builtin else identifier

/-- A kind as messages name it. -/
def text : Kind → String
  | eof => "end of input"
  | keyword k => "keyword '" ++ k.canonical ++ "'"
  | type => "type name"
  | builtin => "builtin"
  | identifier => "identifier"
  | number => "number"
  | string => "string"
  | template => "template"
  | symbol s => "'" ++ s.text ++ "'"

end Kind

/-- A stretch of source text with its kind. -/
structure Token where
  kind : Kind
  text : String
  start : Position
  stop : Position
deriving DecidableEq, Repr

namespace Token

/-- The token seen past the end of every token list. -/
def pastEnd : Token := ⟨.eof, "", .start, .start⟩

instance : Inhabited Token := ⟨pastEnd⟩

/-- The stretch of text that the token covers. -/
def span (t : Token) : Span := ⟨t.start, t.stop⟩

/-- A token as messages show it. -/
def display (t : Token) : String :=
  if t.kind = .eof then "end of input" else "'" ++ t.text ++ "'"

end Token

end Vernacular
