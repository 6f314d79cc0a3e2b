/-!
# Operators and punctuation

The symbols of the dialect with their spellings. A text is read by the first symbol of `Symbol.all` that it starts with
(`Symbol.head?`); longer symbols come first, so the longest one that fits is taken.
-/

namespace Vernacular

/-- Operators and punctuation marks. -/
inductive Symbol where
  | strictEqual | strictNotEqual | ellipsis | unsignedRightShift
  | equal | notEqual | lessEqual | greaterEqual | logicalAnd | logicalOr | increment | decrement | plusAssign
  | minusAssign | starAssign | slashAssign | percentAssign | arrow | optionalChain | exponent | leftShift
  | rightShift | nullishCoalescing
  | assign | plus | minus | star | slash | percent | leftParen | rightParen | leftBrace | rightBrace | leftBracket
  | rightBracket | semicolon | colon | dot | comma | greater | less | bang | ampersand | pipe | question | hash | atSign
deriving DecidableEq, Repr

namespace Symbol

/-- Every symbol, longest spellings first. -/
def all : List Symbol :=
  [strictEqual, strictNotEqual, ellipsis, unsignedRightShift, equal, notEqual, lessEqual, greaterEqual, logicalAnd,
    logicalOr, increment, decrement, plusAssign, minusAssign, starAssign, slashAssign, percentAssign, arrow,
    optionalChain, exponent, leftShift, rightShift, nullishCoalescing, assign, plus, minus, star, slash, percent,
    leftParen, rightParen, leftBrace, rightBrace, leftBracket, rightBracket, semicolon, colon, dot, comma, greater,
    less, bang, ampersand, pipe, question, hash, atSign]

theorem mem_all (s : Symbol) : s ∈ all := by
  cases s <;> decide

/-- The spelling of a symbol. -/
def text : Symbol → String
  | strictEqual => "==="
  | strictNotEqual => "!=="
  | ellipsis => "..."
  | unsignedRightShift => ">>>"
  | equal => "=="
  | notEqual => "!="
  | lessEqual => "<="
  | greaterEqual => ">="
  | logicalAnd => "&&"
  | logicalOr => "||"
  | increment => "++"
  | decrement => "--"
  | plusAssign => "+="
  | minusAssign => "-="
  | starAssign => "*="
  | slashAssign => "/="
  | percentAssign => "%="
  | arrow => "=>"
  | optionalChain => "?."
  | exponent => "**"
  | leftShift => "<<"
  | rightShift => ">>"
  | nullishCoalescing => "??"
  | assign => "="
  | plus => "+"
  | minus => "-"
  | star => "*"
  | slash => "/"
  | percent => "%"
  | leftParen => "("
  | rightParen => ")"
  | leftBrace => r"{"
  | rightBrace => r"}"
  | leftBracket => "["
  | rightBracket => "]"
  | semicolon => ";"
  | colon => ":"
  | dot => "."
  | comma => ","
  | greater => ">"
  | less => "<"
  | bang => "!"
  | ampersand => "&"
  | pipe => "|"
  | question => "?"
  | hash => "#"
  | atSign => "@"

theorem text_ne_empty (s : Symbol) : s.text ≠ "" := by
  cases s <;> decide

/-- The name under which dumps list the symbol. -/
def label : Symbol → String
  | strictEqual => "StrictEqual"
  | strictNotEqual => "StrictNotEqual"
  | ellipsis => "Ellipsis"
  | unsignedRightShift => "UnsignedRightShift"
  | equal => "Equal"
  | notEqual => "NotEqual"
  | lessEqual => "LessEqual"
  | greaterEqual => "GreaterEqual"
  | logicalAnd => "LogicalAnd"
  | logicalOr => "LogicalOr"
  | increment => "Increment"
  | decrement => "Decrement"
  | plusAssign => "PlusAssign"
  | minusAssign => "MinusAssign"
  | starAssign => "StarAssign"
  | slashAssign => "SlashAssign"
  | percentAssign => "PercentAssign"
  | arrow => "Arrow"
  | optionalChain => "OptionalChain"
  | exponent => "Exponent"
  | leftShift => "LeftShift"
  | rightShift => "RightShift"
  | nullishCoalescing => "NullishCoalescing"
  | assign => "Assign"
  | plus => "Plus"
  | minus => "Minus"
  | star => "Star"
  | slash => "Slash"
  | percent => "Percent"
  | leftParen => "LeftParen"
  | rightParen => "RightParen"
  | leftBrace => "LeftBrace"
  | rightBrace => "RightBrace"
  | leftBracket => "LeftBracket"
  | rightBracket => "RightBracket"
  | semicolon => "Semicolon"
  | colon => "Colon"
  | dot => "Dot"
  | comma => "Comma"
  | greater => "Greater"
  | less => "Less"
  | bang => "Bang"
  | ampersand => "Ampersand"
  | pipe => "Pipe"
  | question => "Question"
  | hash => "Hash"
  | atSign => "At"

/-- The symbol at the head of a text, the longest that fits. -/
def head? (cs : List Char) : Option Symbol :=
  all.find? fun s => s.text.toList.isPrefixOf cs

end Symbol

end Vernacular
