import Vernacular.Grammar.Error
import Vernacular.Tree.Basic

/-!
# Reading tokens

A `Cursor` stands between two tokens of a list. A `Parser` reads from a cursor and leaves it where it stopped, also
where it failed. Past the end of the list every cursor sees `Token.pastEnd`.

Readers are written for every monad that holds a cursor and can fail with a `SyntaxError`, so that one that keeps
account of more than its place reads by the same productions as `Parser`.

The one loop is `many`. It is given at most one round for each token that is left, and one more to notice the end; a
round that goes on has read a token.
-/

namespace Vernacular

/-- A place in a list of tokens. -/
structure Cursor where
  /-- The token before the place. -/
  previous : Option Token
  /-- The tokens after the place. -/
  rest : List Token
deriving Repr

namespace Cursor

/-- The place before the first token. -/
def ofTokens (ts : List Token) : Cursor := ⟨none, ts⟩

/-- The token `n` places on. -/
def peekNth (c : Cursor) (n : Nat) : Token := c.rest.getD n .pastEnd

/-- The next token. -/
def peek (c : Cursor) : Token := c.rest.headD .pastEnd

/-- The next token and the place after it. The end is never passed. -/
def advance (c : Cursor) : Token × Cursor :=
  match c.rest with
  | [] => (.pastEnd, c)
  | t :: ts => (t, ⟨some t, ts⟩)

@[simp] theorem advance_fst (c : Cursor) : c.advance.1 = c.peek := by
  obtain ⟨previous, rest⟩ := c
  cases rest <;> rfl

@[simp] theorem advance_rest (c : Cursor) : c.advance.2.rest = c.rest.tail := by
  obtain ⟨previous, rest⟩ := c
  cases rest <;> rfl

/-- The stretch from `start` to the end of the token before the place. -/
def spanFrom (c : Cursor) (start : Position) : Span :=
  ⟨start, (c.previous.map Token.stop).getD start⟩

/-- Whether the next token begins on a later line than the one before ends. -/
def onNewLine (c : Cursor) : Bool :=
  match c.previous with
  | some t => t.stop.line < c.peek.start.line
  | none => true

/-- The error for the next token where one of the expected things should stand. -/
def errorHere (c : Cursor) (expected : List String) (context : Context) : SyntaxError :=
  if c.peek.kind = .eof then .unexpectedEnd expected c.peek.start context
  else .unexpectedToken expected c.peek context

end Cursor

/-- A reader of tokens. Where it fails, the cursor stays at the trouble. -/
abbrev Parser (α : Type) : Type := EStateM SyntaxError Cursor α

namespace Parser

variable {m : Type → Type} [Monad m] [MonadStateOf Cursor m] [MonadExceptOf SyntaxError m]

/-! ## Looking -/

def peek : m Token := return (← get).peek

def kind : m Kind := return (← get).peek.kind

/-- Where the next token begins. -/
def position : m Position := return (← get).peek.start

def check (k : Kind) : m Bool := return (← kind) == k

def atEnd : m Bool := check .eof

def onNewLine : m Bool := return (← get).onNewLine

/-- The stretch from `start` to the end of the last token read. -/
def spanFrom (start : Position) : m Span := return (← get).spanFrom start

/-! ## Moving -/

def advance : m Token := modifyGet Cursor.advance

/-- Reads the next token if it is of kind `k`. -/
def accept (k : Kind) : m Bool := do
  if ← check k then
    let _ ← advance
    return true
  else return false

/-- Fails at the next token. -/
def fail {α : Type} (expected : List String) (context : Context) : m α := do
  throw ((← get).errorHere expected context)

/-- Reads a token of one of the allowed kinds. -/
def expect (allowed : List Kind) (context : Context) : m Token := do
  if allowed.contains (← kind) then advance else fail (allowed.map Kind.text) context

/-- Reads a symbol. -/
def expectSymbol (s : Symbol) (context : Context) : m Token := expect [.symbol s] context

/-- Reads a name that is being bound. -/
def identifier (context : Context) : m Ident := do
  let t ← expect [.identifier] context
  return ⟨t.text, t.span⟩

/-- Reads any word, keywords included. -/
def propertyWord (context : Context) : m Token := do
  if (← kind).isWord then advance else fail ["property name"] context

/-! ## Repetition -/

/-- `many` with a bound on its rounds: one for each element of `budget` and one more. -/
def manyWithin {α : Type} (item : m (Option α)) : List Token → m (List α)
  | [] => do
    match ← item with
    | none => return []
    | some a => return [a]
  | _ :: budget => do
    match ← item with
    | none => return []
    | some a => return a :: (← manyWithin item budget)

/-- Reads items until there is none. -/
def many {α : Type} (item : m (Option α)) : m (List α) := do
  manyWithin item (← get).rest

/-- Reads items that follow one another after commas, up to the closing symbol, which is not read. A comma may stand
before it. -/
def commaList {α : Type} (closing : Symbol) (item : m α) : m (List α) := do
  if ← check (.symbol closing) then return []
  let first ← item
  let others ← many do
    if ← accept (.symbol .comma) then
      if ← check (.symbol closing) then return none else return some (← item)
    else return none
  return first :: others

/-- Reads further items, each after a comma. -/
def afterCommas {α : Type} (item : m α) : m (List α) :=
  many do
    if ← accept (.symbol .comma) then return some (← item) else return none

/-- Reads statement separators. -/
def skipSemicolons : m Unit := do
  let _ ← many do
    if ← accept (.symbol .semicolon) then return some () else return none

/-! ## Names of types -/

/-- The kinds of tokens that name types. -/
def typeKinds : List Kind := [.type, .identifier, .builtin, .keyword .nulo]

/-- Reads the name of a type, with a pair of brackets for each list around it. -/
def typeName : m Ident := do
  let start ← position
  let t ← expect typeKinds .typeName
  let lists ← many do
    let c ← get
    if c.peek.kind = .symbol .leftBracket ∧ (c.peekNth 1).kind = .symbol .rightBracket then
      let _ ← advance
      let _ ← advance
      return some "[]"
    else return none
  return ⟨lists.foldl (· ++ ·) t.text, ← spanFrom start⟩

/-- Reads a colon and the name of a type, if there is a colon. -/
def optionalType : m (Option Ident) := do
  if ← accept (.symbol .colon) then return some (← typeName) else return none

end Parser

end Vernacular
