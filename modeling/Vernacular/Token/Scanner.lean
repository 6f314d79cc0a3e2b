import Vernacular.Token.Lexeme

/-!
# Reading a text token by token

A `Scanner` stands somewhere in a text: it knows what is left, where that begins, and the kind of the last token it
gave. `Scanner.next` gives one token more; a flaw in the text leaves the scanner where the trouble was met, and it can
be used again. `tokenize` reads a whole text.

- `Scanner.next_rest_lt`: a token other than the end leaves less than there was, so that `Scanner.tokens` ends;
- `Scanner.tokens_of_error`, `Scanner.tokens_of_eof`, `Scanner.tokens_of_ok`: how one step decides the tokens.
-/

namespace Vernacular

/-- A flaw and where it is. -/
structure LexicalError where
  flaw : Flaw
  position : Position
deriving DecidableEq, Repr

namespace LexicalError

/-- The name of the flaw. -/
def label (e : LexicalError) : String :=
  match e.flaw with
  | .character _ => "InvalidCharacter"
  | .openString => "UnterminatedString"
  | .openTemplate => "UnterminatedTemplate"
  | .openComment => "UnterminatedBlockComment"
  | .number _ => "InvalidNumber"

/-- The flaw in words. -/
def message (e : LexicalError) : String :=
  match e.flaw with
  | .character c => "Invalid character '" ++ String.singleton c ++ "' at " ++ e.position.text
  | .openString => "Unterminated string literal starting at " ++ e.position.text
  | .openTemplate => "Unterminated template literal starting at " ++ e.position.text
  | .openComment => "Unterminated block comment starting at " ++ e.position.text
  | .number text => "Invalid number literal '" ++ text ++ "' at " ++ e.position.text

end LexicalError

/-- A place in a text that is being read. -/
structure Scanner where
  /-- What is left. -/
  rest : List Char
  /-- Where the rest begins. -/
  position : Position
  /-- The kind of the last token given. -/
  previous : Option Kind
deriving Repr

namespace Scanner

/-- The byte order mark, which may stand in front of a text and belongs to no line. -/
def byteOrderMark : Char := '\ufeff'

/-- A scanner at the first character of a text, past a byte order mark. -/
def ofText (text : String) : Scanner :=
  match text.toList with
  | [] => ⟨[], .start, none⟩
  | c :: cs =>
    if c = byteOrderMark then ⟨cs, { Position.start with offset := c.utf8Size }, none⟩ else ⟨c :: cs, .start, none⟩

/-- The character `n` places on. -/
def peek? (s : Scanner) (n : Nat) : Option Char := s.rest[n]?

/-- The next character. -/
def current? (s : Scanner) : Option Char := s.rest.head?

/-- Whether nothing is left. -/
def atEnd (s : Scanner) : Bool := s.rest.isEmpty

/-- The scanner past the characters `taken`, with `rest` left. -/
def skip (s : Scanner) (taken rest : List Char) : Scanner :=
  { s with rest, position := s.position.advanceOver taken }

/-- Steps over one character, if there is one. -/
def advance (s : Scanner) : Scanner :=
  match s.rest with
  | [] => s
  | c :: cs => s.skip [c] cs

/-- Steps over blanks and comments. -/
def skipTrivia (s : Scanner) : Scanner :=
  s.skip (trivia s.rest).1 (trivia s.rest).2

/-- The next token, or the flaw met in its place, and the scanner after it. -/
def next (s : Scanner) : Except LexicalError Token × Scanner :=
  let s := s.skipTrivia
  let lexeme := Lexeme.read (s.previous.any Kind.namesNext) s.rest
  let after := s.skip lexeme.taken lexeme.rest
  match lexeme.kind with
  | .error flaw => (.error ⟨flaw, s.position⟩, after)
  | .ok kind =>
    (.ok ⟨kind, String.ofList lexeme.taken, s.position, after.position⟩, { after with previous := some kind })

theorem skipTrivia_rest_le (s : Scanner) : s.skipTrivia.rest.length ≤ s.rest.length := by
  have h := congrArg List.length (trivia_append s.rest)
  simp only [List.length_append] at h
  simp only [skipTrivia, skip]
  omega

/-- A token other than the end leaves less than there was. -/
theorem next_rest_lt {s s' : Scanner} {t : Token} (h : s.next = (.ok t, s')) (ht : t.kind ≠ .eof) :
    s'.rest.length < s.rest.length := by
  have hle := s.skipTrivia_rest_le
  simp only [next] at h
  split at h
  · cases h
  · rename_i k hk
    simp only [Prod.mk.injEq, Except.ok.injEq] at h
    obtain ⟨rfl, rfl⟩ := h
    have hlt := Lexeme.read_rest_lt hk ht
    simp only [skip]
    omega

/-- The tokens of all that is left, the last of them the end. -/
def tokens (s : Scanner) : Except LexicalError (List Token) :=
  match _h : s.next with
  | (.error e, _) => .error e
  | (.ok t, s') =>
    if _ht : t.kind = .eof then .ok [t]
    else do
      let ts ← s'.tokens
      return t :: ts
termination_by s.rest.length
decreasing_by exact next_rest_lt _h _ht

theorem tokens_of_error {s s' : Scanner} {e : LexicalError} (h : s.next = (.error e, s')) : s.tokens = .error e := by
  rw [tokens]
  split
  · rename_i h'; rw [h] at h'; cases h'; rfl
  · rename_i h'; rw [h] at h'; cases h'

theorem tokens_of_eof {s s' : Scanner} {t : Token} (h : s.next = (.ok t, s')) (ht : t.kind = .eof) :
    s.tokens = .ok [t] := by
  rw [tokens]
  split
  · rename_i h'; rw [h] at h'; cases h'
  · rename_i h'; rw [h] at h'; cases h'; simp [ht]

theorem tokens_of_ok {s s' : Scanner} {t : Token} (h : s.next = (.ok t, s')) (ht : t.kind ≠ .eof) :
    s.tokens = s'.tokens.map (t :: ·) := by
  rw [tokens]
  split
  · rename_i h'; rw [h] at h'; cases h'
  · rename_i h'; rw [h] at h'; cases h'; simp only [ht, dite_false]; cases s'.tokens <;> rfl

end Scanner

/-- The tokens of a text, the last of them the end, or the first flaw. -/
def tokenize (text : String) : Except LexicalError (List Token) :=
  (Scanner.ofText text).tokens

end Vernacular
