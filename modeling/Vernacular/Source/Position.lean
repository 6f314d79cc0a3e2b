/-!
# Places in a source text

A `Position` names a place between two characters of a text three ways at once: by line and column, counted from one
in characters, and by the number of UTF-8 bytes before it. A `Span` is the stretch between two positions.

- `Position.advance` steps over one character, `Position.advanceOver` over many (`advanceOver_append`);
- `Span.merge` is the smallest stretch that covers two others.
-/

namespace Vernacular

/-- A place in a text: line and column from one, offset in UTF-8 bytes from zero. -/
structure Position where
  line : Nat
  column : Nat
  offset : Nat
deriving DecidableEq, Repr

namespace Position

/-- The place before the first character. -/
def start : Position := ⟨1, 1, 0⟩

instance : Inhabited Position := ⟨start⟩

/-- The place after the character `c` at `p`. Only a line feed begins a new line. -/
def advance (p : Position) (c : Char) : Position :=
  if c = '\n' then ⟨p.line + 1, 1, p.offset + c.utf8Size⟩ else ⟨p.line, p.column + 1, p.offset + c.utf8Size⟩

/-- The place after the characters `cs` at `p`. -/
def advanceOver (p : Position) (cs : List Char) : Position :=
  cs.foldl advance p

@[simp] theorem advanceOver_nil (p : Position) : p.advanceOver [] = p := rfl

@[simp] theorem advanceOver_cons (p : Position) (c : Char) (cs : List Char) :
    p.advanceOver (c :: cs) = (p.advance c).advanceOver cs := rfl

theorem advanceOver_append (p : Position) (cs ds : List Char) :
    p.advanceOver (cs ++ ds) = (p.advanceOver cs).advanceOver ds := by
  simp [advanceOver]

theorem advance_offset (p : Position) (c : Char) : (p.advance c).offset = p.offset + c.utf8Size := by
  unfold advance; split <;> rfl

/-- A position as messages show it: line and column. -/
def text (p : Position) : String :=
  toString p.line ++ ":" ++ toString p.column

end Position

/-- The stretch of text between two places. -/
structure Span where
  start : Position
  stop : Position
deriving DecidableEq, Repr

namespace Span

instance : Inhabited Span := ⟨⟨.start, .start⟩⟩

/-- The stretch from the earlier of two starts to the later of two stops. -/
def merge (a b : Span) : Span where
  start := if a.start.offset < b.start.offset then a.start else b.start
  stop := if a.stop.offset > b.stop.offset then a.stop else b.stop

end Span

end Vernacular
