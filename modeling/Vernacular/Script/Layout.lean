/-!
# Laying out code

Code is written line by line, indented by a number of units. A block has a header line that ends in a brace, its own
lines one unit further in, and a line with the closing brace. A block without lines closes on its header line.

For each open block `Layout.marks` holds the size of the code right after its header line, so that a block without lines
is one whose mark is still the size of the code.
-/

namespace Vernacular

/-! ## White space -/

/-- First and last of each run of code points with the Unicode property `White_Space`. -/
def whiteSpaceRuns : List (Nat × Nat) :=
  [(0x09, 0x0d), (0x20, 0x20), (0x85, 0x85), (0xa0, 0xa0), (0x1680, 0x1680), (0x2000, 0x200a), (0x2028, 0x2029),
    (0x202f, 0x202f), (0x205f, 0x205f), (0x3000, 0x3000)]

/-- Whether a character is white space. -/
def isWhiteSpace (c : Char) : Bool :=
  whiteSpaceRuns.any fun (first, last) => first ≤ c.toNat && c.toNat ≤ last

/-- A text without the white space at its beginning. -/
def trimStart (s : String) : String :=
  String.ofList (s.toList.dropWhile isWhiteSpace)

/-! ## Lines and blocks -/

/-- The indentation of a line: `level` times `unit`. -/
structure Margin where
  unit : String
  level : Nat
deriving DecidableEq, Repr

/-- The indentation as a text. -/
def Margin.text (m : Margin) : String :=
  (List.replicate m.level m.unit).foldl (· ++ ·) ""

/-- Code that is being written. -/
structure Layout where
  margin : Margin
  code : String
  /-- Sizes of the code right after the headers of the open blocks, the innermost first. -/
  marks : List Nat
deriving DecidableEq, Repr

namespace Layout

/-- Nothing written, with the next line indented by `margin`. -/
def start (margin : Margin) : Layout := ⟨margin, "", []⟩

/-- Adds a text as it is. -/
def push (l : Layout) (s : String) : Layout := { l with code := l.code ++ s }

/-- Adds the indentation. -/
def indent (l : Layout) : Layout := l.push l.margin.text

/-- Ends the line. -/
def newline (l : Layout) : Layout := l.push "\n"

/-- Adds a line. -/
def line (l : Layout) (s : String) : Layout := (l.indent.push s).newline

/-- Indents by one unit more. -/
def deepen (l : Layout) : Layout := { l with margin := { l.margin with level := l.margin.level + 1 } }

/-- Indents by one unit less, if there is one. -/
def raise (l : Layout) : Layout := { l with margin := { l.margin with level := l.margin.level - 1 } }

/-- Remembers the size of the code for a block that begins here, and goes one unit further in. -/
def mark (l : Layout) : Layout := { l with marks := l.code.utf8ByteSize :: l.marks }.deepen

/-- Begins a block. -/
def openBlock (l : Layout) (header : String) : Layout :=
  (l.line (if header.isEmpty then r"{" else header ++ r" {")).mark

/-- A text without its last character. -/
def dropLastChar (s : String) : String := String.ofList s.toList.dropLast

/-- Ends the innermost block, with `trailer` behind its brace. -/
def closeWith (l : Layout) (trailer : String) : Layout :=
  let outer := { l.raise with marks := l.marks.tail }
  if l.marks.head? = some l.code.utf8ByteSize then
    { outer with code := dropLastChar l.code ++ r"}" ++ trailer ++ "\n" }
  else outer.line (r"}" ++ trailer)

/-- Ends the innermost block. -/
def close (l : Layout) : Layout := l.closeWith ""

/-- Ends the innermost block and begins another on the same line. -/
def reopen (l : Layout) (header : String) : Layout :=
  (l.closeWith (" " ++ header ++ r" {")).mark

/-- The code without a line end behind it. -/
def build (l : Layout) : String :=
  if l.code.toList.getLast? = some '\n' then dropLastChar l.code else l.code

/-! ## What the steps change -/

@[simp] theorem margin_push (l : Layout) (s : String) : (l.push s).margin = l.margin := rfl

@[simp] theorem marks_push (l : Layout) (s : String) : (l.push s).marks = l.marks := rfl

@[simp] theorem margin_line (l : Layout) (s : String) : (l.line s).margin = l.margin := rfl

@[simp] theorem marks_line (l : Layout) (s : String) : (l.line s).marks = l.marks := rfl

theorem code_line (l : Layout) (s : String) : (l.line s).code = l.code ++ l.margin.text ++ s ++ "\n" := rfl

@[simp] theorem margin_openBlock (l : Layout) (header : String) :
    (l.openBlock header).margin = l.deepen.margin := rfl

theorem marks_openBlock (l : Layout) (header : String) :
    (l.openBlock header).marks = (l.openBlock header).code.utf8ByteSize :: l.marks := rfl

@[simp] theorem margin_closeWith (l : Layout) (trailer : String) : (l.closeWith trailer).margin = l.raise.margin := by
  unfold closeWith
  split <;> rfl

@[simp] theorem marks_closeWith (l : Layout) (trailer : String) : (l.closeWith trailer).marks = l.marks.tail := by
  unfold closeWith
  split <;> rfl

end Layout

end Vernacular
