import Vernacular.Proofs.Script.Total

/-!
# Open blocks

A layout can be written by hand, stroke by stroke. A stroke adds text, opens a block, closes one or does both; more
blocks may be closed than are open. A layout knows of an open block only how long the code was after its header line
(`Layout.marks`), and takes a block to be empty if the code is no longer than that. A `Draft` remembers the header lines
themselves, and takes a block to be empty if nothing stands behind its header line.

- `writeAll_eq_draw`: blocks with an inside are strokes too, and are closed by the last of them;
- `Draft.Sound.stroke`, `Draft.Sound.draw`: one stroke, and all strokes, leave a layout whose marks are the ends of the
  header lines of a draft, each block lying behind the header line of the one around it;
- `Draft.Sound.kept_stroke`, `Draft.Sound.kept_draw`: what stands before the end of a header line, and all that stands
  before other code, stays;
- `written_lawful`: what holds of open blocks at any moment, what the next stroke can do, and what no later one does.
-/

namespace Vernacular.Layout

/-! ## Strokes -/

/-- One stroke. -/
inductive Stroke where
  | line (text : String)
  | push (text : String)
  | indent
  | newline
  | deepen
  | raise
  | openBlock (header : String)
  | close
  | closeWith (trailer : String)
  | reopen (header : String)
deriving DecidableEq, Repr

def Stroke.apply (stroke : Stroke) (l : Layout) : Layout :=
  match stroke with
  | line text => l.line text
  | push text => l.push text
  | indent => l.indent
  | newline => l.newline
  | deepen => l.deepen
  | raise => l.raise
  | openBlock header => l.openBlock header
  | close => l.close
  | closeWith trailer => l.closeWith trailer
  | reopen header => l.reopen header

/-- What is written behind the brace of the block that a stroke closes, if it closes one. -/
def Stroke.trailer? : Stroke → Option String
  | close => some ""
  | closeWith trailer => some trailer
  | reopen header => some (" " ++ header ++ r" {")
  | line _ | push _ | indent | newline | deepen | raise | openBlock _ => none

def draw (l : Layout) (strokes : List Stroke) : Layout := strokes.foldl (fun l stroke => stroke.apply l) l

/-- A stroke, or a block with all that is written inside it. Where writing the inside breaks off, the block is closed
all the same, so that what was left out is no part of the passage. -/
inductive Passage where
  | stroke (stroke : Stroke)
  | block (header : String) (inside : List Passage)

mutual

def Passage.write : Passage → Layout → Layout
  | .stroke stroke, l => stroke.apply l
  | .block header inside, l => (writeAll inside (l.openBlock header)).close

/-- Writes passages one after another. -/
def writeAll : List Passage → Layout → Layout
  | [], l => l
  | p :: ps, l => writeAll ps (p.write l)

end

mutual

/-- The strokes of a passage. -/
def Passage.strokes : Passage → List Stroke
  | .stroke stroke => [stroke]
  | .block header inside => .openBlock header :: (strokesOf inside ++ [.close])

def strokesOf : List Passage → List Stroke
  | [] => []
  | p :: ps => p.strokes ++ strokesOf ps

end

theorem draw_append (l : Layout) (strokes strokes' : List Stroke) :
    l.draw (strokes ++ strokes') = (l.draw strokes).draw strokes' := List.foldl_append

mutual

theorem Passage.write_eq_draw : ∀ (p : Passage) (l : Layout), p.write l = l.draw p.strokes
  | .stroke _, _ => rfl
  | .block header inside, l => by
    have hinside := writeAll_eq_draw inside (l.openBlock header)
    show (writeAll inside (l.openBlock header)).close = (l.openBlock header).draw (strokesOf inside ++ [.close])
    rw [hinside, draw_append]
    rfl

/-- Passages are written in strokes. -/
theorem writeAll_eq_draw : ∀ (ps : List Passage) (l : Layout), writeAll ps l = l.draw (strokesOf ps)
  | [], _ => rfl
  | p :: ps, l => by rw [writeAll, strokesOf, draw_append, p.write_eq_draw, writeAll_eq_draw ps]

end

/-! ## Header lines -/

/-- The header line of a block, up to its brace, and the code before it. -/
structure Heading where
  before : String
  header : String
deriving DecidableEq, Repr

namespace Heading

/-- The code up to the brace of the header line. -/
def text (h : Heading) : String := h.before ++ h.header ++ r"{"

/-- The code up to the end of the header line. -/
def line (h : Heading) : String := h.text ++ "\n"

/-- How long the code is up to the end of the header line. -/
def mark (h : Heading) : Nat := h.line.utf8ByteSize

theorem line_eq (h : Heading) : h.line = h.before ++ (h.header ++ (r"{" ++ "\n")) := by
  simp only [line, text, String.append_assoc]

end Heading

/-- A layout, with the headings of the blocks that are open in it, the innermost first. -/
structure Draft where
  layout : Layout
  blocks : List Heading

namespace Draft

def start (margin : Margin) : Draft := ⟨.start margin, []⟩

/-- The innermost block, if nothing was written in it. -/
def bare? (d : Draft) : Option Heading := d.blocks.head?.filter fun h => d.layout.code = h.line

/-- What stays of the code when the innermost block is closed: all, or all but the end of the header line. -/
def kept (d : Draft) : String := (d.bare?.map Heading.text).getD d.layout.code

/-- The brace that closes the innermost block: on the header line, or on a line of its own. -/
def brace (d : Draft) : String := if d.bare?.isSome then r"}" else d.layout.raise.margin.text ++ r"}"

/-- The open blocks after a stroke. -/
def blocksAfter (d : Draft) : Stroke → List Heading
  | .openBlock header => ⟨d.layout.code, d.layout.margin.text ++ (if header = "" then "" else header ++ " ")⟩ ::
      d.blocks
  | .close | .closeWith _ => d.blocks.tail
  | .reopen header => ⟨d.kept, d.brace ++ " " ++ header ++ " "⟩ :: d.blocks.tail
  | .line _ | .push _ | .indent | .newline | .deepen | .raise => d.blocks

def stroke (d : Draft) (s : Stroke) : Draft := ⟨s.apply d.layout, d.blocksAfter s⟩

def draw (d : Draft) (strokes : List Stroke) : Draft := strokes.foldl stroke d

theorem layout_draw (d : Draft) (strokes : List Stroke) : (d.draw strokes).layout = d.layout.draw strokes := by
  induction strokes generalizing d with
  | nil => rfl
  | cons s strokes ih => exact ih (d.stroke s)

/-! ## The laws -/

/-- What holds of the open blocks of a draft. -/
structure Lawful (d : Draft) : Prop where
  /-- For each open block, the mark is the end of its header line. -/
  marks : d.layout.marks = d.blocks.map Heading.mark
  /-- Further inside, marks are further on. -/
  increasing : d.layout.marks.reverse.Pairwise (· < ·)
  bounded : ∀ mark ∈ d.layout.marks, mark ≤ d.layout.code.utf8ByteSize
  /-- The header line of each open block is there, with the end of the line right before the mark. -/
  headers : ∀ h ∈ d.blocks, ∃ inside, d.layout.code = h.before ++ h.header ++ r"{" ++ "\n" ++ inside

/-- What a stroke makes of the code. -/
inductive Change (d : Draft) (s : Stroke) : Prop
  /-- Text is added. -/
  | adds (added : String) (hcode : (d.stroke s).layout.code = d.layout.code ++ added)
      (hs : s.trailer? = none ∨ d.bare? = none)
  /-- The innermost block is closed with nothing behind its header line, so that the end of that line is dropped. -/
  | collapses (h : Heading) (outer : List Heading) (trailer : String) (hs : s.trailer? = some trailer)
      (hblocks : d.blocks = h :: outer) (hbare : d.layout.code = h.before ++ h.header ++ r"{" ++ "\n")
      (hcode : (d.stroke s).layout.code = h.before ++ h.header ++ "{}" ++ trailer ++ "\n")

/-! ## Blocks inside each other -/

/-- The code goes on behind the header line of the innermost block, and that line behind the header line of the block
around it. -/
def Nested : List Heading → String → Prop
  | [], _ => True
  | h :: outer, code => (∃ inside, code = h.line ++ inside) ∧ Nested outer h.before

variable {blocks : List Heading} {code : String}

theorem Nested.append (hn : Nested blocks code) (added : String) : Nested blocks (code ++ added) := by
  cases blocks with
  | nil => trivial
  | cons h outer =>
    obtain ⟨⟨inside, hcode⟩, houter⟩ := hn
    exact ⟨⟨inside ++ added, by rw [hcode, String.append_assoc]⟩, houter⟩

/-- Every header line is there. -/
theorem Nested.mem (hn : Nested blocks code) {h : Heading} (hm : h ∈ blocks) : ∃ inside, code = h.line ++ inside := by
  induction blocks generalizing code with
  | nil => cases hm
  | cons first outer ih =>
    obtain ⟨⟨inside, hcode⟩, houter⟩ := hn
    rcases List.mem_cons.mp hm with rfl | hm
    · exact ⟨inside, hcode⟩
    · obtain ⟨between, hbefore⟩ := ih houter hm
      exact ⟨between ++ (first.header ++ (r"{" ++ "\n")) ++ inside, by
        rw [hcode, first.line_eq, hbefore]; simp only [String.append_assoc]⟩

theorem Nested.mark_le (hn : Nested blocks code) {h : Heading} (hm : h ∈ blocks) : h.mark ≤ code.utf8ByteSize := by
  obtain ⟨inside, hcode⟩ := hn.mem hm
  rw [hcode, String.utf8ByteSize_append]
  exact Nat.le_add_right _ _

theorem Nested.pairwise (hn : Nested blocks code) : (blocks.map Heading.mark).Pairwise (· > ·) := by
  induction blocks generalizing code with
  | nil => exact .nil
  | cons first outer ih =>
    refine .cons (fun mark hmark => ?_) (ih hn.2)
    obtain ⟨h, hm, rfl⟩ := List.mem_map.mp hmark
    have hle := Nested.mark_le hn.2 hm
    have hbrace : 0 < (r"{" ++ "\n").utf8ByteSize := by decide
    rw [Heading.mark, Heading.line_eq, String.utf8ByteSize_append, String.utf8ByteSize_append]
    omega

/-! ## One stroke, all strokes -/

/-- The marks of the layout are those of the headings, and the blocks lie inside each other. -/
structure Sound (d : Draft) : Prop where
  marks : d.layout.marks = d.blocks.map Heading.mark
  nested : Nested d.blocks d.layout.code

variable {d : Draft}

theorem bare?_eq_some {h : Heading} : d.bare? = some h ↔ d.blocks.head? = some h ∧ d.layout.code = h.line := by
  simp [bare?, Option.filter_eq_some_iff]

theorem kept_of_bare {h : Heading} (hb : d.bare? = some h) : d.kept = h.text := by
  rw [kept, hb]
  rfl

theorem kept_of_not_bare (hb : d.bare? = none) : d.kept = d.layout.code := by
  rw [kept, hb]
  rfl

/-- Closing the innermost block takes nothing away but the end of its header line. -/
theorem exists_code_eq_kept (d : Draft) : ∃ ending, d.layout.code = d.kept ++ ending := by
  cases hb : d.bare? with
  | none => exact ⟨"", by rw [kept_of_not_bare hb, String.append_empty]⟩
  | some h => exact ⟨"\n", by rw [kept_of_bare hb]; exact (bare?_eq_some.mp hb).2⟩

/-- Where text has been added, blocks that were there before are not bare. -/
theorem bare?_eq_none (hn : Nested d.blocks code) {added : String} (hcode : d.layout.code = code ++ added)
    (hne : added ≠ "") : d.bare? = none := by
  rw [Option.eq_none_iff_forall_ne_some]
  intro h hb
  obtain ⟨hhead, hline⟩ := bare?_eq_some.mp hb
  obtain ⟨inside, hinside⟩ := hn.mem (List.mem_of_head? hhead)
  rw [hcode, hinside, String.append_assoc, String.append_eq_left_iff, String.append_eq_empty_iff] at hline
  exact hne hline.2

namespace Sound

/-- A layout tells the blocks in which nothing was written by their marks. -/
theorem head?_marks (hd : d.Sound) : d.layout.marks.head? = some d.layout.code.utf8ByteSize ↔ d.bare?.isSome := by
  rw [hd.marks, bare?]
  have hn := hd.nested
  cases hblocks : d.blocks with
  | nil => simp
  | cons h outer =>
    rw [hblocks] at hn
    obtain ⟨inside, hcode⟩ := hn.1
    have hsize : h.mark = d.layout.code.utf8ByteSize ↔ inside = "" := by
      rw [Heading.mark, hcode, String.utf8ByteSize_append, ← String.utf8ByteSize_eq_zero_iff]
      omega
    have hline : d.layout.code = h.line ↔ inside = "" := by rw [hcode, String.append_eq_left_iff]
    simp [hsize, hline]

theorem code_closeWith (hd : d.Sound) (trailer : String) :
    (d.layout.closeWith trailer).code = d.kept ++ (d.brace ++ trailer ++ "\n") := by
  unfold Layout.closeWith brace
  cases hb : d.bare? with
  | none =>
    have hmarks : ¬ d.layout.marks.head? = some d.layout.code.utf8ByteSize := by simp [hd.head?_marks, hb]
    rw [if_neg hmarks, kept_of_not_bare hb]
    simp only [code_line, Layout.raise, Option.isSome_none, Bool.false_eq_true, if_false, String.append_assoc]
  | some h =>
    have hmarks : d.layout.marks.head? = some d.layout.code.utf8ByteSize := by simp [hd.head?_marks, hb]
    have hcode : dropLastChar d.layout.code = h.text := by
      rw [(bare?_eq_some.mp hb).2]
      exact dropLastChar_append h.text '\n'
    rw [if_pos hmarks, kept_of_bare hb]
    simp only [hcode, Option.isSome_some, if_true, String.append_assoc]

/-- The header line of the innermost block is kept up to its brace. -/
theorem kept_innermost (hd : d.Sound) {h : Heading} {outer : List Heading} (hblocks : d.blocks = h :: outer) :
    ∃ rest, d.kept = h.text ++ rest := by
  cases hb : d.bare? with
  | none =>
    obtain ⟨inside, hcode⟩ := hd.nested.mem (h := h) (by simp [hblocks])
    exact ⟨"\n" ++ inside, by rw [kept_of_not_bare hb, hcode, Heading.line, String.append_assoc]⟩
  | some first =>
    have hhead := (bare?_eq_some.mp hb).1
    rw [hblocks] at hhead
    cases hhead
    exact ⟨"", by rw [kept_of_bare hb, String.append_empty]⟩

/-- The blocks around the innermost one lie in what is kept when it is closed. -/
theorem nested_kept (hd : d.Sound) : Nested d.blocks.tail d.kept := by
  have hn := hd.nested
  cases hblocks : d.blocks with
  | nil => trivial
  | cons h outer =>
    rw [hblocks] at hn
    obtain ⟨rest, hkept⟩ := hd.kept_innermost hblocks
    rw [hkept, Heading.text, String.append_assoc, String.append_assoc]
    exact hn.2.append _

/-- The header lines of all open blocks are kept up to their braces. -/
theorem text_kept (hd : d.Sound) {h : Heading} (hm : h ∈ d.blocks) : ∃ rest, d.kept = h.text ++ rest := by
  cases hblocks : d.blocks with
  | nil =>
    rw [hblocks] at hm
    cases hm
  | cons first outer =>
    have houter := hd.nested_kept
    rw [hblocks] at hm houter
    rcases List.mem_cons.mp hm with rfl | hm
    · exact hd.kept_innermost hblocks
    · obtain ⟨inside, hkept⟩ := houter.mem hm
      exact ⟨"\n" ++ inside, by rw [hkept, Heading.line, String.append_assoc]⟩

end Sound

/-- What a stroke does to a draft. -/
inductive Effect (d : Draft) (s : Stroke) : Prop
  /-- Text is added in the innermost block. -/
  | text (added : String) (hs : s.trailer? = none) (hcode : (d.stroke s).layout.code = d.layout.code ++ added)
      (hmarks : (d.stroke s).layout.marks = d.layout.marks) (hblocks : (d.stroke s).blocks = d.blocks)
  | opens (h : Heading) (hs : s.trailer? = none) (hbefore : h.before = d.layout.code)
      (hcode : (d.stroke s).layout.code = h.line) (hmarks : (d.stroke s).layout.marks = h.mark :: d.layout.marks)
      (hblocks : (d.stroke s).blocks = h :: d.blocks)
  | closes (trailer : String) (hs : s.trailer? = some trailer)
      (hcode : (d.stroke s).layout.code = d.kept ++ (d.brace ++ trailer ++ "\n"))
      (hmarks : (d.stroke s).layout.marks = d.layout.marks.tail) (hblocks : (d.stroke s).blocks = d.blocks.tail)
  | reopens (h : Heading) (trailer : String) (hs : s.trailer? = some trailer) (hbefore : h.before = d.kept)
      (hcode : (d.stroke s).layout.code = h.line) (hline : h.line = d.kept ++ (d.brace ++ trailer ++ "\n"))
      (hmarks : (d.stroke s).layout.marks = h.mark :: d.layout.marks.tail)
        (hblocks : (d.stroke s).blocks = h :: d.blocks.tail)

namespace Sound

theorem effect (hd : d.Sound) (s : Stroke) : Effect d s := by
  cases s with
  | line text =>
    exact .text (d.layout.margin.text ++ text ++ "\n") rfl
      (by simp [stroke, Stroke.apply, code_line, String.append_assoc]) rfl rfl
  | push text => exact .text text rfl rfl rfl rfl
  | indent => exact .text d.layout.margin.text rfl rfl rfl rfl
  | newline => exact .text "\n" rfl rfl rfl rfl
  | deepen | raise => exact .text "" rfl String.append_empty.symm rfl rfl
  | openBlock header =>
    let h : Heading := ⟨d.layout.code, d.layout.margin.text ++ (if header = "" then "" else header ++ " ")⟩
    have hcode : (d.layout.openBlock header).code = h.line := by
      rw [openBlock_eq_opened, h.line_eq, ← String.append_assoc]
      simp only [opened, mark, push, deepen, h, String.append_assoc]
    refine .opens h rfl rfl hcode ?_ rfl
    show (d.layout.openBlock header).marks = _
    rw [marks_openBlock, hcode]
    rfl
  | close => exact .closes "" rfl (hd.code_closeWith "") (marks_closeWith _ _) rfl
  | closeWith trailer => exact .closes trailer rfl (hd.code_closeWith trailer) (marks_closeWith _ _) rfl
  | reopen header =>
    let h : Heading := ⟨d.kept, d.brace ++ " " ++ header ++ " "⟩
    have hclose := hd.code_closeWith (" " ++ header ++ r" {")
    have hline : h.line = d.kept ++ (d.brace ++ (" " ++ header ++ r" {") ++ "\n") := by
      rw [h.line_eq]
      simp only [h, String.append_assoc]
      rfl
    refine .reopens h _ rfl rfl (hclose.trans hline.symm) hline ?_ rfl
    show (d.layout.closeWith _).code.utf8ByteSize :: (d.layout.closeWith _).marks = _
    rw [marks_closeWith, hclose, ← hline]
    rfl

/-- One stroke. -/
theorem stroke (hd : d.Sound) (s : Stroke) : (d.stroke s).Sound := by
  cases hd.effect s with
  | text added _ hcode hmarks hblocks =>
    refine ⟨by rw [hmarks, hblocks, hd.marks], ?_⟩
    rw [hblocks, hcode]
    exact hd.nested.append added
  | opens h _ hbefore hcode hmarks hblocks =>
    refine ⟨by rw [hmarks, hblocks, hd.marks, List.map_cons], ?_⟩
    rw [hblocks, hcode]
    exact ⟨⟨"", String.append_empty.symm⟩, hbefore ▸ hd.nested⟩
  | closes trailer _ hcode hmarks hblocks =>
    refine ⟨by rw [hmarks, hblocks, hd.marks, List.map_tail], ?_⟩
    rw [hblocks, hcode]
    exact hd.nested_kept.append _
  | reopens h trailer _ hbefore hcode _ hmarks hblocks =>
    refine ⟨by rw [hmarks, hblocks, hd.marks, List.map_cons, List.map_tail], ?_⟩
    rw [hblocks, hcode]
    exact ⟨⟨"", String.append_empty.symm⟩, hbefore ▸ hd.nested_kept⟩

/-- All strokes. -/
theorem draw (hd : d.Sound) (strokes : List Stroke) : (d.draw strokes).Sound := by
  induction strokes generalizing d with
  | nil => exact hd
  | cons s strokes ih => exact ih (hd.stroke s)

theorem lawful (hd : d.Sound) : d.Lawful where
  marks := hd.marks
  increasing := by
    rw [List.pairwise_reverse, hd.marks]
    exact hd.nested.pairwise
  bounded mark hmark := by
    rw [hd.marks] at hmark
    obtain ⟨h, hm, rfl⟩ := List.mem_map.mp hmark
    exact hd.nested.mark_le hm
  headers _ hm := hd.nested.mem hm

/-- A stroke that closes a block takes the end of its header line away, or nothing. -/
theorem change (hd : d.Sound) (s : Stroke) : Change d s := by
  have hclosing {trailer : String} (hs : s.trailer? = some trailer)
      (hcode : (d.stroke s).layout.code = d.kept ++ (d.brace ++ trailer ++ "\n")) : Change d s := by
    cases hb : d.bare? with
    | none =>
      rw [kept_of_not_bare hb] at hcode
      exact .adds _ hcode (.inr hb)
    | some h =>
      obtain ⟨hhead, hline⟩ := bare?_eq_some.mp hb
      obtain ⟨outer, hblocks⟩ := List.head?_eq_some_iff.mp hhead
      refine .collapses h outer trailer hs hblocks hline ?_
      rw [hcode, kept_of_bare hb, brace, hb, Heading.text]
      simp only [Option.isSome_some, if_true, String.append_assoc]
      rfl
  cases hd.effect s with
  | text added hs hcode => exact .adds added hcode (.inl hs)
  | opens h hs hbefore hcode => exact .adds (h.header ++ (r"{" ++ "\n")) (by rw [hcode, h.line_eq, hbefore]) (.inl hs)
  | closes trailer hs hcode => exact hclosing hs hcode
  | reopens h trailer hs _ hcode hline => exact hclosing hs (hcode.trans hline)

/-- What is kept before a stroke is kept after it. -/
theorem kept_stroke (hd : d.Sound) (s : Stroke) : ∃ added, (d.stroke s).kept = d.kept ++ added := by
  obtain ⟨ending, hending⟩ := d.exists_code_eq_kept
  have hopening {h : Heading} {outer : List Heading} (hcode : (d.stroke s).layout.code = h.line)
      (hblocks : (d.stroke s).blocks = h :: outer) : (d.stroke s).kept = h.before ++ (h.header ++ r"{") := by
    rw [kept_of_bare (bare?_eq_some.mpr ⟨by rw [hblocks]; rfl, hcode⟩), Heading.text, String.append_assoc]
  cases hd.effect s with
  | text added _ hcode _ hblocks =>
    -- a block that is bare stays so if no text is added, and no block is bare if some is
    by_cases hadded : added = ""
    · have hbare : (d.stroke s).bare? = d.bare? := by rw [bare?, bare?, hcode, hblocks, hadded, String.append_empty]
      exact ⟨"", by rw [kept, hbare, hcode, hadded, String.append_empty, String.append_empty, ← kept]⟩
    · have hbare := bare?_eq_none (hblocks ▸ hd.nested) hcode hadded
      exact ⟨ending ++ added, by rw [kept_of_not_bare hbare, hcode, hending, String.append_assoc]⟩
  | opens h _ hbefore hcode _ hblocks =>
    exact ⟨ending ++ (h.header ++ r"{"), by rw [hopening hcode hblocks, hbefore, hending, String.append_assoc]⟩
  | closes trailer _ hcode _ hblocks =>
    -- the block around the closed one has the closed one in it
    have hne : d.brace ++ trailer ++ "\n" ≠ "" := by simp [String.append_eq_empty_iff]
    have hbare := bare?_eq_none (hblocks ▸ hd.nested_kept) hcode hne
    exact ⟨_, (kept_of_not_bare hbare).trans hcode⟩
  | reopens h trailer _ hbefore hcode _ _ hblocks =>
    exact ⟨h.header ++ r"{", by rw [hopening hcode hblocks, hbefore]⟩

theorem kept_draw (hd : d.Sound) (strokes : List Stroke) : ∃ added, (d.draw strokes).kept = d.kept ++ added := by
  induction strokes generalizing d with
  | nil => exact ⟨"", String.append_empty.symm⟩
  | cons s strokes ih =>
    obtain ⟨added, hadded⟩ := hd.kept_stroke s
    obtain ⟨more, hmore⟩ := ih (hd.stroke s)
    exact ⟨added ++ more, hmore.trans (by rw [hadded, String.append_assoc])⟩

/-- The header line of an open block, and all before it, stays whatever is written. -/
theorem text_draw (hd : d.Sound) {h : Heading} (hm : h ∈ d.blocks) (strokes : List Stroke) :
    ∃ rest, (d.draw strokes).layout.code = h.text ++ rest := by
  obtain ⟨before, hbefore⟩ := hd.text_kept hm
  obtain ⟨added, hadded⟩ := hd.kept_draw strokes
  obtain ⟨ending, hending⟩ := (d.draw strokes).exists_code_eq_kept
  exact ⟨before ++ added ++ ending, by rw [hending, hadded, hbefore]; simp only [String.append_assoc]⟩

end Sound

theorem start_sound (margin : Margin) : (start margin).Sound := ⟨rfl, trivial⟩

/-- The draft after the first `n` strokes of passages. -/
def written (margin : Margin) (ps : List Passage) (n : Nat) : Draft := (start margin).draw ((strokesOf ps).take n)

end Draft

open Draft

/-- **The laws of open blocks.** Passages are written from the start, with any indentation, with blocks inside blocks,
and with blocks closed that were never opened. After any number of strokes, the marks are the ends of the header lines
of the open blocks, further on for blocks further inside, and not beyond the code. Whatever stroke follows, text is
added, or a block with nothing behind its header line is closed in that line, whose end is dropped. And whatever strokes
follow, the code stays as it is up to the brace of each header line. -/
theorem written_lawful (margin : Margin) (ps : List Passage) (n : Nat) :
    (written margin ps n).layout = (Layout.start margin).draw ((strokesOf ps).take n) ∧
    writeAll ps (Layout.start margin) = (written margin ps n).layout.draw ((strokesOf ps).drop n) ∧
    (written margin ps n).Lawful ∧
    (∀ s, (written margin ps n).Change s) ∧
    ∀ h ∈ (written margin ps n).blocks, ∀ strokes, ∃ rest,
      ((written margin ps n).layout.draw strokes).code = h.before ++ h.header ++ r"{" ++ rest := by
  have hlayout : (written margin ps n).layout = (Layout.start margin).draw ((strokesOf ps).take n) := layout_draw _ _
  have hd : (written margin ps n).Sound := (start_sound margin).draw _
  refine ⟨hlayout, ?_, hd.lawful, hd.change, fun h hm strokes => ?_⟩
  · rw [hlayout, ← draw_append, List.take_append_drop, writeAll_eq_draw]
  · rw [← layout_draw]
    exact hd.text_draw hm strokes

/-- A brace that closes nothing; then a block that is closed bare, with another opened behind it and a line in that
one. -/
def bareThenFilled : List Passage :=
  [.stroke .close, .block "if (x)" [.stroke (.reopen "else"), .stroke (.line "y();")]]

theorem written_lawful_reopened :
    (written ⟨"  ", 1⟩ bareThenFilled 2).bare? = some ⟨r"}" ++ "\n", "if (x) "⟩ ∧
    (written ⟨"  ", 1⟩ bareThenFilled 3).blocks = [⟨r"}" ++ "\n" ++ r"if (x) {", r"} else "⟩] ∧
    (written ⟨"  ", 1⟩ bareThenFilled 3).layout.marks = [19] ∧
    ∃ rest, (writeAll bareThenFilled (Layout.start ⟨"  ", 1⟩)).code
      = r"}" ++ "\n" ++ r"if (x) {" ++ r"} else " ++ r"{" ++ rest := by
  have hblocks : (written ⟨"  ", 1⟩ bareThenFilled 3).blocks = [⟨r"}" ++ "\n" ++ r"if (x) {", r"} else "⟩] := rfl
  have hlaws := written_lawful ⟨"  ", 1⟩ bareThenFilled 3
  have hheading : ⟨r"}" ++ "\n" ++ r"if (x) {", r"} else "⟩ ∈ (written ⟨"  ", 1⟩ bareThenFilled 3).blocks := by
    rw [hblocks]
    exact List.mem_singleton_self _
  refine ⟨rfl, hblocks, ?_, ?_⟩
  · rw [hlaws.2.2.1.marks, hblocks]
    decide
  · rw [hlaws.2.1]
    exact hlaws.2.2.2.2 _ hheading _

end Vernacular.Layout
