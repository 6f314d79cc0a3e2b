import Mathlib.Data.List.DropRight
import Vernacular.Proofs.Token.Lossless

/-!
# Where a scanner stands

A scanner can be asked for characters and for tokens in any order, also after a flaw (`Scanner.Request`). Whatever it
was asked for, it has passed some of the characters of its text and stands before the others (`Scanner.Passes`), so that
its offset, its line and its column are three names of one place of the source (`Position.Locates`).

- `Position.advanceOver_counts`: lines and columns as counts of what was passed;
- `Scanner.next_passes`, `Scanner.serve_passes`: what one request passes, `Scanner.serveAll_passes`: what many pass;
- `Scanner.serveAll_locates`: the places of a scanner, of its tokens and of its flaws.
-/

namespace Vernacular

/-! ## Places -/

/-- The offset at which the first line of a source begins: behind a byte order mark, if there is one. -/
def lineOrigin (source : String) : Nat := if source.toList.head? = some '\ufeff' then 3 else 0

/-- The position is that of a place between two characters of the source. Line and column count the characters from
where the first line begins: the line feeds among them, and those behind the last line feed. -/
structure Position.Locates (p : Position) (source : String) : Prop where
  boundary : String.Pos.Raw.IsValid source ⟨p.offset⟩
  within : p.offset ≤ source.utf8ByteSize
  origin_le : lineOrigin source ≤ p.offset
  counts : ∃ passed : String, IsSlice source (lineOrigin source) p.offset passed ∧
    p.line = 1 + passed.toList.count '\n' ∧ p.column = 1 + (passed.toList.rtakeWhile (· != '\n')).length

/-- From the beginning of a line on, the line counts line feeds, and the column what stands behind the last of them. -/
theorem Position.advanceOver_counts {p : Position} (hp : p.column = 1) (cs : List Char) :
    (p.advanceOver cs).line = p.line + cs.count '\n' ∧
      (p.advanceOver cs).column = 1 + (cs.rtakeWhile (· != '\n')).length := by
  induction cs using List.reverseRecOn with
  | nil => exact ⟨rfl, hp⟩
  | append_singleton cs c ih =>
    obtain ⟨hline, hcolumn⟩ := ih
    rw [advanceOver_append, advanceOver_cons, advanceOver_nil, advance, List.count_append]
    by_cases hc : c = '\n'
    · subst hc
      rw [if_pos rfl, List.rtakeWhile_concat_neg _ _ _ (by decide), List.count_singleton_self, ← Nat.add_assoc, ← hline]
      exact ⟨rfl, rfl⟩
    · have hcount : List.count '\n' [c] = 0 := List.count_eq_zero.mpr (by simpa using Ne.symm hc)
      rw [if_neg hc, List.rtakeWhile_concat_pos _ _ _ (by simpa using hc), List.length_append, hcount, ← Nat.add_assoc]
      exact ⟨hline, congrArg (· + 1) hcolumn⟩

theorem Scanner.ofText_position (source : String) : (ofText source).position = ⟨1, 1, lineOrigin source⟩ := by
  unfold ofText lineOrigin
  cases source.toList with
  | nil => rfl
  | cons c cs =>
    by_cases hc : c = byteOrderMark
    · subst hc
      rfl
    · have hne : ¬ (c :: cs).head? = some '\ufeff' := fun h => hc (Option.some.inj h)
      rw [if_neg hne]
      simp only [hc, if_false]
      rfl

/-! ## What a scanner passes -/

namespace Scanner

/-- From `s` to `s'` the scanner passes these characters. -/
def Passes (s : Scanner) (passed : List Char) (s' : Scanner) : Prop :=
  s.rest = passed ++ s'.rest ∧ s'.position = s.position.advanceOver passed

variable {s s' s'' : Scanner} {passed more : List Char}

theorem Passes.refl (s : Scanner) : s.Passes [] s := ⟨rfl, rfl⟩

theorem Passes.trans (h : s.Passes passed s') (h' : s'.Passes more s'') : s.Passes (passed ++ more) s'' := by
  refine ⟨?_, ?_⟩
  · rw [h.1, h'.1, List.append_assoc]
  · rw [h'.2, h.2, Position.advanceOver_append]

theorem Passes.offset_eq (h : s.Passes passed s') :
    s'.position.offset = s.position.offset + (String.ofList passed).utf8ByteSize := by
  rw [h.2, Position.advanceOver_offset]

theorem Passes.offset_le (h : s.Passes passed s') : s.position.offset ≤ s'.position.offset := by
  rw [h.offset_eq]
  omega

theorem Passes.offset_lt (h : s.Passes passed s') (hne : passed ≠ []) : s.position.offset < s'.position.offset := by
  have hpos : (String.ofList passed).utf8ByteSize ≠ 0 := by
    rw [Ne, String.utf8ByteSize_eq_zero_iff]
    simpa using hne
  rw [h.offset_eq]
  omega

/-- The source, cut where the scanner stands. -/
theorem Passes.source_eq {source : String} (h : (ofText source).Passes passed s) : ∃ before : String,
    source = before ++ String.ofList s.rest ∧ before.utf8ByteSize = s.position.offset := by
  obtain ⟨hsource, hmark⟩ := ofText_spec source
  rw [h.1, String.ofList_append, ← String.append_assoc] at hsource
  exact ⟨_, hsource, by rw [String.utf8ByteSize_append, hmark, h.offset_eq]⟩

/-- What is passed from one place to another is the stretch of the source between their offsets. -/
theorem Passes.isSlice {source : String} (h : (ofText source).Passes passed s) (h' : s.Passes more s') :
    IsSlice source s.position.offset s'.position.offset (String.ofList more) := by
  obtain ⟨before, hsource, hsize⟩ := h.source_eq
  have hslice := isSlice_middle before (String.ofList more) (String.ofList s'.rest)
  rwa [← String.ofList_append, ← h'.1, ← hsource, hsize, ← h'.offset_eq] at hslice

theorem Passes.locates {source : String} (h : (ofText source).Passes passed s) : s.position.Locates source := by
  have hcounts := Position.advanceOver_counts (p := (ofText source).position) (by rw [ofText_position]) passed
  have hslice := (Passes.refl (ofText source)).isSlice h
  have horigin := h.offset_le
  obtain ⟨before, hsource, hsize⟩ := h.source_eq
  have hend := congrArg String.utf8ByteSize hsource
  rw [String.utf8ByteSize_append] at hend
  rw [ofText_position] at hslice horigin
  refine ⟨String.Pos.Raw.isValid_iff_exists_append.mpr ⟨before, _, hsource, ?_⟩, by omega, horigin, _, hslice, ?_⟩
  · rw [← hsize]
    rfl
  · rw [String.toList_ofList, h.2, hcounts.1, hcounts.2, ofText_position]
    exact ⟨rfl, rfl⟩

/-- What is left is the source from the offset on. -/
theorem Passes.rest_isSlice {source : String} (h : (ofText source).Passes passed s) :
    IsSlice source s.position.offset source.utf8ByteSize (String.ofList s.rest) := by
  have hall : s.Passes s.rest ⟨[], s.position.advanceOver s.rest, none⟩ := ⟨(List.append_nil _).symm, rfl⟩
  obtain ⟨before, hsource, hsize⟩ := (h.trans hall).source_eq
  have hslice := h.isSlice hall
  rw [String.ofList_nil, String.append_empty] at hsource
  rwa [← hsize, ← hsource] at hslice

theorem advance_passes (s : Scanner) : ∃ passed, s.Passes passed s.advance := by
  unfold advance
  cases h : s.rest with
  | nil => exact ⟨[], .refl s⟩
  | cons c cs => exact ⟨[c], h, rfl⟩

/-- A step passes a gap, before which it stood, and the characters of a token or of a flaw, which begin behind the
gap. -/
theorem next_passes (s : Scanner) : ∃ gap text, s.Passes (gap ++ text) s.next.2 ∧
    (∀ e, s.next.1 = .error e → e.position = s.position.advanceOver gap) ∧
    ∀ t, s.next.1 = .ok t → t.text = String.ofList text ∧ t.start = s.position.advanceOver gap ∧
      t.stop = t.start.advanceOver text ∧ (t.kind ≠ .eof → text ≠ []) := by
  cases hx : s.next with
  | mk answer s' =>
    cases answer with
    | error e =>
      simp only [next] at hx
      split at hx
      · cases hx
        refine ⟨(trivia s.rest).1, _, ⟨?_, (Position.advanceOver_append ..).symm⟩, ?_, ?_⟩
        · simp only [skip, skipTrivia, List.append_assoc, Lexeme.read_append, trivia_append]
        · rintro _ ⟨⟩
          rfl
        · rintro _ ⟨⟩
      · cases hx
    | ok t =>
      obtain ⟨gap, text, -, hrest, htext, hstart, hstop, hposition, -, hne⟩ := next_ok hx
      refine ⟨gap, text, ⟨hrest, ?_⟩, ?_, ?_⟩
      · rw [hposition, hstop, hstart, Position.advanceOver_append]
      · rintro _ ⟨⟩
      · rintro _ ⟨⟩
        exact ⟨htext, hstart, hstop, hne⟩

/-! ## Requests -/

/-- What can be asked of a scanner. -/
inductive Request where
  | current
  | peek (n : Nat)
  | advance
  | atEnd
  | next

/-- What a request is answered with. -/
abbrev Request.Answer : Request → Type
  | current | peek _ | advance => Option Char
  | atEnd => Bool
  | next => Except LexicalError Token

/-- The answer to a request, and the scanner after it. -/
def serve (s : Scanner) : (r : Request) → r.Answer × Scanner
  | .current => (s.current?, s)
  | .peek n => (s.peek? n, s)
  | .advance => (s.current?, s.advance)
  | .atEnd => (s.atEnd, s)
  | .next => s.next

/-- The scanner after some requests. -/
def serveAll (s : Scanner) (requests : List Request) : Scanner := requests.foldl (fun s r => (s.serve r).2) s

theorem serve_passes (s : Scanner) (r : Request) : ∃ passed, s.Passes passed (s.serve r).2 := by
  cases r with
  | current => exact ⟨[], .refl s⟩
  | peek n => exact ⟨[], .refl s⟩
  | advance => exact s.advance_passes
  | atEnd => exact ⟨[], .refl s⟩
  | next =>
    obtain ⟨gap, text, hpasses, -⟩ := s.next_passes
    exact ⟨gap ++ text, hpasses⟩

theorem serveAll_passes (s : Scanner) (requests : List Request) : ∃ passed, s.Passes passed (s.serveAll requests) := by
  induction requests generalizing s with
  | nil => exact ⟨[], .refl s⟩
  | cons r requests ih =>
    obtain ⟨passed, hpassed⟩ := s.serve_passes r
    obtain ⟨more, hmore⟩ := ih (s.serve r).2
    exact ⟨passed ++ more, hpassed.trans hmore⟩

/-- **A scanner never loses its place.** After any requests, also after flaws, the offset is a place between two
characters of the source, line and column are those of the place, and what is left is the source from there on; whatever
is asked next, the offset never decreases. If the next token is asked for, a flaw is at a place of the source, and a
token stands between two of them; unless it is the end, the offset increases. -/
theorem serveAll_locates (source : String) (requests : List Request) :
    let s := (ofText source).serveAll requests
    s.position.Locates source ∧ IsSlice source s.position.offset source.utf8ByteSize (String.ofList s.rest) ∧
      (∀ more, s.position.offset ≤ (s.serveAll more).position.offset) ∧
      (∀ e, s.next.1 = .error e → e.position.Locates source) ∧
      ∀ t, s.next.1 = .ok t → t.start.Locates source ∧ t.stop.Locates source ∧
        s.position.offset ≤ t.start.offset ∧ t.start.offset ≤ t.stop.offset ∧
        IsSlice source t.start.offset t.stop.offset t.text ∧
        (t.kind ≠ .eof → s.position.offset < s.next.2.position.offset) := by
  intro s
  obtain ⟨passed, hpassed⟩ : ∃ passed, (ofText source).Passes passed s := serveAll_passes _ requests
  obtain ⟨gap, text, hnext, herror, hok⟩ := s.next_passes
  -- between the gap and the text the scanner is where a token or a flaw begins
  let begun : Scanner := ⟨text ++ s.next.2.rest, s.position.advanceOver gap, none⟩
  have hgap : s.Passes gap begun := ⟨by rw [hnext.1, List.append_assoc], rfl⟩
  have htext : begun.Passes text s.next.2 := ⟨rfl, by rw [hnext.2, Position.advanceOver_append]⟩
  refine ⟨hpassed.locates, hpassed.rest_isSlice, fun more => ?_, fun e he => ?_, fun t ht => ?_⟩
  · obtain ⟨passed, hmore⟩ := s.serveAll_passes more
    exact hmore.offset_le
  · rw [herror e he]
    exact (hpassed.trans hgap).locates
  · obtain ⟨hslice, hstart, hstop, hne⟩ := hok t ht
    have hstart : t.start = begun.position := hstart
    have hstop : t.stop = s.next.2.position := by rw [hstop, hstart, ← htext.2]
    rw [hstart, hstop, hslice]
    refine ⟨(hpassed.trans hgap).locates, (hpassed.trans hnext).locates, hgap.offset_le, htext.offset_le,
      (hpassed.trans hgap).isSlice htext, fun hkind => ?_⟩
    exact Nat.lt_of_le_of_lt hgap.offset_le (htext.offset_lt (hne hkind))

/-- Behind a byte order mark and a character that begins no token, a comment over two lines and a word. -/
theorem serveAll_locates_flaw :
    let source := "\ufeff\u00e9/*\n\u20ac*/ab"
    let s := (ofText source).serveAll [.peek 1, .next, .advance, .current]
    let t : Token := ⟨.identifier, "ab", ⟨2, 4, 13⟩, ⟨2, 6, 15⟩⟩
    s.position = ⟨1, 2, 5⟩ ∧ s.next.1 = .ok t ∧ s.position.Locates source ∧ t.start.Locates source ∧
      t.stop.Locates source ∧ IsSlice source 13 15 "ab" ∧ 5 < s.next.2.position.offset := by
  intro source s t
  have hs : s.position = ⟨1, 2, 5⟩ := by decide +kernel
  have ht : s.next.1 = .ok t := ok_of_toOption (by decide +kernel)
  obtain ⟨hlocates, -, -, -, hnext⟩ := serveAll_locates source [.peek 1, .next, .advance, .current]
  obtain ⟨hstart, hstop, -, -, hslice, hlt⟩ := hnext t ht
  have hlt : s.position.offset < s.next.2.position.offset := hlt (by decide)
  rw [hs] at hlt
  exact ⟨hs, ht, hlocates, hstart, hstop, hslice, hlt⟩

end Scanner

end Vernacular
