import Mathlib.Data.List.Forall2
import Vernacular.Proofs.Script.Code
import Vernacular.Proofs.Script.Marks
import Vernacular.Proofs.Tree.Shown
import Vernacular.Proofs.Tree.Spelled

/-!
# Generated code spells its marks

The text that a tree becomes is scanned to the marks that were read off the tree. `Spells` says so of a text that ends
with a mark, whatever stands behind it, if only that begins with a suitable character; `Passes` of a text that may be
empty or begin and end with blanks. Both can be put together from their parts, so that a proof about a tree follows the
tree.

- `Spells.append`, `Spells.spaced`, `Spells.between`: one text behind another;
- `Spells.inParens`, `Passes.braced`: a text in parentheses, lines in braces;
- operators, names and literals, and callables.
-/

namespace Vernacular

variable {s : String} {ms : List Mark} {stop : Char → Bool} {cs : List Char} {named : Bool} {c : Char} {k : Kind}

/-! ## Texts and their marks -/

/-- Texts begin neither with a blank nor with what could go on an operator before them. -/
def begins (c : Char) : Bool := !isBlank c && c != '='

/-- What goes on no word. -/
def noWord (c : Char) : Bool := !isWordChar c

/-- What goes on neither a word nor a number. -/
def noNumber (c : Char) : Bool := !isWordChar c && c != '.'

def anything (_ : Char) : Bool := true

/-- The text has these marks, if it stands before a character with `stop`. `named` says that the mark before it
announces a plain name. -/
structure Spells (named : Bool) (stop : Char → Bool) (s : String) (ms : List Mark) : Prop where
  begins : s.toList.head?.any Vernacular.begins = true
  scans : ∀ (broken : Bool) (cs : List Char), (∀ c ∈ cs.head?, stop c = true) →
    Scans ⟨named, broken, s.toList ++ cs⟩ ms ⟨false, false, cs⟩

section Spells

variable {stop' : Char → Bool} {s' : String} {ms' : List Mark}

/-- Fewer characters may follow. -/
theorem Spells.mono (h : Spells named stop s ms) (hstop : ∀ c, stop' c = true → stop c = true) :
    Spells named stop' s ms :=
  ⟨h.begins, fun broken cs hcs => h.scans broken cs fun c hc => hstop c (hcs c hc)⟩

/-- One mark is a text. -/
theorem Spells.mark {m : Mark} (hbegins : m.text.toList.head?.any Vernacular.begins = true) (hk : m.kind ≠ .eof)
    (hn : m.kind.namesNext = false) (ht : m.tight = false)
    (h : ∀ cs : List Char, (∀ c ∈ cs.head?, stop c = true) → LexemeAt named m.kind m.text.toList cs) :
    Spells named stop m.text [m] := by
  refine ⟨hbegins, fun broken cs hcs => ?_⟩
  have hdone : Scans ⟨m.kind.namesNext, false, cs⟩ [] ⟨false, false, cs⟩ := hn ▸ .done
  exact .mark (h cs hcs) hk (fun htight => by rw [ht] at htight; cases htight) hdone

/-- What may stand in a word may begin a text. -/
theorem begins_of_isWordChar (h : isWordChar c = true) : begins c = true := by
  have hne : c ≠ '=' := by rintro rfl; exact absurd h (by decide)
  simp [begins, (not_isBlank_of_isWordChar h).1, hne]

theorem begins_of_isWordText (h : isWordText cs = true) : cs.head?.any begins = true := by
  cases cs with
  | nil => cases h
  | cons c cs =>
    simp only [isWordText, Bool.and_eq_true, List.all_cons] at h
    exact begins_of_isWordChar h.2.1

/-- A word, as long as no more of it follows. -/
theorem Spells.word (h : isWordText s.toList = true) : Spells false noWord s [.word s] := by
  obtain ⟨hk, hn⟩ := Grammar.namesNext_of_isWord (Kind.isWord_ofWord s)
  refine Spells.mark (m := .word s) (begins_of_isWordText h) hk hn rfl fun cs hcs => ?_
  have hat := LexemeAt.word false h (r := cs) fun c hc => by simpa [noWord] using hcs c hc
  rwa [String.ofList_toList] at hat

/-- A word behind a point or a hash is a plain name. -/
theorem Spells.name (h : isWordText s.toList = true) : Spells true noWord s [.name s] :=
  Spells.mark (m := .name s) (begins_of_isWordText h) nofun rfl rfl fun _ hcs =>
    LexemeAt.word true h fun c hc => by simpa [noWord] using hcs c hc

/-- A number. No point may follow, which would go on it. -/
theorem Spells.number (h : IsNumber s.toList) : Spells named noNumber s [numberMark s] := by
  refine Spells.mark (m := numberMark s) ?_ nofun rfl rfl fun cs hcs => LexemeAt.number named h fun c hc => by
    simpa [noNumber] using hcs c hc
  obtain ⟨c, ds, hs, hd | ⟨rfl, -⟩⟩ := h.exists_cons
  · simpa [numberMark, hs] using begins_of_isWordChar (isWordChar_of_isDigit hd)
  · simp only [numberMark, hs]
    rfl

theorem begins_of_quoteKind? {q : Char} (h : quoteKind? q = some k) : Vernacular.begins q = true := by
  unfold quoteKind? at h
  split at h
  · rename_i hs
    simp only [Bool.or_eq_true, beq_iff_eq] at hs
    rcases hs with rfl | rfl <;> decide
  · split at h
    · rename_i ht
      obtain rfl := eq_of_beq ht
      decide
    · cases h

/-- A string or a template. It ends with its own quote, so anything may follow. -/
theorem Spells.quoted {n : Bool} {q : Char} (h : IsLexeme k (requoted s q)) (hk : k = .string ∨ k = .template) :
    Spells n anything (requoted s q) [quotedMark k s q] := by
  have hne : k ≠ .eof ∧ k.namesNext = false ∧ k.isWord = false ∧ k ≠ .number ∧ ∀ t, k ≠ .symbol t := by
    rcases hk with rfl | rfl <;> exact ⟨nofun, rfl, rfl, nofun, nofun⟩
  rcases h.inv hne.1 with ⟨-, hw⟩ | ⟨hn, -⟩ | ⟨q', inside, hq, hs, hclose⟩ | ⟨t, ht⟩
  · have := Kind.isWord_ofWord (requoted s q)
    rw [← hw, hne.2.2.1] at this
    cases this
  · exact absurd hn hne.2.2.2.1
  · refine Spells.mark (m := quotedMark k s q) ?_ hne.1 hne.2.1 rfl fun cs _ => ?_
    · simpa [quotedMark, hs] using begins_of_quoteKind? hq
    · have hat := LexemeAt.quoted n hq hclose cs
      rwa [← hs] at hat
  · exact absurd ht (hne.2.2.2.2 t)

/-- A symbol before a character that makes no longer one. -/
theorem Spells.symbol {n : Bool} (t : Symbol) (hn : (Kind.symbol t).namesNext = false)
    (hb : t.text.toList.head?.any Vernacular.begins = true) : Spells n t.stopsAt t.text [.symbol t] :=
  Spells.mark (m := .symbol t) hb nofun hn rfl fun _ hcs => LexemeAt.symbol hcs

/-- What is put behind a text does not change how it begins. -/
theorem head?_append_of_any {p : Char → Bool} {ds : List Char} (h : cs.head?.any p = true) :
    (cs ++ ds).head? = cs.head? := by
  cases cs with
  | nil => cases h
  | cons c cs => rfl

/-- What begins with a suitable text may stand behind. -/
theorem stops_append {w : String} (s : String) (h : w.toList.head?.any stop = true) :
    ∀ c ∈ (w ++ s).toList.head?, stop c = true := by
  intro c hc
  rw [String.toList_append, head?_append_of_any h, Option.mem_def] at hc
  rwa [hc] at h

theorem stops_enclosed {w : String} (s s' : String) (h : w.toList.head?.any stop = true) :
    ∀ c ∈ (w ++ s ++ s').toList.head?, stop c = true := by
  rw [String.append_assoc]
  exact stops_append _ h

/-- What begins a text is checked. -/
theorem head?_of_all {p : Char → Bool} (h : s.toList.head?.all p = true) : ∀ c ∈ s.toList.head?, p c = true := by
  intro c hc
  rw [Option.mem_def.mp hc] at h
  exact h

/-- A text and another right behind it. -/
theorem Spells.append (h : Spells named stop s ms) (h' : Spells false stop' s' ms')
    (hstop : ∀ c ∈ s'.toList.head?, stop c = true) : Spells named stop' (s ++ s') (ms ++ ms') := by
  refine ⟨by rw [String.toList_append, head?_append_of_any h.begins]; exact h.begins, fun broken cs hcs => ?_⟩
  rw [String.toList_append, List.append_assoc]
  refine (h.scans broken _ ?_).trans (h'.scans false cs hcs)
  rwa [head?_append_of_any h'.begins]

/-- Two texts with a blank between them. -/
theorem Spells.spaced (h : Spells named stop s ms) (h' : Spells false stop' s' ms') (hstop : stop ' ' = true) :
    Spells named stop' (s ++ " " ++ s') (ms ++ ms') := by
  refine ⟨?_, fun broken cs hcs => ?_⟩
  · rw [String.append_assoc, String.toList_append, head?_append_of_any h.begins]
    exact h.begins
  · simp only [String.toList_append, List.append_assoc]
    refine (h.scans broken _ (by simpa using hstop)).trans ?_
    exact .blank rfl (h'.scans _ cs hcs)

/-- A symbol that announces a plain name, and what is announced. -/
theorem Spells.announced {t : Symbol} (h : Spells true stop s ms) (hn : (Kind.symbol t).namesNext = true)
    (hb : t.text.toList.head?.any Vernacular.begins = true) (hstop : ∀ c ∈ s.toList.head?, t.stopsAt c = true) :
    Spells named stop (t.text ++ s) (.symbol t :: ms) := by
  refine ⟨by rw [String.toList_append, head?_append_of_any hb]; exact hb, fun broken cs hcs => ?_⟩
  rw [String.toList_append, List.append_assoc]
  have hat : LexemeAt named (.symbol t) t.text.toList (s.toList ++ cs) :=
    LexemeAt.symbol (by rwa [head?_append_of_any h.begins])
  have hscan := h.scans false cs hcs
  rw [← hn] at hscan
  exact Scans.mark (m := .symbol t) hat nofun nofun hscan

/-- Marks that stand between blanks. -/
structure Between (m : Mark) : Prop where
  lexemeAt : ∀ cs, LexemeAt false m.kind m.text.toList (' ' :: cs)
  kind : m.kind ≠ .eof ∧ m.kind.namesNext = false
  loose : m.tight = false

/-- A symbol stands between two texts if it announces no name. -/
theorem Between.symbol (t : Symbol) (hn : (Kind.symbol t).namesNext = false) : Between (.symbol t) :=
  ⟨fun cs => LexemeAt.symbol (by simpa using t.stopsAt_space), ⟨nofun, hn⟩, rfl⟩

/-- So does a word, with blanks around it. -/
theorem Between.word {w : String} (h : isWordText w.toList = true) : Between (.word w) := by
  refine ⟨fun cs => ?_, Grammar.namesNext_of_isWord (Kind.isWord_ofWord w), rfl⟩
  have hat := LexemeAt.word false h (r := ' ' :: cs) (by simp; decide)
  rwa [String.ofList_toList] at hat

/-- Two texts with a mark between them. -/
theorem Spells.between {m : Mark} (h : Spells named stop s ms) (hm : Between m) (h' : Spells false stop' s' ms')
    (hstop : stop ' ' = true) : Spells named stop' (s ++ " " ++ m.text ++ " " ++ s') (ms ++ m :: ms') := by
  refine ⟨?_, fun broken cs hcs => ?_⟩
  · simp only [String.append_assoc]
    rw [String.toList_append, head?_append_of_any h.begins]
    exact h.begins
  · simp only [String.toList_append, List.append_assoc]
    refine (h.scans broken _ (by simpa using hstop)).trans ?_
    have hscan : Scans ⟨m.kind.namesNext, false, ' ' :: (s'.toList ++ cs)⟩ ms' ⟨false, false, cs⟩ := by
      rw [hm.kind.2]
      exact .blank rfl (h'.scans _ cs hcs)
    exact .blank rfl (.mark (hm.lexemeAt _) hm.kind.1 (by simp [hm.loose]) hscan)

/-- Marks and blanks of a text, if it stands before a character with `stop`. -/
def Passes (stop : Char → Bool) (s : String) (ms : List Mark) : Prop :=
  ∀ (broken : Bool) (cs : List Char), (∀ c ∈ cs.head?, stop c = true) →
    ∃ broken', Scans ⟨false, broken, s.toList ++ cs⟩ ms ⟨false, broken', cs⟩

/-- A text with marks is one that may also be empty. -/
theorem Spells.passes (h : Spells false stop s ms) : Passes stop s ms :=
  fun broken cs hcs => ⟨false, h.scans broken cs hcs⟩

/-- Blanks have no marks. -/
theorem Passes.blanks {g : String} (hg : ∀ c ∈ g.toList, isBlank c = true) : Passes anything g [] :=
  fun _ _ _ => ⟨_, Scans.blanks hg⟩

theorem Passes.empty : Passes stop "" [] := fun broken _ _ => ⟨broken, .done⟩

/-- Fewer characters may follow. -/
theorem Passes.mono (h : Passes stop s ms) (hstop : ∀ c, stop' c = true → stop c = true) : Passes stop' s ms :=
  fun broken cs hcs => h broken cs fun c hc => hstop c (hcs c hc)

/-- What is passed and then what is passed; the first part stops before all that the second may begin with. -/
theorem Passes.append (h : Passes stop s ms) (h' : Passes stop' s' ms')
    (hstop : ∀ c ∈ s'.toList.head?, stop c = true) (hempty : s' = "" → ∀ c, stop' c = true → stop c = true) :
    Passes stop' (s ++ s') (ms ++ ms') := by
  intro broken cs hcs
  rw [String.toList_append, List.append_assoc]
  obtain ⟨broken₁, h₁⟩ := h broken (s'.toList ++ cs) fun c hc => by
    cases hs : s'.toList with
    | nil =>
      rw [hs] at hc
      exact hempty (String.toList_eq_nil_iff.mp hs) c (hcs c hc)
    | cons d ds =>
      rw [hs] at hc
      exact hstop c (by rw [hs]; exact hc)
  obtain ⟨broken₂, h₂⟩ := h' broken₁ cs hcs
  exact ⟨broken₂, h₁.trans h₂⟩

/-- Behind what anything may stand, anything may be passed. -/
theorem Passes.append' (h : Passes anything s ms) (h' : Passes stop' s' ms') : Passes stop' (s ++ s') (ms ++ ms') :=
  h.append h' (fun _ _ => rfl) fun _ _ _ => rfl

/-- A text, something that is passed, and a text again. -/
theorem Spells.enclose {stopₚ : Char → Bool} {p : String} {ps : List Mark} (h : Spells named anything s ms)
    (hp : Passes stopₚ p ps) (h' : Spells false stop' s' ms') (hstop : ∀ c ∈ s'.toList.head?, stopₚ c = true) :
    Spells named stop' (s ++ p ++ s') (ms ++ ps ++ ms') := by
  refine ⟨?_, fun broken cs hcs => ?_⟩
  · rw [String.append_assoc, String.toList_append, head?_append_of_any h.begins]
    exact h.begins
  · simp only [String.toList_append, List.append_assoc]
    obtain ⟨broken₁, h₁⟩ := hp false (s'.toList ++ cs) (by rwa [head?_append_of_any h'.begins])
    exact (h.scans broken _ fun _ _ => rfl).trans (h₁.trans (h'.scans broken₁ cs hcs))

end Spells

/-! ## Symbols that stand anywhere -/

/-- The symbols that no character behind them makes longer. -/
def Symbol.closed (t : Symbol) : Bool :=
  t.followers == [] && t != .dot && t != .slash && t.text.toList.head?.any begins

/-- A symbol that no character goes on may stand before anything. -/
theorem Symbol.stopsAt_of_closed {t : Symbol} (h : t.closed = true) (c : Char) : t.stopsAt c = true := by
  simp only [Symbol.closed, Bool.and_eq_true, beq_iff_eq, bne_iff_ne] at h
  obtain ⟨⟨⟨hf, hd⟩, hs⟩, hb⟩ := h
  simp [Symbol.stopsAt, hf, hd, hs]

theorem Symbol.closed_of_mem : ∀ t ∈ [leftParen, rightParen, leftBrace, rightBrace, leftBracket, rightBracket,
    semicolon, comma, colon, hash, optionalChain, increment, decrement], closed t = true := by
  decide +kernel

/-- A symbol that no character goes on. -/
theorem Spells.closed {t : Symbol} (h : t.closed = true) (hn : (Kind.symbol t).namesNext = false) :
    Spells named anything t.text [.symbol t] := by
  have hb := h
  simp only [Symbol.closed, Bool.and_eq_true] at hb
  exact (Spells.symbol t hn hb.2).mono fun c _ => Symbol.stopsAt_of_closed h c

/-- A plain name behind the point or the hash that announces it. -/
theorem Spells.announcedBy {t : Symbol} (h : Spells true stop s ms) (ht : t.closed = true)
    (hn : (Kind.symbol t).namesNext = true) :
    Spells named stop (t.text ++ s) (.symbol t :: ms) := by
  have hb := ht
  simp only [Symbol.closed, Bool.and_eq_true] at hb
  exact h.announced hn hb.2 fun c _ => Symbol.stopsAt_of_closed ht c

theorem noWord_of_noNumber (h : noNumber c = true) : noWord c = true := by
  simp only [noNumber, Bool.and_eq_true] at h
  exact h.1

/-- A text in parentheses. What follows it does not matter. -/
theorem Spells.inParens {n : Bool} (h : Passes noNumber s ms) :
    Spells n anything ("(" ++ s ++ ")") (inParens true ms) :=
  (Spells.closed (t := .leftParen) (Symbol.closed_of_mem _ (by decide)) rfl).enclose h
    (Spells.closed (t := .rightParen) (Symbol.closed_of_mem _ (by decide)) rfl)
    (head?_of_all (by decide))

/-- A text that may stand in parentheses. -/
theorem Spells.parens (b : Bool) (h : Spells false noNumber s ms) (hb : b = false → Spells false stop s ms) :
    Spells false stop (parens b s) (Vernacular.inParens b ms) := by
  cases b with
  | true => exact (Spells.inParens h.passes).mono fun _ _ => rfl
  | false => exact hb rfl

/-! ## Lists -/

/-- Texts and their marks, one by one. -/
abbrev SpellAll : List String → List (List Mark) → Prop := List.Forall₂ (Spells false noNumber)

/-- Texts with commas and blanks between them, from the first one on. -/
theorem SpellAll.spells {ss : List String} {mss : List (List Mark)} (h : SpellAll ss mss) (hne : ss ≠ []) :
    Spells false noNumber (commaSeparated ss) (commaMarks mss) := by
  induction h with
  | nil => exact absurd rfl hne
  | @cons s ms ss mss hs hrest ih =>
    cases hrest with
    | nil =>
      rw [commaSeparated, String.intercalate_singleton]
      exact hs
    | @cons s' _ ss _ _ _ =>
      have hcomma : Spells false anything "," [.symbol .comma] :=
        .closed (t := .comma) (Symbol.closed_of_mem _ (by decide)) rfl
      have hcode : commaSeparated (s :: s' :: ss) = s ++ ("," ++ " " ++ commaSeparated (s' :: ss)) := by
        rw [commaSeparated, String.intercalate_cons_cons, String.append_assoc]
        rfl
      rw [hcode]
      exact hs.append (hcomma.spaced (ih (List.cons_ne_nil _ _)) rfl) (stops_append (w := "," ++ " ") _ rfl)

/-- Texts with commas between them, of which there may be none. -/
theorem SpellAll.passes {ss : List String} {mss : List (List Mark)} (h : SpellAll ss mss) :
    Passes noNumber (commaSeparated ss) (commaMarks mss) := by
  cases h with
  | nil => exact .empty
  | cons hs hrest => exact (SpellAll.spells (.cons hs hrest) (List.cons_ne_nil _ _)).passes

/-! ## Operators -/

/-- Every operator may stand between two operands, with its own text. -/
theorem BinaryOp.between (op : BinaryOp) : Between op.mark ∧ op.mark.text = op.text := by
  cases op with
  | instanceOf => exact ⟨Between.word rfl, rfl⟩
  | _ => exact ⟨Between.symbol _ rfl, rfl⟩

theorem AssignOp.between (op : AssignOp) : Between (.symbol op.symbol) ∧ op.symbol.text = op.text := by
  cases op <;> exact ⟨Between.symbol _ rfl, rfl⟩

theorem UpdateOp.spells (op : UpdateOp) : Spells false anything op.text [.symbol op.symbol] := by
  cases op with
  | increment => exact .closed (t := .increment) (Symbol.closed_of_mem _ (by decide)) rfl
  | decrement => exact .closed (t := .decrement) (Symbol.closed_of_mem _ (by decide)) rfl

/-- A sign in front of its operand; a blank keeps it from an equal sign at the beginning of the operand. -/
theorem Spells.signed {t : Symbol} (h : Spells false stop s ms) (hf : t.followers = [c, '='])
    (ht : t ≠ .dot ∧ t ≠ .slash)
    (hn : (Kind.symbol t).namesNext = false) (hb : t.text.toList.head?.any Vernacular.begins = true) (hc : c ≠ ' ') :
    Spells false stop (if s.toList.head? = some c then t.text ++ " " ++ s else t.text ++ s) (.symbol t :: ms) := by
  have hstops (d : Char) : t.stopsAt d = true ↔ d ≠ c ∧ d ≠ '=' := by
    simp [Symbol.stopsAt, hf, beq_eq_false_iff_ne.mpr ht.1, beq_eq_false_iff_ne.mpr ht.2]
  have hsign := Spells.symbol (n := false) t hn hb
  split
  · exact hsign.spaced h ((hstops ' ').mpr ⟨hc.symm, by decide⟩)
  · rename_i hs
    refine hsign.append h fun d hd => (hstops d).mpr ⟨fun hdc => hs (hdc ▸ hd), ?_⟩
    have hbegins := h.begins
    rw [Option.mem_def] at hd
    simp only [hd, Option.any_some, Vernacular.begins, Bool.and_eq_true, bne_iff_ne] at hbegins
    exact hbegins.2

/-- An operator in front of its operand. -/
theorem UnaryOp.spells (op : UnaryOp) (h : Spells false stop s ms) :
    Spells false stop (op.apply s) (op.mark :: ms) := by
  cases op with
  | typeOf => exact (Spells.word (s := "typeof") rfl).spaced h rfl
  | not =>
    refine (Spells.symbol (n := false) .bang rfl (by decide)).append h fun c hc => ?_
    have hbegins := h.begins
    rw [Option.mem_def] at hc
    simp only [hc, Option.any_some, begins, Bool.and_eq_true] at hbegins
    have hf : Symbol.bang.followers = ['=', '='] := rfl
    simpa [Symbol.stopsAt, hf] using hbegins.2
  | negate => exact h.signed (t := .minus) (c := '-') (by decide +kernel) (by decide) rfl (by decide) (by decide)
  | plus => exact h.signed (t := .plus) (c := '+') (by decide +kernel) (by decide) rfl (by decide) (by decide)

/-! ## Names and literals -/

/-- A lexeme of a kind of words is a word, and its kind is told by it. -/
theorem IsLexeme.isWordText (h : IsLexeme k s) (hk : k.isWord = true) : isWordText s.toList = true ∧ k = .ofWord s := by
  have hne : k ≠ .eof := by rintro rfl; cases hk
  rcases h.inv hne with hw | ⟨rfl, -⟩ | ⟨q, inside, hq, -⟩ | ⟨t, rfl⟩
  · exact hw
  · cases hk
  · rcases quoteKind?_inv hq with rfl | ⟨rfl, -⟩ <;> cases hk
  · cases hk

theorem isWordText_of_mem {ks : List Kind} (hks : ks.all Kind.isWord = true) (hk : k ∈ ks) (h : IsLexeme k s) :
    isWordText s.toList = true :=
  (h.isWordText (List.all_eq_true.mp hks k hk)).1

/-- A lexeme that is a number has the shape of one. -/
theorem IsLexeme.isNumber (h : IsLexeme .number s) : IsNumber s.toList := by
  rcases h.inv nofun with ⟨-, hw⟩ | ⟨-, hn⟩ | ⟨q, inside, hq, -⟩ | ⟨t, ht⟩
  · have := Kind.isWord_ofWord s
    rw [← hw] at this
    cases this
  · exact hn
  · rcases quoteKind?_inv hq with h | ⟨h, -⟩ <;> cases h
  · cases ht

/-- Whatever the lexicon of spelled words allows as a word is one. -/
theorem isWordText_of_spelled (h : Lexicon.spelled.word s) : isWordText s.toList = true := by
  obtain ⟨k, hk, hs⟩ := h
  exact (hs.isWordText hk).1

theorem isWordText_of_bound (h : Lexicon.spelled.bound s) : isWordText s.toList = true :=
  (IsLexeme.isWordText h rfl).1

/-- Words, or two words with a point between. -/
def isPathText (cs : List Char) : Bool :=
  isWordText (cs.takeWhile (· != '.'))
    && match cs.dropWhile (· != '.') with
      | [] => true
      | _ :: name => isWordText name

/-- A word has no points in it, so that a path of words can be taken apart at its points. -/
theorem ne_point_of_isWordText (h : isWordText cs = true) (hc : c ∈ cs) : (c != '.') = true := by
  simp only [isWordText, Bool.and_eq_true, List.all_eq_true] at h
  rw [bne_iff_ne]
  rintro rfl
  exact absurd (h.2 _ hc) (by decide)

/-- A word is a path. -/
theorem isPathText_of_isWordText (h : isWordText cs = true) : isPathText cs = true := by
  obtain ⟨htake, hdrop⟩ := takeWhile_append_stop (r := []) (fun c hc => ne_point_of_isWordText h hc) (by simp)
  rw [List.append_nil] at htake hdrop
  rw [isPathText, htake, hdrop, h]
  rfl

/-- What a table gives for a name, or the name itself. -/
theorem lookup_getD_of_all {table : List (String × String)} {P : String → Bool} (ht : (table.all fun e => P e.2) = true)
    (hs : P s = true) : P ((table.lookup s).getD s) = true := by
  cases hl : table.lookup s with
  | none => exact hs
  | some t =>
    obtain ⟨before, after, rfl, -⟩ := List.lookup_eq_some_iff.mp hl
    exact List.all_eq_true.mp ht (s, t) (by simp)

/-- What a name is replaced by is a path: the tables hold words and paths only. -/
theorem isPathText_identifierName (h : isWordText s.toList = true) : isPathText (identifierName s).toList = true :=
  lookup_getD_of_all (P := fun s => isPathText s.toList) (by decide +kernel) (isPathText_of_isWordText h)

/-- A renamed property is a word. -/
theorem isWordText_rename (role : Role) (h : isWordText s.toList = true) :
    isWordText (role.rename s).toList = true := by
  have hproperty : isWordText (propertyText s).toList = true :=
    lookup_getD_of_all (P := fun s => isWordText s.toList) (by decide +kernel) h
  cases role with
  | value => exact hproperty
  | callee =>
    have hmethod : isWordText ((methodTable.lookup s).getD s).toList = true :=
      lookup_getD_of_all (P := fun s => isWordText s.toList) (by decide +kernel) h
    simp only [Role.rename, methodText]
    cases hl : methodTable.lookup s with
    | none => exact hproperty
    | some t =>
      rw [hl] at hmethod
      exact hmethod

theorem ne_point_of_head? (h : isWordText cs = true) (hc : c ∈ cs.head?) : c ≠ '.' ∧ c.isDigit = false := by
  simp only [isWordText, Bool.and_eq_true] at h
  have hletter : isLetter c = true := by
    have := h.1
    rw [Option.mem_def] at hc
    rwa [hc] at this
  refine ⟨?_, Bool.eq_false_iff.mpr fun hd => ?_⟩
  · rintro rfl
    exact absurd hletter (by decide)
  · have hstarts : startsProperty [c] = false := startsProperty_of_isDigit hd
    simp [startsProperty, hletter] at hstarts

/-- A point and what it announces. -/
theorem Spells.pointed (h : Spells true stop s ms) (hs : ∀ c ∈ s.toList.head?, c ≠ '.' ∧ c.isDigit = false) :
    Spells named stop ("." ++ s) (.symbol .dot :: ms) := by
  refine h.announced (t := .dot) rfl (by decide) fun c hc => ?_
  have hf : Symbol.dot.followers = ['.'] := rfl
  simp [Symbol.stopsAt, hf, hs c hc]

/-- A path is spelled as words with points between them, each but the first one a plain name. -/
theorem Spells.path (h : isPathText s.toList = true) : Spells false noWord s (pathMarks s) := by
  simp only [isPathText, Bool.and_eq_true] at h
  obtain ⟨hfirst, hrest⟩ := h
  have hjoin := List.takeWhile_append_dropWhile (p := (· != '.')) (l := s.toList)
  unfold pathMarks
  cases hdrop : s.toList.dropWhile (· != '.') with
  | nil =>
    rw [hdrop, List.append_nil] at hjoin
    rw [hjoin] at hfirst
    exact .word hfirst
  | cons c name =>
    rw [hdrop] at hrest hjoin
    obtain rfl : c = '.' := by
      have := List.head?_dropWhile_not (· != '.') s.toList
      rw [hdrop] at this
      simpa using this
    have hname := Spells.name (s := String.ofList name) (by rw [String.toList_ofList]; exact hrest)
    have hcode : s = String.ofList (s.toList.takeWhile (· != '.')) ++ ("." ++ String.ofList name) := by
      refine String.toList_inj.mp ?_
      simp only [String.toList_append, String.toList_ofList]
      exact hjoin.symm
    have hpointed : Spells false noWord ("." ++ String.ofList name) [.symbol .dot, .name (String.ofList name)] :=
      hname.pointed fun c hc => by
        rw [String.toList_ofList] at hc
        exact ne_point_of_head? hrest hc
    have hword := Spells.word (s := String.ofList (s.toList.takeWhile (· != '.')))
      (by rw [String.toList_ofList]; exact hfirst)
    have hboth := hword.append hpointed (stops_append (w := ".") _ rfl)
    rwa [← hcode] at hboth

/-- A name behind the point. -/
theorem PropertyName.spells_used (role : Role) {name : PropertyName} (h : name.Sound .spelled) :
    Spells true noWord (name.used role.rename) (name.usedMarks role.rename) := by
  cases name with
  | plain s => exact .name (isWordText_rename role (isWordText_of_spelled h))
  | hashed s =>
    exact (Spells.name (isWordText_of_spelled h)).announcedBy (t := .hash) (Symbol.closed_of_mem _ (by decide)) rfl

/-- The name of a member where it is declared. -/
theorem PropertyName.spells_declared {name : PropertyName} (h : name.Sound .spelled) :
    Spells false noWord name.declared name.declaredMarks := by
  cases name with
  | plain s => exact .word (isWordText_of_spelled h)
  | hashed s =>
    exact (Spells.name (isWordText_of_spelled h)).announcedBy (t := .hash) (Symbol.closed_of_mem _ (by decide)) rfl

/-- A literal has one mark. Only a number must not be followed by a point. -/
theorem Literal.spells {value : Literal} (h : value.Sound .spelled) :
    Spells false noNumber value.text [value.mark] ∧
      ((∀ s, value ≠ .number s) → Spells false noWord value.text [value.mark]) := by
  have hword {w : String} (hw : isWordText w.toList = true) : Spells false noNumber w [.word w] ∧
      ((∀ s, value ≠ .number s) → Spells false noWord w [.word w]) :=
    ⟨(Spells.word hw).mono fun _ => noWord_of_noNumber, fun _ => .word hw⟩
  cases value with
  | number s => exact ⟨.number (IsLexeme.isNumber h), fun hs => absurd rfl (hs s)⟩
  | string s q =>
    have hq := Spells.quoted (n := false) h (.inl rfl)
    exact ⟨hq.mono fun _ _ => rfl, fun _ => hq.mono fun _ _ => rfl⟩
  | template s =>
    have hq := Spells.quoted (n := false) h (.inr rfl)
    exact ⟨hq.mono fun _ _ => rfl, fun _ => hq.mono fun _ _ => rfl⟩
  | boolean b =>
    cases b with
    | true => exact hword rfl
    | false => exact hword rfl
  | null => exact hword rfl

/-- The key of a property has one mark. -/
theorem ObjectKey.spells {key : ObjectKey} (h : key.Sound .spelled) : Spells false noNumber key.text [key.mark] := by
  cases key with
  | name s => exact (Spells.word (isWordText_of_spelled h)).mono fun _ => noWord_of_noNumber
  | string s q => exact (Spells.quoted h (.inl rfl)).mono fun _ _ => rfl
  | number s => exact .number (IsLexeme.isNumber h)

/-- What may be skipped: a mark before it says so. -/
theorem Spells.optional (b : Bool) (h : ∀ named, Spells named stop s ms) :
    Spells false stop ((if b then "?." else "") ++ s) ((if b then [Mark.symbol .optionalChain] else []) ++ ms) := by
  cases b with
  | true => exact (h true).announcedBy (t := .optionalChain) (Symbol.closed_of_mem _ (by decide)) rfl
  | false => exact h false

/-- A text in brackets. -/
theorem Spells.inBrackets {n : Bool} (h : Passes noNumber s ms) :
    Spells n anything ("[" ++ s ++ "]") (.symbol .leftBracket :: ms ++ [.symbol .rightBracket]) :=
  (Spells.closed (t := .leftBracket) (Symbol.closed_of_mem _ (by decide)) rfl).enclose h
    (Spells.closed (t := .rightBracket) (Symbol.closed_of_mem _ (by decide)) rfl) (head?_of_all (by decide))

/-- A text in braces. -/
theorem Spells.inBraces {n : Bool} (h : Passes noNumber s ms) :
    Spells n anything (r"{" ++ s ++ r"}") (Vernacular.inBraces ms) :=
  (Spells.closed (t := .leftBrace) (Symbol.closed_of_mem _ (by decide)) rfl).enclose h
    (Spells.closed (t := .rightBrace) (Symbol.closed_of_mem _ (by decide)) rfl) (head?_of_all (by decide))

/-! ## Marks on the line of the one before -/

/-- The first mark may be required to stand on the line of the one before it if it does. -/
theorem Scans.tighten {s : Spot} (h : Scans ⟨named, false, cs⟩ ms s) (hcs : cs.head?.any begins = true) :
    Scans ⟨named, false, cs⟩ (Vernacular.tighten ms) s := by
  cases h with
  | done => exact .done
  | blank hc => simp [begins, hc] at hcs
  | @mark _ _ m _ ms _ hm hk _ h => exact Scans.mark (m := { m with tight := true }) hm hk (fun _ => rfl) h

/-- A text right behind another. -/
theorem Spells.append_tight {stop' : Char → Bool} {s' : String} {ms' : List Mark} (h : Spells named stop s ms)
    (h' : Spells false stop' s' ms') (hstop : ∀ c ∈ s'.toList.head?, stop c = true) :
    Spells named stop' (s ++ s') (ms ++ tighten ms') := by
  refine ⟨(h.append h' hstop).begins, fun broken cs hcs => ?_⟩
  rw [String.toList_append, List.append_assoc]
  refine (h.scans broken _ ?_).trans (Scans.tighten (h'.scans false cs hcs) ?_)
  · rwa [head?_append_of_any h'.begins]
  · rw [head?_append_of_any h'.begins]
    exact h'.begins

/-- A text behind another with a blank between. -/
theorem Spells.spaced_tight {stop' : Char → Bool} {s' : String} {ms' : List Mark} (h : Spells named stop s ms)
    (h' : Spells false stop' s' ms') (hstop : stop ' ' = true) :
    Spells named stop' (s ++ " " ++ s') (ms ++ tighten ms') := by
  refine ⟨(h.spaced h' hstop).begins, fun broken cs hcs => ?_⟩
  simp only [String.toList_append, List.append_assoc]
  have htight : (s'.toList ++ cs).head?.any Vernacular.begins = true := by
    rw [head?_append_of_any h'.begins]
    exact h'.begins
  exact (h.scans broken _ (by simpa using hstop)).trans (.blank rfl (Scans.tighten (h'.scans _ cs hcs) htight))

/-! ## Lines and braces -/

/-- The indentation is made of blanks. -/
def Margin.Blank (margin : Margin) : Prop := ∀ c ∈ margin.unit.toList, isBlank c = true

/-- An indentation made of blanks is one, however deep. -/
theorem Margin.Blank.text {margin : Margin} (h : margin.Blank) : ∀ c ∈ margin.text.toList, isBlank c = true := by
  obtain ⟨unit, level⟩ := margin
  have hfold (n : Nat) (s : String) (hs : ∀ c ∈ s.toList, isBlank c = true) :
      ∀ c ∈ ((List.replicate n unit).foldl (· ++ ·) s).toList, isBlank c = true := by
    induction n generalizing s with
    | zero => exact hs
    | succ n ih =>
      refine ih _ fun c hc => ?_
      rw [String.toList_append, List.mem_append] at hc
      exact hc.elim (hs c) (h c)
  exact hfold level "" (by simp)

/-- A text on a line of its own. -/
theorem Spells.line {margin : Margin} (hm : margin.Blank) (h : Spells false anything s ms) :
    Passes anything (margin.line s) ms := by
  have hline := ((Passes.blanks hm.text).append' h.passes).append'
    (Passes.blanks (g := "\n") (List.all_eq_true.mp (by decide)))
  rwa [List.append_nil] at hline

/-- Nothing has no marks. -/
theorem Passes.eq_nil (h : Passes stop "" ms) : ms = [] := by
  obtain ⟨broken, hscan⟩ := h false [] (by simp)
  generalize hs : (⟨false, false, "".toList ++ []⟩ : Spot) = s at hscan
  cases hscan with
  | done => rfl
  | blank => cases hs
  | @mark _ _ m cs _ _ hm hk =>
    have hrest : m.text.toList ++ cs = [] := (congrArg Spot.rest hs).symm
    have hread := hm.read
    rw [hrest] at hread
    exact absurd (Except.ok.inj (congrArg Lexeme.kind hread)) hk.symm

/-- Lines in braces. -/
theorem Passes.braced {margin : Margin} (hm : margin.Blank) {lines : String} (h : Passes anything lines ms) :
    Spells named anything (braced margin lines) (inBraces ms) := by
  unfold Vernacular.braced
  split
  · rename_i hlines
    subst hlines
    rw [h.eq_nil]
    exact Spells.inBraces .empty
  · have hlines : Passes anything ("\n" ++ lines ++ margin.text) ms := by
      have := ((Passes.blanks (g := "\n") (List.all_eq_true.mp (by decide))).append' h).append' (Passes.blanks hm.text)
      rwa [List.nil_append, List.append_nil] at this
    have hcode : r"{" ++ "\n" ++ lines ++ margin.text ++ r"}" = r"{" ++ ("\n" ++ lines ++ margin.text) ++ r"}" :=
      String.toList_inj.mp (by simp)
    rw [hcode]
    exact Spells.inBraces (hlines.mono fun _ _ => rfl)

/-! ## Lines that look like blocks or functions -/

/-- A word that was read is not followed by more of it. -/
theorem LexemeAt.head?_isWordChar {rest : List Char} (h : LexemeAt false k cs rest) (hcs : isWordText cs = true) :
    ∀ c ∈ rest.head?, isWordChar c = false := by
  intro c hc
  refine Bool.eq_false_iff.mpr fun hword => ?_
  -- the word goes on as far as it can
  have hlong : isWordText (cs ++ rest.takeWhile isWordChar) = true := by
    simp only [isWordText, Bool.and_eq_true, List.all_append] at hcs ⊢
    refine ⟨by rw [head?_append_of_any hcs.1]; exact hcs.1, hcs.2, List.all_takeWhile⟩
  have hread := Lexeme.read_word false hlong (r := rest.dropWhile isWordChar) fun d hd => by
    have := List.head?_dropWhile_not isWordChar rest
    rw [Option.mem_def.mp hd] at this
    simpa using this
  rw [List.append_assoc, List.takeWhile_append_dropWhile, h.read] at hread
  have htake : rest.takeWhile isWordChar = [] := by simpa using congrArg Lexeme.taken hread
  cases rest with
  | nil => cases hc
  | cons d rest =>
    obtain rfl : d = c := by simpa using hc
    simp [hword] at htake

/-- Whether a line would be taken for a block or a function shows in its marks as well as in its text. -/
theorem startsAmbiguously_eq (h : Spells false stop s ms) : startsAmbiguously s = opensAmbiguously ms := by
  have hscan := h.scans true [] (by simp)
  rw [List.append_nil] at hscan
  have hbegins := h.begins
  have hfunction : isWordText "function".toList = true := rfl
  generalize hcs : s.toList = cs at hscan hbegins
  cases hscan with
  | blank hc => simp [begins, hc] at hbegins
  | @mark _ _ m cs ms _ hm hk _ hrest =>
    have hread := hm.read
    rw [Bool.eq_iff_iff]
    simp only [startsAmbiguously, opensAmbiguously, Bool.or_eq_true, Bool.and_eq_true, beq_iff_eq, hcs,
      Bool.not_eq_true', Option.any_eq_false, Bool.or_eq_false_iff, beq_eq_false_iff_ne]
    constructor
    · rintro (hbrace | ⟨hword, hnext⟩)
      · left
        obtain ⟨rest, hrest⟩ := List.head?_eq_some_iff.mp hbrace
        have hsymbol := Lexeme.read_symbol (n := false) (s := .leftBrace) (r := rest) fun c _ =>
          Symbol.stopsAt_of_closed (Symbol.closed_of_mem _ (by decide)) c
        rw [hrest] at hread
        exact String.toList_inj.mp (congrArg Lexeme.taken (hread.symm.trans hsymbol))
      · right
        obtain ⟨rest, hrest⟩ := List.isPrefixOf_iff_prefix.mp hword
        rw [← hrest] at hread hnext
        rw [Lexeme.read_word false hfunction] at hread
        · exact String.toList_inj.mp (congrArg Lexeme.taken hread).symm
        · intro c hc
          rw [List.drop_left] at hnext
          simp [isWordChar, hnext c hc]
    · rintro (hbrace | hword)
      · left
        rw [hbrace]
        rfl
      · right
        rw [hword] at hm ⊢
        refine ⟨by simp, fun c hc => ?_⟩
        rw [List.drop_left] at hc
        have hnext := hm.head?_isWordChar hfunction c hc
        simp only [isWordChar, Bool.or_eq_false_iff, beq_eq_false_iff_ne] at hnext
        -- a dollar sign begins no lexeme
        refine ⟨hnext, fun hdollar => ?_⟩
        subst hdollar
        exact hrest.head?_ne rfl rfl (fun _ _ => rfl) hc

/-! ## Callables and members -/

section Callable

variable {margin : Margin} {params : List String} {pss : List (List Mark)} {lines : String} {bs : List Mark}

/-- Parameters and body. -/
theorem spells_callable (hm : margin.Blank) (hp : SpellAll params pss) (hb : Passes anything lines bs) :
    Spells false anything (callableCode margin "" params lines) (callableMarks pss bs) := by
  have hcode : callableCode margin "" params lines = "(" ++ commaSeparated params ++ ")" ++ " " ++
      braced margin lines :=
    String.toList_inj.mp (by simp [callableCode])
  rw [hcode]
  exact (Spells.inParens hp.passes).spaced (hb.braced hm) rfl

/-- A callable's code begins with its header. -/
theorem callableCode_eq (margin : Margin) (header : String) (params : List String) (lines : String) :
    callableCode margin header params lines = header ++ callableCode margin "" params lines :=
  String.toList_inj.mp (by simp [callableCode])

/-- Behind the header of a callable there is a parenthesis. -/
theorem head?_callableCode : ∀ c ∈ (callableCode margin "" params lines).toList.head?, noWord c = true := by
  intro c hc
  obtain rfl : '(' = c := by simpa [callableCode] using hc
  rfl

/-- A function with or without a name. -/
theorem spells_function (hm : margin.Blank) {name : Option Ident} (hname : ∀ id ∈ name, Lexicon.spelled.bound id.name)
    (hp : SpellAll params pss) (hb : Passes anything lines bs) :
    Spells false anything (callableCode margin ("function " ++ (name.map Ident.name).getD "") params lines)
      (.word "function" :: (name.map fun id => Mark.word id.name).toList ++ callableMarks pss bs) := by
  have hfunction : Spells false noWord "function" [.word "function"] := .word rfl
  have hrest := spells_callable hm hp hb
  rw [callableCode_eq]
  cases name with
  | none => exact hfunction.spaced hrest rfl
  | some id =>
    have hid := (Spells.word (isWordText_of_bound (hname id rfl))).append hrest head?_callableCode
    have hcode : "function " ++ id.name ++ callableCode margin "" params lines
        = "function" ++ " " ++ (id.name ++ callableCode margin "" params lines) := String.toList_inj.mp (by simp)
    simp only [Option.map_some, Option.getD_some, hcode]
    exact hfunction.spaced hid rfl

/-- What may stand before the name of a member. -/
theorem Modifiers.spells (m : Modifiers) (h : Spells false stop s ms) :
    Spells false stop (m.text ++ s) (m.marks ++ ms) := by
  unfold Modifiers.text Modifiers.marks
  cases m.isStatic with
  | true => exact (Spells.word (s := "static") rfl).spaced h rfl
  | false => exact h

/-- The word for an accessor in front of its name. -/
theorem MethodKind.spells (kind : MethodKind) (h : Spells false stop s ms) :
    Spells false stop (kind.text ++ s) (kind.marks ++ ms) := by
  cases kind with
  | getter => exact (Spells.word (s := "get") rfl).spaced h rfl
  | setter => exact (Spells.word (s := "set") rfl).spaced h rfl
  | constructor => exact h
  | ordinary => exact h

theorem PropertyName.Shown.sound {name : PropertyName} (h : name.Shown .spelled) : name.Sound .spelled := by
  rcases h with rfl | h
  · exact ⟨_, rfl, isLexeme_word (s := "constructor") rfl⟩
  · exact h

/-- A method with its modifiers, in the body of a class. -/
theorem spells_method (hm : margin.Blank) (modifiers : Modifiers) (kind : MethodKind) {name : PropertyName}
    (hname : name.Sound .spelled) (hp : SpellAll params pss) (hb : Passes anything lines bs) :
    Spells false anything (callableCode margin (modifiers.text ++ kind.text ++ name.declared) params lines)
      (modifiers.marks ++ kind.marks ++ name.declaredMarks ++ callableMarks pss bs) := by
  rw [callableCode_eq]
  have hrest := (PropertyName.spells_declared hname).append (spells_callable hm hp hb) head?_callableCode
  have h := modifiers.spells (kind.spells hrest)
  simpa only [String.append_assoc, List.append_assoc] using h

end Callable

end Vernacular
