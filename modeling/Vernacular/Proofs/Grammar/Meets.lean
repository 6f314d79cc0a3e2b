import Mathlib.Data.List.Forall2
import Vernacular.Grammar.Program
import Vernacular.Proofs.Token.Mark

/-!
# Reading from marks

`Parser.Meets p c Q` says that `p`, from the cursor `c`, either finds the nesting too deep or succeeds with `Q`. So
depth never has to be counted: too deep is one of the answers, and it is handed on by every reader.

What a reader does is known from the marks that the tokens ahead fit (`Cursor.Fits`). `Reads p ms F R` says that `p`
reads the marks `ms` to a result with `R`, whatever comes next, if only its kind has `F`.

- one rule for every reader of single tokens;
- `Meets.steps`: a loop that reads one item after another.
-/

namespace Vernacular

variable {α β : Type}
variable {context : Context} {k : Kind} {item : Parser (Option α)}

/-- The kind that comes first. -/
def kindOf : List Mark → Kind
  | [] => .eof
  | m :: _ => m.kind

theorem kindOf_append {ms : List Mark} (h : ms ≠ []) (more : List Mark) : kindOf (ms ++ more) = kindOf ms := by
  cases ms with
  | nil => exact absurd rfl h
  | cons => rfl

/-- The tokens ahead fit the marks. -/
def Cursor.Fits (c : Cursor) (ms : List Mark) : Prop := Vernacular.Fits c.previous c.rest ms

namespace Cursor.Fits

variable {c : Cursor} {m : Mark} {ms : List Mark}

/-- A mark stands for a token. -/
theorem exists_cons (h : c.Fits (m :: ms)) : ∃ t ts, c.rest = t :: ts ∧ (t.kind = m.kind ∧ t.text = m.text ∧
    (m.tight = true → ∃ p ∈ c.previous, p.stop.line = t.start.line)) ∧ Cursor.Fits ⟨some t, ts⟩ ms := by
  obtain ⟨previous, rest⟩ := c
  cases rest with
  | nil => exact h.elim
  | cons t ts => exact ⟨t, ts, rfl, h⟩

/-- The next kind is that of the first mark, or the end. -/
theorem kind (h : c.Fits ms) : c.peek.kind = kindOf ms := by
  obtain ⟨previous, rest⟩ := c
  cases ms with
  | nil =>
    cases rest with
    | nil => rfl
    | cons => exact h.elim
  | cons m ms =>
    obtain ⟨t, ts, hrest, hm, -⟩ := h.exists_cons
    simp only at hrest
    subst hrest
    exact hm.1

/-- There are as many tokens as marks. -/
theorem length (h : c.Fits ms) : c.rest.length = ms.length := by
  obtain ⟨previous, rest⟩ := c
  induction ms generalizing previous rest with
  | nil =>
    cases rest with
    | nil => rfl
    | cons => exact h.elim
  | cons m ms ih =>
    cases rest with
    | nil => exact h.elim
    | cons t ts => exact congrArg (· + 1) (ih (some t) ts h.2)

end Cursor.Fits

namespace Parser

theorem kind_bind (f : Kind → Parser α) (c : Cursor) : (kind >>= f) c = f c.peek.kind c := rfl

/-- From `c`, the nesting is too deep or the reader succeeds with `Q`. -/
def Meets (p : Parser α) (c : Cursor) (Q : α → Cursor → Prop) : Prop :=
  match p c with
  | .ok a c' => Q a c'
  | .error e _ => ∃ pos ctx, e = .tooDeep pos ctx

namespace Meets

variable {p : Parser α} {f : α → Parser β} {c : Cursor} {Q R : α → Cursor → Prop}

/-! ## Combining -/

protected theorem pure {a : α} (h : Q a c) : Meets (pure a) c Q := h

/-- One reader after another. -/
protected theorem bind {Q : β → Cursor → Prop} (h : Meets p c fun a c' => Meets (f a) c' Q) : Meets (p >>= f) c Q := by
  simp only [Meets, Bind.bind, EStateM.bind] at h ⊢
  split at h
  · rename_i hp
    simp only [hp]
    exact h
  · rename_i hp
    simp only [hp]
    exact h

/-- The kind of the next token. -/
theorem kindAhead {f : Kind → Parser β} {Q : β → Cursor → Prop} (h : Meets (f c.peek.kind) c Q) :
    Meets (Parser.kind >>= f) c Q := h

/-- What follows from what is known of the results. -/
theorem mono (h : Meets p c Q) (hq : ∀ a c', Q a c' → R a c') : Meets p c R := by
  unfold Meets at h ⊢
  split
  · rename_i hp
    simp only [hp] at h
    exact hq _ _ h
  · rename_i hp
    simp only [hp] at h
    exact h

theorem ite_pos {b : Prop} [Decidable b] {q : Parser α} (hb : b) (h : Meets p c Q) :
    Meets (if b then p else q) c Q := by
  rwa [if_pos hb]

theorem ite_neg {b : Prop} [Decidable b] {q : Parser α} (hb : ¬b) (h : Meets q c Q) :
    Meets (if b then p else q) c Q := by
  rwa [if_neg hb]

/-- Nesting that is too deep is not held against a reader. -/
theorem tooDeep : Meets (Grammar.tooDeep context) c Q := ⟨_, _, rfl⟩

/-- A reader that meets a condition finds the nesting too deep or gives a result. -/
protected theorem cases (h : Meets p c Q) :
    (∃ pos context c', p c = .error (.tooDeep pos context) c') ∨ ∃ a c', p c = .ok a c' ∧ Q a c' := by
  unfold Meets at h
  cases hp : p c with
  | ok a c' =>
    rw [hp] at h
    exact .inr ⟨a, c', rfl, h⟩
  | error e c' =>
    rw [hp] at h
    obtain ⟨pos, context, rfl⟩ := h
    exact .inl ⟨pos, context, c', rfl⟩

end Meets

/-! ## Looking -/

namespace Meets

variable {c : Cursor} {m : Mark} {ms : List Mark}

protected theorem get {Q : Cursor → Cursor → Prop} (h : Q c c) : Meets get c Q := h

protected theorem position {Q : Position → Cursor → Prop} (h : ∀ p, Q p c) : Meets position c Q := h _

protected theorem spanFrom {Q : Span → Cursor → Prop} {start : Position} (h : ∀ s, Q s c) :
    Meets (spanFrom start) c Q := h _

/-- What is looked at has the kind and the text of the mark. -/
protected theorem peek {Q : Token → Cursor → Prop} (hc : c.Fits (m :: ms))
    (h : ∀ t : Token, t.kind = m.kind → t.text = m.text → Q t c) : Meets peek c Q := by
  obtain ⟨t, ts, hrest, hm, -⟩ := hc.exists_cons
  refine h _ ?_ ?_
  · rw [Cursor.peek, hrest]
    exact hm.1
  · rw [Cursor.peek, hrest]
    exact hm.2.1

/-- The kind that is looked at is that of the first mark. -/
protected theorem kind {Q : Kind → Cursor → Prop} (hc : c.Fits ms) (h : Q (kindOf ms) c) : Meets kind c Q := by
  rw [← hc.kind] at h
  exact h

protected theorem check {Q : Bool → Cursor → Prop} (hc : c.Fits ms) (h : Q (kindOf ms == k) c) :
    Meets (check k) c Q := by
  rw [← hc.kind] at h
  exact h

theorem check_true {Q : Bool → Cursor → Prop} (hc : c.Fits ms) (hk : kindOf ms = k) (h : Q true c) :
    Meets (Parser.check k) c Q :=
  Meets.check hc (by rwa [beq_iff_eq.mpr hk])

theorem check_false {Q : Bool → Cursor → Prop} (hc : c.Fits ms) (hk : kindOf ms ≠ k) (h : Q false c) :
    Meets (Parser.check k) c Q :=
  Meets.check hc (by rwa [beq_eq_false_iff_ne.mpr hk])

/-- A mark on the line of the one before is on no new line. -/
protected theorem onNewLine {Q : Bool → Cursor → Prop} (hc : c.Fits (m :: ms)) (hm : m.tight = true) (h : Q false c) :
    Meets onNewLine c Q := by
  obtain ⟨t, ts, hrest, hfit, -⟩ := hc.exists_cons
  obtain ⟨p, hp, hline⟩ := hfit.2.2 hm
  have hsame : c.onNewLine = false := by
    simp [Cursor.onNewLine, Option.mem_def.mp hp, Cursor.peek, hrest, hline]
  rw [← hsame] at h
  exact h

/-- Where it does not matter whether a line has ended. -/
theorem onNewLine_or {Q : Bool → Cursor → Prop} (h : ∀ b, Q b c) : Meets Parser.onNewLine c Q := h _

/-! ## Moving -/

/-- A token is read on with its mark. -/
protected theorem advance {Q : Token → Cursor → Prop} (hc : c.Fits (m :: ms))
    (h : ∀ (t : Token) (c' : Cursor), t.kind = m.kind → t.text = m.text → c'.Fits ms → Q t c') : Meets advance c Q := by
  obtain ⟨previous, rest⟩ := c
  obtain ⟨t, ts, hrest, hm, hrest'⟩ := hc.exists_cons
  simp only at hrest
  subst hrest
  exact h t _ hm.1 hm.2.1 hrest'

/-- A token that may be there and is. -/
theorem accept_true {Q : Bool → Cursor → Prop} (hc : c.Fits (m :: ms)) (hk : m.kind = k)
    (h : ∀ c' : Cursor, c'.Fits ms → Q true c') : Meets (accept k) c Q := by
  refine .bind (.check_true hc hk (.ite_pos rfl ?_))
  exact .bind (.advance hc fun _ c' _ _ hc' => .pure (h c' hc'))

/-- A token that may be there and is not. -/
theorem accept_false {Q : Bool → Cursor → Prop} (hc : c.Fits ms) (hk : kindOf ms ≠ k) (h : Q false c) :
    Meets (accept k) c Q :=
  Meets.bind (.check_false hc hk (.ite_neg Bool.false_ne_true (.pure h)))

/-- A token that has to be there and is. -/
protected theorem expect {Q : Token → Cursor → Prop} {allowed : List Kind} (hc : c.Fits (m :: ms))
    (hm : m.kind ∈ allowed) (h : ∀ (t : Token) (c' : Cursor), t.kind = m.kind → t.text = m.text → c'.Fits ms → Q t c') :
    Meets (expect allowed context) c Q :=
  Meets.bind (.kind hc (.ite_pos (List.contains_iff_mem.mpr hm) (.advance hc h)))

protected theorem expectSymbol {Q : Token → Cursor → Prop} {s : Symbol} (hc : c.Fits (.symbol s :: ms))
    (h : ∀ (t : Token) (c' : Cursor), c'.Fits ms → Q t c') :
    Meets (expectSymbol s context) c Q :=
  Meets.expect hc (by simp [Mark.symbol]) fun t c' _ _ => h t c'

/-- A name that has to be there and is. -/
protected theorem identifier {Q : Ident → Cursor → Prop} (hc : c.Fits (m :: ms)) (hm : m.kind = .identifier)
    (h : ∀ (id : Ident) (c' : Cursor), id.name = m.text → c'.Fits ms → Q id c') :
    Meets (identifier context) c Q :=
  Meets.bind (.expect hc (by simp [hm]) fun _ c' _ ht hc' => .pure (h _ c' ht hc'))

protected theorem propertyWord {Q : Token → Cursor → Prop} (hc : c.Fits (m :: ms)) (hm : m.kind.isWord = true)
    (h : ∀ (t : Token) (c' : Cursor), t.text = m.text → c'.Fits ms → Q t c') :
    Meets (propertyWord context) c Q :=
  Meets.bind (.kind hc (.ite_pos hm (.advance hc fun t c' _ => h t c')))

/-! ## Repetition -/

/-- A loop ends where there is no item. -/
theorem manyWithin_none {budget : List Token} {Q : List α → Cursor → Prop}
    (h : Meets item c fun o c' => o = none ∧ Q [] c') : Meets (manyWithin item budget) c Q := by
  cases budget with
  | nil =>
    refine .bind (h.mono fun o c' ho => ?_)
    rw [ho.1]
    exact .pure ho.2
  | cons t budget =>
    refine .bind (h.mono fun o c' ho => ?_)
    rw [ho.1]
    exact .pure ho.2

/-- A loop goes on behind an item, if its budget is not used up. -/
theorem manyWithin_some {t : Token} {budget : List Token} {Q : List α → Cursor → Prop}
    (h : Meets item c fun o c' => ∃ a, o = some a ∧ Meets (manyWithin item budget) c' fun as c'' => Q (a :: as) c'') :
    Meets (manyWithin item (t :: budget)) c Q := by
  refine .bind (h.mono fun o c' ho => ?_)
  obtain ⟨a, rfl, hrest⟩ := ho
  exact .bind (hrest.mono fun as c'' h => .pure h)

/-- Repetition is given a round for each token that is left. -/
protected theorem many {Q : List α → Cursor → Prop} (h : Meets (manyWithin item c.rest) c Q) :
    Meets (many item) c Q := h

/-- A repetition without items. -/
theorem many_none {Q : List α → Cursor → Prop} (h : Meets item c fun o c' => o = none ∧ Q [] c') :
    Meets (many item) c Q :=
  Meets.many (manyWithin_none h)

/-- There are no semicolons to skip. -/
theorem skipSemicolons {Q : Unit → Cursor → Prop} (hc : c.Fits ms) (hk : kindOf ms ≠ .symbol .semicolon) (h : Q () c) :
    Meets skipSemicolons c Q := by
  refine .bind (.many_none ?_)
  exact .bind (.accept_false hc hk (.ite_neg Bool.false_ne_true (.pure ⟨rfl, .pure h⟩)))

theorem optionalType_none {Q : Option Ident → Cursor → Prop} (hc : c.Fits ms) (hk : kindOf ms ≠ .symbol .colon)
    (h : Q none c) : Meets optionalType c Q :=
  Meets.bind (.accept_false hc hk (.ite_neg Bool.false_ne_true (.pure h)))

end Meets

/-! ## Reading marks -/

/-- The reader reads the marks to a result with `R`, if what comes next is of a kind with `F`. -/
def Reads (p : Parser α) (ms : List Mark) (F : Kind → Prop) (R : α → Prop) : Prop :=
  ∀ (c : Cursor) (more : List Mark), c.Fits (ms ++ more) → F (kindOf more) → Meets p c fun a c' => R a ∧ c'.Fits more

/-- What is read by its marks is read, whatever comes next, if only that has the right kind. -/
theorem Reads.meets {p : Parser α} {ms more : List Mark} {F : Kind → Prop} {R : α → Prop} {c : Cursor}
    {Q : α → Cursor → Prop} (h : Reads p ms F R) (hc : c.Fits (ms ++ more)) (hf : F (kindOf more))
    (hq : ∀ (a : α) (c' : Cursor), R a → c'.Fits more → Q a c') : Meets p c Q :=
  (h c more hc hf).mono fun a c' ha => hq a c' ha.1 ha.2

/-- The reader of one round reads one stretch of marks after the other; results are compared by what `view` shows. -/
abbrev Steps (step : Parser (Option α)) (F : Kind → Prop) (view : α → β) : List (List Mark) → List β → Prop :=
  List.Forall₂ fun ms b => Reads step ms F (fun o => ∃ a, o = some a ∧ view a = b) ∧ ms ≠ [] ∧ F (kindOf ms)

/-- A loop reads all stretches. -/
theorem Meets.steps {step : Parser (Option α)} {F : Kind → Prop} {view : α → β} {more : List Mark}
    (hend : ∀ c : Cursor, c.Fits more → Meets step c fun o c' => o = none ∧ c'.Fits more) (hf : F (kindOf more))
    {mss : List (List Mark)} {bs : List β} (h : Steps step F view mss bs) {c : Cursor} {budget : List Token}
    (hc : c.Fits (mss.flatten ++ more)) (hb : mss.flatten.length ≤ budget.length) {Q : List α → Cursor → Prop}
    (hq : ∀ (as : List α) (c' : Cursor), as.map view = bs → c'.Fits more → Q as c') :
    Meets (manyWithin step budget) c Q := by
  induction h generalizing c budget Q with
  | nil => exact manyWithin_none ((hend c hc).mono fun o c' ho => ⟨ho.1, hq [] c' rfl ho.2⟩)
  | @cons ms b mss bs hfirst hrest ih =>
    obtain ⟨hread, hne, -⟩ := hfirst
    rw [List.flatten_cons, List.append_assoc] at hc
    rw [List.flatten_cons, List.length_append] at hb
    have hpos : 0 < ms.length := List.length_pos_iff.mpr hne
    cases budget with
    | nil =>
      rw [List.length_nil] at hb
      omega
    | cons t budget =>
      rw [List.length_cons] at hb
      -- what comes after the stretch is the next one, or the end
      have hnext : F (kindOf (mss.flatten ++ more)) := by
        cases hrest with
        | nil => exact hf
        | cons hfirst =>
          obtain ⟨-, hne', hf'⟩ := hfirst
          rwa [List.flatten_cons, List.append_assoc, kindOf_append hne']
      refine manyWithin_some (hread.meets hc hnext fun o c' ho hc' => ?_)
      obtain ⟨a, rfl, ha⟩ := ho
      refine ⟨a, rfl, ih hc' (by omega) fun as c'' has hc'' => hq _ c'' ?_ hc''⟩
      rw [List.map_cons, ha, has]

end Parser

end Vernacular
