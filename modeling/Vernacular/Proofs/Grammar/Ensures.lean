import Vernacular.Grammar.Program

/-!
# What holds after a reader of tokens has succeeded

`Ensures P p Q` says that whenever the reader `p` succeeds from a cursor with the property `P`, what it gives and where
it stops have the property `Q`. There is one rule for each way in which readers are put together: steps that follow one
another (`Ensures.bind`), looking at what comes next without reading it (`Ensures.kind`, `Ensures.check`,
`Ensures.peek`), and repetition (`Ensures.many`).
-/

namespace Vernacular

/-- Any token but the end leaves less than there was. -/
theorem Cursor.advance_rest_lt {c : Cursor} (h : c.peek.kind ≠ .eof) : c.advance.2.rest.length < c.rest.length := by
  obtain ⟨previous, rest⟩ := c
  cases rest with
  | nil => exact absurd rfl h
  | cons t ts => exact Nat.lt_succ_self _

theorem Cursor.peek_advance (c : Cursor) : c.advance.2.peek = c.peekNth 1 := by
  obtain ⟨previous, rest⟩ := c
  cases rest with
  | nil => rfl
  | cons t ts => cases ts <;> rfl

/-- The token that is read is the last one then, if it is not the end. -/
theorem Cursor.previous_advance {c : Cursor} (h : c.peek.kind ≠ .eof) : c.advance.2.previous = some c.peek := by
  obtain ⟨previous, rest⟩ := c
  cases rest with
  | nil => exact absurd rfl h
  | cons t ts => rfl

namespace Parser

variable {α β : Type} {P R : Cursor → Prop} {Q : α → Cursor → Prop} {S : β → Cursor → Prop}

/-- Whenever `p` succeeds from a cursor with `P`, its result and the cursor after it have `Q`. -/
def Ensures (P : Cursor → Prop) (p : Parser α) (Q : α → Cursor → Prop) : Prop :=
  ∀ c a c', P c → p c = .ok a c' → Q a c'

theorem Ensures.pure {a : α} (h : ∀ c, P c → Q a c) : Ensures P (pure a) Q := by
  rintro c _ _ hc ⟨⟩
  exact h c hc

theorem Ensures.throw {e : SyntaxError} : Ensures P (throw e) Q := by
  rintro c _ _ _ ⟨⟩

theorem Ensures.bind {p : Parser α} {f : α → Parser β} (hp : Ensures P p Q) (hf : ∀ a, Ensures (Q a) (f a) S) :
    Ensures P (p >>= f) S := by
  intro c b c' hc h
  cases hx : p c with
  | ok a c₁ =>
    have hf' : f a c₁ = .ok b c' := by simpa only [Bind.bind, EStateM.bind, hx] using h
    exact hf a c₁ b c' (hp c a c₁ hc hx) hf'
  | error e c₁ =>
    rw [show (p >>= f) c = .error e c₁ by simp only [Bind.bind, EStateM.bind, hx]] at h
    cases h

theorem Ensures.mono {p : Parser α} {Q' : α → Cursor → Prop} (h : Ensures P p Q) (hq : ∀ a c, Q a c → Q' a c) :
    Ensures P p Q' :=
  fun c a c' hc hx => hq a c' (h c a c' hc hx)

theorem Ensures.strengthen {p : Parser α} (h : Ensures P p Q) (hp : ∀ c, R c → P c) : Ensures R p Q :=
  fun c a c' hc hx => h c a c' (hp c hc) hx

/-- What is known beside the cursor may be used. -/
theorem Ensures.of_and {b : Prop} {p : Parser α} (h : b → Ensures P p Q) : Ensures (fun c => b ∧ P c) p Q :=
  fun c a c' hc hx => h hc.1 c a c' hc.2 hx

theorem Ensures.of_exists {ι : Type} {P : ι → Cursor → Prop} {p : Parser α} (h : ∀ i, Ensures (P i) p Q) :
    Ensures (fun c => ∃ i, P i c) p Q :=
  fun c a c' hc hx => hc.elim fun i hi => h i c a c' hi hx

theorem Ensures.ite {b : Prop} [Decidable b] {p q : Parser α} (hp : b → Ensures P p Q) (hq : ¬ b → Ensures P q Q) :
    Ensures P (if b then p else q) Q := by
  split
  · exact hp ‹_›
  · exact hq ‹_›

/-! ## Looking -/

/-- A reader that only looks changes nothing and tells something about the cursor. -/
theorem Ensures.look {g : Cursor → α} : Ensures P (fun c => .ok (g c) c) fun a c => P c ∧ g c = a := by
  rintro c _ _ hc ⟨⟩
  exact ⟨hc, rfl⟩

theorem Ensures.get : Ensures P get fun a c => P c ∧ c = a := Ensures.look (g := id)

theorem Ensures.peek : Ensures P Parser.peek fun t c => P c ∧ c.peek = t := Ensures.look (g := Cursor.peek)

theorem Ensures.kind : Ensures P Parser.kind fun k c => P c ∧ c.peek.kind = k :=
  Ensures.look (g := fun c => c.peek.kind)

theorem Ensures.check {k : Kind} : Ensures P (Parser.check k) fun b c => P c ∧ (c.peek.kind == k) = b :=
  Ensures.look (g := fun c => c.peek.kind == k)

theorem Ensures.position : Ensures P Parser.position fun _ c => P c :=
  Ensures.mono (.look (g := fun c => c.peek.start)) fun _ _ h => h.1

theorem Ensures.onNewLine : Ensures P Parser.onNewLine fun _ c => P c :=
  Ensures.mono (.look (g := Cursor.onNewLine)) fun _ _ h => h.1

theorem Ensures.spanFrom {start : Position} : Ensures P (Parser.spanFrom start) fun _ c => P c :=
  Ensures.mono (.look (g := fun c => c.spanFrom start)) fun _ _ h => h.1

theorem Ensures.fail {expected : List String} {context : Context} :
    Ensures P (Parser.fail (α := α) expected context) Q :=
  Ensures.bind Ensures.get fun _ => .throw

/-! ## Reading -/

theorem Ensures.advance {Q : Token → Cursor → Prop} (h : ∀ c, P c → Q c.peek c.advance.2) :
    Ensures P Parser.advance Q := by
  intro c a c' hc hx
  have : (Parser.advance : Parser Token) c = .ok c.advance.1 c.advance.2 := rfl
  rw [this, Cursor.advance_fst] at hx
  cases hx
  exact h c hc

/-- A token is read if it is of the kind in question, and else nothing. -/
theorem Ensures.accept {k : Kind} {Q : Bool → Cursor → Prop} (hread : ∀ c, P c → c.peek.kind = k → Q true c.advance.2)
    (hskip : ∀ c, P c → c.peek.kind ≠ k → Q false c) : Ensures P (Parser.accept k) Q := by
  refine .bind Ensures.check fun b => .ite (fun hb => ?_) fun hb => .pure fun c hc => ?_
  · refine .bind (.advance (Q := fun _ c => Q true c) fun c hc => ?_) fun _ => .pure fun _ hc => hc
    exact hread c hc.1 (eq_of_beq (hc.2.trans hb))
  · exact hskip c hc.1 fun hk => hb (hc.2.symm.trans (beq_iff_eq.mpr hk))

/-- A token of an allowed kind is read. -/
theorem Ensures.expect {allowed : List Kind} {context : Context} {Q : Token → Cursor → Prop}
    (h : ∀ c, P c → c.peek.kind ∈ allowed → Q c.peek c.advance.2) : Ensures P (Parser.expect allowed context) Q := by
  refine .bind Ensures.kind fun k => ?_
  refine .ite (fun hk => .advance fun c hc => ?_) fun _ => .fail
  obtain ⟨hc, rfl⟩ := hc
  exact h c hc (by simpa using hk)

/-- A word is read. -/
theorem Ensures.propertyWord {context : Context} {Q : Token → Cursor → Prop}
    (h : ∀ c, P c → c.peek.kind.isWord = true → Q c.peek c.advance.2) : Ensures P (Parser.propertyWord context) Q := by
  refine .bind Ensures.kind fun k => ?_
  refine .ite (fun hw => .advance fun c hc => ?_) fun _ => .fail
  obtain ⟨hc, rfl⟩ := hc
  exact h c hc hw

/-! ## Repetition -/

theorem Ensures.manyWithin {item : Parser (Option α)} {G : α → Prop}
    (h : Ensures P item fun o c => (∀ a ∈ o, G a) ∧ P c) (budget : List Token) :
    Ensures P (Parser.manyWithin item budget) fun as c => (∀ a ∈ as, G a) ∧ P c := by
  induction budget with
  | nil =>
    refine Ensures.bind h fun o => ?_
    cases o with
    | none => exact Ensures.pure fun c hc => ⟨by simp, hc.2⟩
    | some a => exact Ensures.pure fun c hc => ⟨by simpa using hc.1, hc.2⟩
  | cons _ budget ih =>
    refine Ensures.bind h fun o => ?_
    cases o with
    | none => exact Ensures.pure fun c hc => ⟨by simp, hc.2⟩
    | some a =>
      intro c as c' hc hx
      have ha : G a := hc.1 a rfl
      refine Ensures.bind (S := fun as c => (∀ a ∈ as, G a) ∧ P c) ih (fun bs => Ensures.pure fun c hbs => ?_)
        c as c' hc.2 hx
      exact ⟨by simpa [ha] using hbs.1, hbs.2⟩

/-- What is kept by every round is kept by the repetition, and what every item has the list has. -/
theorem Ensures.many {item : Parser (Option α)} {G : α → Prop}
    (h : Ensures P item fun o c => (∀ a ∈ o, G a) ∧ P c) :
    Ensures P (Parser.many item) fun as c => (∀ a ∈ as, G a) ∧ P c :=
  Ensures.bind Ensures.get fun _ => (Ensures.manyWithin h _).strengthen fun _ hc => hc.1

/-- A repetition whose rounds each read something ends where a round has nothing to read. -/
theorem Ensures.many_end {item : Parser (Option α)} {D : Cursor → Prop}
    (h : Ensures P item fun o c => P c ∧ (o = none → D c))
    (hread : ∀ n, Ensures (fun c => P c ∧ c.rest.length = n) item fun o c => o ≠ none → c.rest.length < n) :
    Ensures P (Parser.many item) fun _ c => P c ∧ D c := by
  have hwithin (budget : List Token) : Ensures (fun c => P c ∧ c.rest.length ≤ budget.length)
      (Parser.manyWithin item budget) fun _ c => P c ∧ D c := by
    induction budget with
    | nil =>
      refine .bind (Q := fun o c => o = none ∧ P c ∧ D c) ?_ fun o => .of_and fun ho => ?_
      · rintro c (_ | a) c' ⟨hc, hle⟩ hx
        · obtain ⟨hp, hd⟩ := h c _ c' hc hx
          exact ⟨rfl, hp, hd rfl⟩
        · have := hread _ c _ c' ⟨hc, rfl⟩ hx nofun
          simp only [List.length_nil] at hle
          omega
      · subst ho
        exact .pure fun c hc => hc
    | cons t budget ih =>
      refine .bind (Q := fun o c => P c ∧ (o = none → D c) ∧ (o ≠ none → c.rest.length ≤ budget.length)) ?_
        fun o => ?_
      · rintro c (_ | a) c' ⟨hc, hle⟩ hx
        · obtain ⟨hp, hd⟩ := h c _ c' hc hx
          exact ⟨hp, hd, fun hn => absurd rfl hn⟩
        · have := hread _ c _ c' ⟨hc, rfl⟩ hx nofun
          simp only [List.length_cons] at hle
          exact ⟨(h c _ c' hc hx).1, nofun, fun _ => by omega⟩
      · cases o with
        | none => exact .pure fun c hc => ⟨hc.1, hc.2.1 rfl⟩
        | some a =>
          refine .bind (ih.strengthen fun c hc => ⟨hc.1, hc.2.2 nofun⟩) fun _ => .pure fun c hc => hc
  refine .bind (Q := fun a c => P c ∧ c = a) Ensures.get fun a => (hwithin _).strengthen fun c hc => ?_
  exact ⟨hc.1, hc.2 ▸ Nat.le_refl _⟩

/-! ## What readers give -/

/-- Whatever the reader gives has the property. -/
def Returns (p : Parser α) (G : α → Prop) : Prop := Ensures (fun _ => True) p fun a _ => G a

namespace Returns

variable {p : Parser α} {f : α → Parser β} {F : α → Prop} {G : β → Prop}

protected theorem pure {b : β} (h : G b) : Returns (pure b) G := Ensures.pure fun _ _ => h

protected theorem bind (hp : Returns p F) (hf : ∀ a, F a → Returns (f a) G) : Returns (p >>= f) G :=
  Ensures.bind hp fun a c b d ha hrun => hf a ha c b d trivial hrun

/-- A step whose result does not matter. -/
theorem after (hf : ∀ a, Returns (f a) G) : Returns (p >>= f) G :=
  Returns.bind (F := fun _ => True) (fun _ _ _ _ _ => trivial) fun a _ => hf a

theorem ite {b : Prop} [Decidable b] {p q : Parser β} (hp : Returns p G) (hq : Returns q G) :
    Returns (if b then p else q) G := Ensures.ite (fun _ => hp) fun _ => hq

end Returns

end Parser

end Vernacular
