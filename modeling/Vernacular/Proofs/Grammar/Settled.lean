import Vernacular.Proofs.Grammar.Productions

/-!
# What a call ends with

Whether an operator that steps a variable belongs to the call in front of it depends on the line on which that call
ends. Calls and the expressions they are made of never end with a semicolon (`settles_call`), whatever their functions
and arguments contain, so the line is that of a token of the call itself.
-/

namespace Vernacular

open Grammar Vernacular.Parser

variable {α β : Type} {inner : Inner}
variable {context : Context}

/-- The last token that was read is not a semicolon. -/
def Cursor.Settled (c : Cursor) : Prop := ∀ t ∈ c.previous, t.kind ≠ .symbol .semicolon

/-- Reading on over any token but a semicolon. -/
theorem Cursor.settled_advance {c : Cursor} (hend : c.peek.kind ≠ .eof) (hk : c.peek.kind ≠ .symbol .semicolon) :
    c.advance.2.Settled := by
  intro t ht
  rw [previous_advance hend, Option.mem_some_iff] at ht
  exact ht ▸ hk

namespace Parser

/-- Where the reader succeeds, the last token that was read is not a semicolon. -/
def Settles (p : Parser α) : Prop := Ensures (fun _ => True) p fun _ d => d.Settled

/-- The reader reads nothing, or the last token that it reads is not a semicolon. -/
def KeepsSettled (p : Parser α) : Prop := Ensures Cursor.Settled p fun _ d => d.Settled

namespace Settles

variable {p : Parser α} {f : α → Parser β}

/-- Only the last of two readers matters. -/
theorem after (h : ∀ a, Settles (f a)) : Settles (p >>= f) :=
  Ensures.bind (Q := fun _ _ => True) (fun _ _ _ _ _ => trivial) h

/-- The second reader reads nothing, or ends with no semicolon either. -/
protected theorem bind (hp : Settles p) (hf : ∀ a, KeepsSettled (f a)) : Settles (p >>= f) := Ensures.bind hp hf

theorem keeps (h : Settles p) : KeepsSettled p := h.strengthen fun _ _ => trivial

theorem fail {expected : List String} : Settles (fail expected context : Parser α) := Ensures.fail

/-- A token that has to be there and is no semicolon. -/
theorem expect {k : Kind} (hend : k ≠ .eof) (hk : k ≠ .symbol .semicolon) : Settles (expect [k] context) :=
  Ensures.expect fun _ _ hmem => Cursor.settled_advance (List.mem_singleton.mp hmem ▸ hend)
    (List.mem_singleton.mp hmem ▸ hk)

theorem expectSymbol {s : Symbol} (hs : s ≠ .semicolon) : Settles (expectSymbol s context) :=
  expect (by simp) (by simpa using hs)

/-- A word that names a property is no semicolon. -/
theorem propertyWord : Settles (propertyWord context) :=
  Ensures.propertyWord fun _ _ hk =>
    Cursor.settled_advance (fun h => by rw [h] at hk; cases hk) fun h => by rw [h] at hk; cases hk

end Settles

namespace KeepsSettled

variable {p : Parser α} {f : α → Parser β}

protected theorem pure {a : α} : KeepsSettled (pure a) := Ensures.pure fun _ hc => hc

theorem spanFrom {start : Position} {f : Span → Parser β} (hf : ∀ s, KeepsSettled (f s)) :
    KeepsSettled (spanFrom start >>= f) :=
  Ensures.bind Ensures.spanFrom hf

/-- Repetition, also if there are no items. -/
theorem many {item : Parser (Option α)} (h : KeepsSettled item) : KeepsSettled (many item) :=
  (Ensures.many (G := fun _ => True) (h.mono fun _ _ hd => ⟨fun _ _ => trivial, hd⟩)).mono fun _ _ hd => hd.2

end KeepsSettled

end Parser

namespace Grammar

theorem settles_closing {s : Symbol} {a : α} (hs : s ≠ .semicolon) :
    Settles (do let _ ← expectSymbol s context; return a) :=
  (Settles.expectSymbol hs).bind fun _ => .pure

theorem settles_closingSpan {s : Symbol} {start : Position} {node : Span → α} (hs : s ≠ .semicolon) :
    Settles (do let _ ← expectSymbol s context; return node (← spanFrom start)) :=
  (Settles.expectSymbol hs).bind fun _ => .spanFrom fun _ => .pure

/-- A block ends with its brace. -/
theorem settles_blockIn : Settles (blockIn inner context) :=
  .after fun _ => .after fun _ => .after fun _ => settles_closingSpan (by decide)

/-- Arguments end with their parenthesis. -/
theorem settles_arguments : Settles (arguments inner) := .after fun _ => .after fun _ => settles_closing (by decide)

theorem settles_computedKey : Settles (computedKey inner) := .after fun _ => .after fun _ => settles_closing (by decide)

theorem settles_propertyName : Settles (propertyName context) := by
  refine .after fun b => ?_
  split
  · exact Settles.propertyWord.bind fun _ => .pure
  · exact Settles.propertyWord.bind fun _ => .pure

/-- A function expression ends with the brace of its body. -/
theorem settles_functionExpression : Settles (functionExpression inner) := by
  have hrest (name : Option Ident) (start : Position) :
      Settles (do return Expr.function (← callableRest inner name start false)) := by
    refine Settles.bind (.after fun _ => .after fun _ => .after fun b => ?_) fun _ => .pure
    exact settles_blockIn.bind fun _ => .spanFrom fun _ => .pure
  refine .after fun _ => .after fun _ => .after fun b => ?_
  split
  · exact .after fun _ => hrest _ _
  · exact hrest _ _

/-- An operand ends with a token of its own. -/
theorem settles_atom : Settles (atom inner) := by
  refine Ensures.bind Ensures.peek fun t => ?_
  cases hs : simple? t with
  | some e =>
    refine Ensures.bind (Ensures.advance (Q := fun _ d => d.Settled) ?_) fun _ => KeepsSettled.pure
    rintro c ⟨-, rfl⟩
    refine Cursor.settled_advance (kind_ne_eof_of_simple? hs) fun hk => ?_
    rw [simple?, hk] at hs
    cases hs
  | none =>
    dsimp only
    refine Ensures.strengthen (P := fun _ => True) ?_ fun _ _ => trivial
    split
    · exact settles_functionExpression
    · exact Settles.after fun _ => .after fun _ => settles_closing (by decide)
    · exact Settles.after fun _ => .after fun _ => .after fun _ => settles_closingSpan (by decide)
    · exact Settles.after fun _ => .after fun _ => .after fun _ => settles_closingSpan (by decide)
    · exact Settles.fail

theorem keepsSettled_ended {l : Link} : KeepsSettled (ended l) :=
  Ensures.bind Ensures.get fun _ => .bind Ensures.position fun _ => .pure fun _ hc => hc.1

theorem keepsSettled_propertyLink : KeepsSettled (propertyLink inner) := by
  refine .bind Ensures.kind fun k => .strengthen ?_ fun _ hc => hc.1
  split
  · exact (Settles.after fun _ => settles_propertyName.bind fun _ => keepsSettled_ended).keeps
  · exact (settles_computedKey.bind fun _ => keepsSettled_ended).keeps
  · exact KeepsSettled.pure

/-- One link of a chain: a property, an item in brackets or arguments. -/
theorem keepsSettled_link : KeepsSettled (link inner) := by
  refine .bind Ensures.kind fun k => .strengthen ?_ fun _ hc => hc.1
  split
  · exact (settles_arguments.bind fun _ => keepsSettled_ended).keeps
  · refine (Settles.after fun _ => .after fun k => ?_).keeps
    split
    · exact settles_arguments.bind fun _ => keepsSettled_ended
    · exact settles_computedKey.bind fun _ => keepsSettled_ended
    · exact settles_propertyName.bind fun _ => keepsSettled_ended
  · exact keepsSettled_propertyLink

/-- What follows the class in constructions is nothing, a property or arguments. -/
theorem keepsSettled_constructions {starts : List Position} {e : Expr} :
    KeepsSettled (constructions inner starts e) := by
  induction starts generalizing e with
  | nil => exact .pure
  | cons start starts ih =>
    refine .bind keepsSettled_propertyLink.many fun xs => .bind Ensures.check fun b => ?_
    refine .strengthen ?_ fun _ hc => hc.1
    split
    · exact (settles_arguments.bind fun _ => .spanFrom fun _ => ih).keeps
    · exact KeepsSettled.spanFrom fun _ => ih

/-- A call does not end with a semicolon. -/
theorem settles_call : Settles (call inner) := by
  have hprimary : Settles (primary inner) := .after fun _ => settles_atom.bind fun _ => keepsSettled_constructions
  exact hprimary.bind fun _ => .bind keepsSettled_link.many fun _ => KeepsSettled.pure

end Grammar

end Vernacular
