import Vernacular.Proofs.Grammar.Phrase
import Vernacular.Proofs.Grammar.Respelling
import Vernacular.Proofs.Tree.Normal

/-!
# Tokens that tell their places

A place in a list of tokens is named by the number of tokens after it. Tokens that are numbered have these numbers for
their offsets (`numbered`), so the spans of a tree that is read from them tell which tokens it was read from, whatever
the offsets were before. Nothing else changes, since offsets have no bearing on how a list is read.

- `Cursor.Placed`: a place in a list of numbered tokens;
- `renumberings`: the comparison of a list with the numbered one;
- `parse_numbered`: the program is the same but for places.
-/

namespace Vernacular

open Grammar Vernacular.Parser

/-! ## Places told by the tokens behind them -/

/-- The tokens, each with the number of tokens after it for the offset of its end. -/
def numbered : List Token → List Token
  | [] => []
  | t :: ts =>
    { t with
      start := { t.start with offset := ts.length + 1 }
      stop := { t.stop with offset := ts.length } } :: numbered ts

/-- Each token tells how many come after it. -/
def Numbered : List Token → Prop
  | [] => True
  | t :: ts => t.start.offset = ts.length + 1 ∧ t.stop.offset = ts.length ∧ Numbered ts

@[simp] theorem length_numbered (ts : List Token) : (numbered ts).length = ts.length := by
  induction ts with
  | nil => rfl
  | cons t ts ih => rw [numbered, List.length_cons, ih, List.length_cons]

theorem numbered_numbered (ts : List Token) : Numbered (numbered ts) := by
  induction ts with
  | nil => trivial
  | cons t ts ih =>
    rw [numbered, Numbered, length_numbered]
    exact ⟨rfl, rfl, ih⟩

namespace Cursor

/-- The tokens on both sides of the place tell where it is. -/
structure Placed (c : Cursor) : Prop where
  rest : Numbered c.rest
  previous : ∀ t ∈ c.previous, t.stop.offset = c.rest.length

variable {c d : Cursor} {us : List Token}

theorem Placed.start (h : c.Placed) (hne : c.rest ≠ []) : c.peek.start.offset = c.rest.length := by
  obtain ⟨previous, _ | ⟨t, ts⟩⟩ := c
  · exact absurd rfl hne
  · exact h.rest.1

/-- Whoever goes on knows where they are. -/
theorem Placed.onward (h : c.Placed) (hover : c.Over us d) : d.Placed := by
  induction us generalizing c with
  | nil =>
    obtain ⟨hrest, hprevious⟩ := hover
    rw [List.nil_append] at hrest
    exact ⟨hrest ▸ h.rest, fun t ht => hrest ▸ h.previous t (by simpa [hprevious] using ht)⟩
  | cons t us ih =>
    obtain ⟨hrest, hprevious⟩ := hover
    have hnumbered := h.rest
    rw [hrest] at hnumbered
    refine ih (c := ⟨some t, us ++ d.rest⟩) ⟨hnumbered.2.2, fun u hu => ?_⟩ ⟨rfl, ?_⟩
    · obtain rfl : t = u := Option.some.inj hu
      exact hnumbered.2.1
    · rw [hprevious, List.getLast?_cons]
      cases us.getLast? <;> rfl

/-- A stretch tells where it ends. -/
theorem Placed.stop (h : c.Placed) (hover : c.Over us d) : (d.spanFrom c.peek.start).stop.offset = d.rest.length := by
  have hprevious := hover.previous
  cases hd : d.previous with
  | some t =>
    rw [spanFrom, hd]
    exact (h.onward hover).previous t hd
  | none =>
    obtain ⟨hlast, -⟩ := Option.or_eq_none_iff.mp (hprevious.symm.trans hd)
    have hrest := hover.rest
    rw [List.getLast?_eq_none_iff.mp hlast, List.nil_append] at hrest
    rw [spanFrom, hd, ← hrest]
    by_cases hne : c.rest = []
    · rw [peek, hne]
      rfl
    · exact h.start hne

end Cursor

theorem tokenLike_placeless {t t' : Token} (hkind : t.kind = t'.kind) (htext : t.text = t'.text) :
    TokenLike .placeless t t' := by
  refine ⟨?_, fun _ => htext, fun _ _ => by rw [htext]; rfl⟩
  rw [Like, Token.view, Token.view, hkind, htext]
  rfl

/-! ## Reading numbered tokens -/

theorem respelling_numbered (ts : List Token) : Respelling ts (numbered ts) where
  length := (length_numbered ts).symm
  tokens := by
    induction ts with
    | nil => simp
    | cons t ts ih =>
      intro p hp
      rw [numbered, List.zip_cons_cons, List.mem_cons] at hp
      rcases hp with rfl | hp
      · exact ⟨rfl, .inl rfl⟩
      · exact ih p hp
  breaks := by
    induction ts with
    | nil => rfl
    | cons t ts ih =>
      cases ts with
      | nil => rfl
      | cons u ts => exact congrArg (breakBetween t u :: ·) ih

theorem tokenLike_numbered (ts : List Token) (n : Nat) :
    TokenLike .placeless (ts.getD n .pastEnd) ((numbered ts).getD n .pastEnd) := by
  induction ts generalizing n with
  | nil => exact .refl _ _
  | cons t ts ih =>
    cases n with
    | zero => exact tokenLike_placeless rfl rfl
    | succ n => simpa [numbered] using ih n

/-- Tokens are compared with the same tokens numbered: all but places is the same. -/
def renumberings (ts : List Token) : Comparison :=
  { respellings (respelling_numbered ts) with
    view := .placeless
    merge := fun _ _ => rfl
    peek := by
      rintro _ _ ⟨n, -, rfl, rfl⟩ -
      rw [Cursor.peek_after, Cursor.peek_after]
      exact tokenLike_numbered ts n
    stop := by
      rintro _ _ ⟨n, hn, rfl, rfl⟩
      cases n with
      | zero => rfl
      | succ n =>
        rw [Like, Cursor.previous_after hn, Cursor.previous_after ((length_numbered ts).symm ▸ hn)]
        rfl }

theorem parse_eq_ok_iff {ts : List Token} {p : Program} : parse ts = .ok p ↔ ∃ d, program (.ofTokens ts) = .ok p d := by
  unfold parse
  cases program (.ofTokens ts) with
  | ok q d => simp
  | error e d => simp

/-- A program is read from numbered tokens too. -/
theorem parse_numbered {ts : List Token} {p : Program} (h : parse ts = .ok p) :
    ∃ q, parse (numbered ts) = .ok q ∧ Like (Program.view .placeless) p q := by
  obtain ⟨d, hp⟩ := parse_eq_ok_iff.mp h
  have hstart : (renumberings ts).near (.ofTokens ts) (.ofTokens (numbered ts)) := ⟨0, Nat.zero_le _, rfl, rfl⟩
  have hrun := (agree_program (X := renumberings ts)).run _ _ trivial hstart
  rcases hrun with hlost | hfit
  · exact absurd hlost (Nat.not_lt_zero _)
  rw [hp] at hfit
  cases hq : program (.ofTokens (numbered ts)) with
  | ok q d' =>
    rw [hq] at hfit
    exact ⟨q, parse_eq_ok_iff.mpr ⟨d', hq⟩, hfit.1⟩
  | error e d' =>
    rw [hq] at hfit
    exact hfit.1.elim

end Vernacular
