import Vernacular.Proofs.Grammar.Outlines
import Vernacular.Proofs.Token.Lossless

/-!
# Stretches of trees

The stretches of a tree nest as its nodes do. Every node begins where a token begins and ends where a token ends, its
parts lie within it, and no part overlaps another (`Outline.Laid`). This follows from the way in which tokens make up
outlines, if the tokens follow one another in the text.

- `Phrase.laid`: the outlines of a phrase are laid out over its tokens, and follow one another;
- `parse_laid`: the nodes of a program.
-/

namespace Vernacular

open Grammar Vernacular.Parser Vernacular.Parser.Outlines

/-- Every token ends before the next begins. -/
structure InOrder (ts : List Token) : Prop where
  pairwise : ts.Pairwise fun t u => t.stop.offset ≤ u.start.offset
  le : ∀ t ∈ ts, t.start.offset ≤ t.stop.offset

namespace InOrder

variable {us vs : List Token} {t u : Token}

theorem append (h : InOrder (us ++ vs)) :
    InOrder us ∧ InOrder vs ∧ ∀ t ∈ us, ∀ u ∈ vs, t.stop.offset ≤ u.start.offset := by
  obtain ⟨hus, hvs, horder⟩ := List.pairwise_append.mp h.pairwise
  exact ⟨⟨hus, fun t ht => h.le t (by simp [ht])⟩, ⟨hvs, fun t ht => h.le t (by simp [ht])⟩, horder⟩

theorem head_le (h : InOrder us) (ht : us.head? = some t) : ∀ u ∈ us, t.start.offset ≤ u.start.offset := by
  obtain ⟨us, rfl⟩ := List.head?_eq_some_iff.mp ht
  have hle := h.le t (by simp)
  intro u hu
  rcases List.mem_cons.mp hu with rfl | hu
  · exact Nat.le_refl _
  · exact Nat.le_trans hle ((List.pairwise_cons.mp h.pairwise).1 u hu)

theorem le_last (h : InOrder us) (hu : us.getLast? = some u) : ∀ t ∈ us, t.stop.offset ≤ u.stop.offset := by
  obtain ⟨us, rfl⟩ := List.getLast?_eq_some_iff.mp hu
  have hle := h.le u (by simp)
  intro t ht
  rcases List.mem_append.mp ht with ht | ht
  · exact Nat.le_trans ((List.pairwise_append.mp h.pairwise).2.2 t ht u (by simp)) hle
  · obtain rfl := List.mem_singleton.mp ht
    exact Nat.le_refl _

end InOrder

/-- Two stretches that follow one another are joined into the one from the first to the second. -/
theorem Span.merge_of_le {a b : Span} (ha : a.start.offset ≤ a.stop.offset) (hab : a.stop.offset ≤ b.start.offset)
    (hb : b.start.offset ≤ b.stop.offset) : ((a.merge b).start = a.start ∨ (a.merge b).start = b.start) ∧
      (a.merge b).start.offset = a.start.offset ∧ (a.merge b).stop = b.stop := by
  have hstop : ¬ a.stop.offset > b.stop.offset := by omega
  by_cases hstart : a.start.offset < b.start.offset
  · have hmerge : (a.merge b).start = a.start := if_pos hstart
    exact ⟨.inl hmerge, by rw [hmerge], if_neg hstop⟩
  · have hmerge : (a.merge b).start = b.start := if_neg hstart
    exact ⟨.inr hmerge, by rw [hmerge]; omega, if_neg hstop⟩

namespace Outline

/-- What has a stretch lies within the given one. -/
def Within (s : Span) : Outline → Prop
  | text _ => True
  | node a _ => s.start.offset ≤ a.start.offset ∧ a.stop.offset ≤ s.stop.offset

/-- Of two stretches the first ends before the second begins. -/
def Before : Outline → Outline → Prop
  | node a _, node b _ => a.stop.offset ≤ b.start.offset
  | _, _ => True

/-- One node and its parts, laid out over tokens. -/
structure Placed (ts : List Token) (s : Span) (parts : List Outline) : Prop where
  begins : ∃ t ∈ ts, t.start = s.start
  ends : ∃ t ∈ ts, t.stop = s.stop
  ordered : s.start.offset ≤ s.stop.offset
  within : ∀ o ∈ parts, o.Within s
  apart : parts.Pairwise Before

/-- All nodes of the outline, at every depth, are laid out over the tokens. -/
inductive Laid (ts : List Token) : Outline → Prop
  | text {s : String} : Laid ts (text s)
  | node {s : Span} {parts : List Outline} : Placed ts s parts → (∀ o ∈ parts, Laid ts o) → Laid ts (node s parts)

namespace Laid

variable {us vs : List Token} {o p : Outline} {s : Span}

theorem mono (h : o.Laid us) (hsub : ∀ t ∈ us, t ∈ vs) : o.Laid vs := by
  induction h with
  | text => exact .text
  | node hplaced _ ih =>
    obtain ⟨⟨t, ht, hstart⟩, ⟨u, hu, hstop⟩, hordered, hwithin, hapart⟩ := hplaced
    exact .node ⟨⟨t, hsub t ht, hstart⟩, ⟨u, hsub u hu, hstop⟩, hordered, hwithin, hapart⟩ ih

theorem parts {os : List Outline} (h : (Outline.node s os).Laid us) : Placed us s os ∧ ∀ o ∈ os, o.Laid us := by
  cases h with
  | node hplaced hos => exact ⟨hplaced, hos⟩

/-- A stretch that holds all tokens holds what is laid out over them. -/
theorem within (h : o.Laid us) (hstart : ∀ t ∈ us, s.start.offset ≤ t.start.offset)
    (hstop : ∀ t ∈ us, t.stop.offset ≤ s.stop.offset) : o.Within s := by
  cases h with
  | text => trivial
  | node hplaced _ =>
    obtain ⟨t, ht, hbegins⟩ := hplaced.begins
    obtain ⟨u, hu, hends⟩ := hplaced.ends
    exact ⟨hbegins ▸ hstart t ht, hends ▸ hstop u hu⟩

/-- What is laid out over earlier tokens comes before what is laid out over later ones. -/
theorem before (h : o.Laid us) (h' : p.Laid vs) (horder : ∀ t ∈ us, ∀ u ∈ vs, t.stop.offset ≤ u.start.offset) :
    o.Before p := by
  cases h with
  | text => trivial
  | node hplaced _ =>
    cases h' with
    | text => trivial
    | node hplaced' _ =>
      obtain ⟨t, ht, hends⟩ := hplaced.ends
      obtain ⟨u, hu, hbegins⟩ := hplaced'.begins
      rw [Before, ← hends, ← hbegins]
      exact horder t ht u hu

/-- A node from its first token to its last. -/
theorem spanning {os : List Outline} {t u : Token} (hus : InOrder us) (hos : ∀ o ∈ os, o.Laid us)
    (hapart : os.Pairwise Before)
    (ht : us.head? = some t) (hu : us.getLast? = some u) : (Outline.node ⟨t.start, u.stop⟩ os).Laid us := by
  have htmem := List.mem_of_mem_head? ht
  refine .node ⟨⟨t, htmem, rfl⟩, ⟨u, List.mem_of_getLast? hu, rfl⟩, ?_, fun o ho => ?_, hapart⟩ hos
  · exact Nat.le_trans (hus.le t htmem) (hus.le_last hu t htmem)
  · exact (hos o ho).within (hus.head_le ht) (hus.le_last hu)

/-- A node from the beginning of its first part to its last token. -/
theorem grown {a : Span} {ps os : List Outline} {u : Token} (hus : InOrder (us ++ vs))
    (hfirst : (Outline.node a ps).Laid us)
    (hos : ∀ o ∈ os, o.Laid vs) (hapart : os.Pairwise Before) (hu : vs.getLast? = some u) :
    (Outline.node ⟨a.start, u.stop⟩ (.node a ps :: os)).Laid (us ++ vs) := by
  obtain ⟨-, hvs, horder⟩ := hus.append
  obtain ⟨⟨⟨t, ht, hbegins⟩, ⟨t', ht', hends⟩, hordered, -, -⟩, -⟩ := hfirst.parts
  have humem := List.mem_of_getLast? hu
  have hstop : a.stop.offset ≤ u.stop.offset := hends ▸ Nat.le_trans (horder t' ht' u humem) (hvs.le u humem)
  have hstart : ∀ v ∈ vs, a.start.offset ≤ v.start.offset := fun v hv =>
    Nat.le_trans hordered (hends ▸ horder t' ht' v hv)
  refine .node ⟨⟨t, List.mem_append_left _ ht, hbegins⟩, ⟨u, List.mem_append_right _ humem, rfl⟩, ?_, ?_, ?_⟩ ?_
  · exact Nat.le_trans hordered hstop
  · exact List.forall_mem_cons.mpr ⟨⟨Nat.le_refl _, hstop⟩, fun o ho => (hos o ho).within hstart (hvs.le_last hu)⟩
  · exact List.pairwise_cons.mpr ⟨fun o ho => hfirst.before (hos o ho) horder, hapart⟩
  · exact List.forall_mem_cons.mpr ⟨hfirst.mono fun t => List.mem_append_left vs,
      fun o ho => (hos o ho).mono fun t => List.mem_append_right us⟩

/-- A node from its first part to its second. -/
theorem joined {a b : Span} {ps qs : List Outline} (hus : InOrder (us ++ vs)) (hfirst : (Outline.node a ps).Laid us)
    (hsecond : (Outline.node b qs).Laid vs) : (Outline.node (a.merge b) [.node a ps, .node b qs]).Laid (us ++ vs) := by
  have hbefore : a.stop.offset ≤ b.start.offset := hfirst.before hsecond hus.append.2.2
  have hfirst := hfirst.mono fun t => List.mem_append_left vs
  have hsecond := hsecond.mono fun t => List.mem_append_right us
  obtain ⟨⟨hbegins, -, hordered, -, -⟩, -⟩ := hfirst.parts
  obtain ⟨⟨hbegins', hends', hordered', -, -⟩, -⟩ := hsecond.parts
  obtain ⟨hcases, hstart, hstop⟩ := Span.merge_of_le hordered hbefore hordered'
  refine .node ⟨?_, hstop ▸ hends', ?_, ?_, List.pairwise_pair.mpr hbefore⟩
    (List.forall_mem_cons.mpr ⟨hfirst, List.forall_mem_singleton.mpr hsecond⟩)
  · rcases hcases with hcase | hcase
    · exact hcase ▸ hbegins
    · exact hcase ▸ hbegins'
  · rw [hstart, hstop]
    omega
  · refine List.forall_mem_cons.mpr ⟨?_, List.forall_mem_singleton.mpr ?_⟩
    all_goals
      rw [Within, hstart, hstop]
      omega

end Laid

end Outline

namespace Phrase

variable {us : List Token} {os : List Outline}

/-- The outlines of a phrase are laid out over its tokens and follow one another. -/
theorem laid (h : Phrase us os) (hus : InOrder us) : (∀ o ∈ os, o.Laid us) ∧ os.Pairwise Outline.Before := by
  induction h with
  | nil => exact ⟨nofun, .nil⟩
  | @append us vs os ps _ _ ihus ihvs =>
    obtain ⟨hus, hvs, horder⟩ := hus.append
    obtain ⟨hos, hapart⟩ := ihus hus
    obtain ⟨hps, hapart'⟩ := ihvs hvs
    refine ⟨List.forall_mem_append.mpr ⟨fun o ho => ?_, fun o ho => ?_⟩, List.pairwise_append.mpr ⟨hapart, hapart', ?_⟩⟩
    · exact (hos o ho).mono fun t => List.mem_append_left vs
    · exact (hps o ho).mono fun t => List.mem_append_right us
    · exact fun o ho p hp => (hos o ho).before (hps p hp) horder
  | mark => exact ⟨nofun, .nil⟩
  | text => exact ⟨List.forall_mem_singleton.mpr .text, List.pairwise_singleton ..⟩
  | node _ ht hu ih =>
    obtain ⟨hos, hapart⟩ := ih hus
    exact ⟨List.forall_mem_singleton.mpr (.spanning hus hos hapart ht hu), List.pairwise_singleton ..⟩
  | grown _ _ hu ihus ihvs =>
    have hfirst := List.forall_mem_singleton.mp (ihus hus.append.1).1
    obtain ⟨hos, hapart⟩ := ihvs hus.append.2.1
    exact ⟨List.forall_mem_singleton.mpr (.grown hus hfirst hos hapart hu), List.pairwise_singleton ..⟩
  | joined _ _ ihus ihvs =>
    have hfirst := List.forall_mem_singleton.mp (ihus hus.append.1).1
    have hsecond := List.forall_mem_singleton.mp (ihvs hus.append.2.1).1
    exact ⟨List.forall_mem_singleton.mpr (.joined hus hfirst hsecond), List.pairwise_singleton ..⟩

/-- Nothing is read from no tokens. -/
theorem eq_nil (h : Phrase [] os) : os = [] := by
  generalize hus : ([] : List Token) = us at h
  induction h with
  | nil => rfl
  | append _ _ ihus ihvs =>
    obtain ⟨rfl, rfl⟩ := List.append_eq_nil_iff.mp hus.symm
    rw [ihus rfl, ihvs rfl]
    rfl
  | mark | text => cases hus
  | node _ ht _ => rw [← hus] at ht; cases ht
  | grown _ _ hu _ _ =>
    obtain ⟨-, rfl⟩ := List.append_eq_nil_iff.mp hus.symm
    cases hu
  | joined _ _ ihus _ =>
    obtain ⟨rfl, -⟩ := List.append_eq_nil_iff.mp hus.symm
    cases ihus rfl

end Phrase

/-! ## Programs -/

/-- A reader that went over nothing leaves a point. -/
theorem Parser.Outlines.Whole.point {α : Type} {F : α → List Outline} {a : α} {ts : List Token} {d : Cursor}
    (h : Whole (.ofTokens ts) F a d) (hle : ts.length ≤ d.rest.length) :
    d.rest = ts ∧ F a = [.node ⟨d.peek.start, d.peek.start⟩ []] := by
  obtain ⟨os, ⟨us, hover, hphrase⟩, ha⟩ := h
  have hts : ts = us ++ d.rest := hover.rest
  obtain rfl : us = [] := by
    rw [hts, List.length_append] at hle
    exact List.length_eq_zero_iff.mp (by omega)
  obtain rfl := hphrase.eq_nil
  have hprevious : d.previous = none := hover.previous
  have hpeek : (Cursor.ofTokens ts).peek = d.peek := by rw [Cursor.peek, hover.rest]; rfl
  rw [ha, Cursor.spanFrom, hprevious, hpeek]
  exact ⟨hts.symm, rfl⟩

/-- The end of a source is a point. -/
theorem Covers.stop_of_eof {q : Position} {cs : List Char} {ts : List Token} (h : Covers q cs ts) :
    ∀ t ∈ ts, t.kind = .eof → t.stop = t.start := by
  induction h with
  | eof _ _ _ _ hstop => exact List.forall_mem_singleton.mpr fun _ => hstop
  | token _ hkind _ _ _ _ _ ih => exact List.forall_mem_cons.mpr ⟨fun ht => absurd ht hkind, ih⟩

/-- The tokens of a source follow one another. -/
theorem tokenize_inOrder {source : String} {ts : List Token} (h : tokenize source = .ok ts) : InOrder ts := by
  obtain ⟨hsource, hmark⟩ := Scanner.ofText_spec source
  obtain ⟨gaps, hgaps, hplace, -⟩ := (Scanner.covers_tokens h).gaps hsource hmark
  have hle : ∀ t ∈ ts, t.start.offset ≤ t.stop.offset := by
    intro t ht
    obtain ⟨-, hkind⟩ := hplace t ht
    split at hkind <;> omega
  exact ⟨(hgaps.pairwise hle).2, hle⟩

/-- **Stretches nest and stay in order.** In the tree of a source, at every depth, a node begins where a token begins
and ends where a token ends, not before it begins; its parts lie within it; and they follow one another as they stand in
the source. -/
theorem parse_laid {source : String} {ts : List Token} {p : Program} (ht : tokenize source = .ok ts)
    (hp : parse ts = .ok p) : p.outline.Laid ts := by
  have hcovers := Scanner.covers_tokens ht
  have horder := tokenize_inOrder ht
  obtain ⟨d, hwhole, hend⟩ := parse_outlined hp
  by_cases hlt : d.rest.length < ts.length
  · obtain ⟨us, hover, hphrase⟩ := hwhole.outlined hlt
    have hts : ts = us ++ d.rest := hover.rest
    have hus : InOrder us := (hts ▸ horder).append.1
    have hlaid := List.forall_mem_singleton.mp (hphrase.laid hus).1
    exact hlaid.mono fun t ht => hts ▸ List.mem_append_left _ ht
  · -- an empty program is the point before the end
    obtain ⟨hrest, hprogram⟩ := hwhole.point (Nat.le_of_not_lt hlt)
    obtain ⟨words, final, hfinal, -⟩ := hcovers.eof_last
    have hmem : d.peek ∈ ts := by
      obtain ⟨t, us, hcons⟩ := List.exists_cons_of_ne_nil (show ts ≠ [] by simp [hfinal])
      rw [Cursor.peek, hrest, hcons]
      exact List.mem_cons_self
    rw [(List.cons.inj hprogram).1]
    exact .node ⟨⟨_, hmem, rfl⟩, ⟨_, hmem, hcovers.stop_of_eof _ hmem hend⟩, Nat.le_refl _, nofun, .nil⟩ nofun

/-- Parentheses that no node takes in, a chain behind them, and a decorated member. -/
def decoratedClass : String := "classe A { @m f(x: numero[]) { (x)(novo B).y = -x ** 2; } }"

theorem parse_laid_decorated : ∃ ts p, tokenize decoratedClass = .ok ts ∧ parse ts = .ok p ∧
    p.span = ⟨⟨1, 1, 0⟩, ⟨1, 60, 59⟩⟩ ∧ p.outline.Laid ts := by
  have hcheck : ((tokenize decoratedClass).toOption.any fun ts => (parse ts).toOption.any fun p =>
      decide (p.span = ⟨⟨1, 1, 0⟩, ⟨1, 60, 59⟩⟩)) = true := by decide +kernel
  obtain ⟨ts, hts, hcheck⟩ := exists_ok_of_any hcheck
  obtain ⟨p, hp, hspan⟩ := exists_ok_of_any hcheck
  exact ⟨ts, p, hts, hp, of_decide_eq_true hspan, parse_laid hts hp⟩

end Vernacular
