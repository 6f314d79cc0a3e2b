import Vernacular.Proofs.Grammar.Ensures
import Vernacular.Proofs.Grammar.Forward
import Vernacular.Proofs.Tree.Outline

/-!
# Phrases

A `Phrase` is a list of tokens together with the outlines of the trees that it was read as. It says how the tokens
between two places of a run make up outlines: what becomes of each token, and from which tokens a node takes its
stretch. There are three ways to take one. A node goes from its first token to its last, or from the beginning of its
first part to the last token, or from its first part to its second.

- `Outlined c os d`: the tokens between two places are a phrase with the outlines `os`;
- `Parser.Outlines p F`: what the reader `p` goes over is a phrase, with the outlines that `F` finds in its result;
- `Parser.Outlines.step`, `Parser.Outlines.spanned`, `Parser.Outlines.many`: how such readers are put together.
-/

namespace Vernacular

open Grammar Vernacular.Parser

variable {α β : Type}
variable {context : Context} {c d : Cursor} {item : Parser (Option α)}

/-! ## Tokens and outlines -/

/-- The kinds of tokens that are names and literals. -/
def Kind.isContent : Kind → Bool
  | number | string | template | identifier | type | builtin => true
  | _ => false

/-- The same kinds as a list. -/
def contentKinds : List Kind := [.number, .string, .template, .identifier, .type, .builtin]

/-- Tables such as those of operators have no entries for names and literals. -/
theorem Kind.not_isContent_of_some {op? : Kind → Option α} {k : Kind} {op : α} (h : op? k = some op)
    (hop : contentKinds.all (fun k => (op? k).isNone) = true) : k.isContent = false := by
  cases hk : k.isContent with
  | false => rfl
  | true =>
    have hmem : k ∈ contentKinds := by cases k <;> first | decide | cases hk
    have hnone := List.all_eq_true.mp hop k hmem
    rw [h] at hnone
    cases hnone

/-- The texts that a tree may keep of a token. -/
inductive Token.Stored (t : Token) : String → Prop
  | number : t.kind = .number → t.Stored t.text
  | string : t.kind = .string → t.Stored (requoted (unquoted t.text) (quoteOf t.text))
  | template : t.kind = .template → t.Stored (Literal.template (unquoted t.text)).text
  | word : t.kind.isWord = true → t.Stored t.text
  | type : t.kind ∈ typeKinds → t.Stored (bareType t.text)
  | constructor : t.kind = .keyword .construtor → t.Stored "constructor"

/-- The tokens were read as trees with these outlines. -/
inductive Phrase : List Token → List Outline → Prop
  | nil : Phrase [] []
  | append {us vs : List Token} {os ps : List Outline} : Phrase us os → Phrase vs ps → Phrase (us ++ vs) (os ++ ps)
  /-- Keywords and symbols may leave no trace. -/
  | mark {t : Token} : t.kind.isContent = false → Phrase [t] []
  | text {t : Token} {s : String} : t.Stored s → Phrase [t] [.text s]
  /-- A node from its first token to its last. -/
  | node {us : List Token} {os : List Outline} {t u : Token} : Phrase us os → us.head? = some t → us.getLast? = some u →
      Phrase us [.node ⟨t.start, u.stop⟩ os]
  /-- A node from the beginning of its first part to its last token. -/
  | grown {us vs : List Token} {a : Span} {ps os : List Outline} {u : Token} : Phrase us [.node a ps] → Phrase vs os →
      vs.getLast? = some u → Phrase (us ++ vs) [.node ⟨a.start, u.stop⟩ (.node a ps :: os)]
  /-- A node from its first part to its second. -/
  | joined {us vs : List Token} {a b : Span} {ps qs : List Outline} : Phrase us [.node a ps] → Phrase vs [.node b qs] →
      Phrase (us ++ vs) [.node (a.merge b) [.node a ps, .node b qs]]

/-- From the place `c`, past the tokens `us`, one comes to the place `d`. -/
structure Cursor.Over (c : Cursor) (us : List Token) (d : Cursor) : Prop where
  rest : c.rest = us ++ d.rest
  previous : d.previous = us.getLast?.or c.previous

/-- Going over some tokens and then over others. -/
theorem Cursor.Over.trans {e : Cursor} {us vs : List Token} (h : c.Over us d) (h' : d.Over vs e) :
    c.Over (us ++ vs) e where
  rest := by rw [h.rest, h'.rest, List.append_assoc]
  previous := by rw [h'.previous, h.previous, List.getLast?_append, Option.or_assoc]

/-- Reading a token on goes over it. -/
theorem Cursor.Over.advance (h : c.rest ≠ []) : c.Over [c.peek] c.advance.2 := by
  obtain ⟨previous, _ | ⟨t, ts⟩⟩ := c
  · exact absurd rfl h
  · exact ⟨rfl, rfl⟩

/-- The first token is the one that was seen before it was read. -/
theorem Cursor.Over.head? {us : List Token} (h : c.Over us d) (hne : us ≠ []) : us.head? = some c.peek := by
  obtain ⟨t, us, rfl⟩ := List.exists_cons_of_ne_nil hne
  rw [peek, h.rest]
  rfl

/-- The last token is the one before the place. -/
theorem Cursor.Over.exists_last {us : List Token} (h : c.Over us d) (hlt : d.rest.length < c.rest.length) :
    us ≠ [] ∧ ∃ u, us.getLast? = some u ∧ d.previous = some u := by
  have hne : us ≠ [] := by
    rintro rfl
    rw [h.rest] at hlt
    exact absurd hlt (Nat.lt_irrefl _)
  refine ⟨hne, us.getLast hne, List.getLast?_eq_some_getLast hne, ?_⟩
  rw [h.previous, List.getLast?_eq_some_getLast hne]
  rfl

/-- The tokens between the two places are a phrase with these outlines. -/
def Outlined (c : Cursor) (os : List Outline) (d : Cursor) : Prop := ∃ us, c.Over us d ∧ Phrase us os

namespace Outlined

variable {e : Cursor} {os ps : List Outline}

theorem nil : Outlined c [] c := ⟨[], ⟨rfl, rfl⟩, .nil⟩

/-- One phrase behind another. -/
theorem append (h : Outlined c os d) (h' : Outlined d ps e) : Outlined c (os ++ ps) e := by
  obtain ⟨us, hus, hos⟩ := h
  obtain ⟨vs, hvs, hps⟩ := h'
  exact ⟨us ++ vs, hus.trans hvs, hos.append hps⟩

/-- A phrase leaves no more tokens than there were. -/
theorem length_le (h : Outlined c os d) : d.rest.length ≤ c.rest.length := by
  obtain ⟨us, hus, -⟩ := h
  rw [hus.rest, List.length_append]
  exact Nat.le_add_left ..

/-- What leaves no trace may be read on the way. -/
theorem skip (h : Outlined c os d) (h' : Outlined d [] e) : Outlined c os e := by
  simpa using h.append h'

/-- A token that stands for nothing is no part of an outline. -/
theorem advance_mark (h : c.peek.kind.isContent = false) : Outlined c [] c.advance.2 := by
  by_cases hrest : c.rest = []
  · rw [Cursor.advance, hrest]
    exact nil
  · exact ⟨_, .advance hrest, .mark h⟩

/-- A token whose text is kept is a part of the outline. -/
theorem advance_text {s : String} (h : c.peek.Stored s) : Outlined c [.text s] c.advance.2 := by
  refine ⟨_, .advance fun hrest => ?_, .text h⟩
  -- past the end there is nothing to store
  have hkind : c.peek.kind = .eof := by rw [Cursor.peek, hrest]; rfl
  cases h with
  | number hk | string hk | template hk | constructor hk =>
    rw [hkind] at hk
    cases hk
  | word hk =>
    rw [hkind] at hk
    cases hk
  | type hk =>
    rw [hkind] at hk
    exact absurd hk (by decide)

/-- A node over what was read. -/
theorem node (h : Outlined c os d) (hlt : d.rest.length < c.rest.length) :
    Outlined c [.node (d.spanFrom c.peek.start) os] d := by
  obtain ⟨us, hus, hos⟩ := h
  obtain ⟨hne, u, hu, hprevious⟩ := hus.exists_last hlt
  rw [Cursor.spanFrom, hprevious]
  exact ⟨us, hus, hos.node (hus.head? hne) hu⟩

/-- A node over one token. -/
theorem advance_node (h : Outlined c os c.advance.2) (hk : c.peek.kind ≠ .eof) :
    Outlined c [.node c.peek.span os] c.advance.2 := by
  have hspan : c.advance.2.spanFrom c.peek.start = c.peek.span := by
    obtain ⟨previous, _ | ⟨t, ts⟩⟩ := c
    · exact absurd rfl hk
    · rfl
  exact hspan ▸ h.node (Cursor.advance_rest_lt hk)

/-- A node grows by what was read behind it, to where that ends. -/
theorem grown {a : Span} (h : Outlined c [.node a ps] d) (h' : Outlined d os e) (hlt : e.rest.length < d.rest.length) :
    Outlined c [.node (e.spanFrom a.start) (.node a ps :: os)] e := by
  obtain ⟨us, hus, hps⟩ := h
  obtain ⟨vs, hvs, hos⟩ := h'
  obtain ⟨-, u, hu, hprevious⟩ := hvs.exists_last hlt
  rw [Cursor.spanFrom, hprevious]
  exact ⟨us ++ vs, hus.trans hvs, hps.grown hos hu⟩

/-- Two nodes are joined to one that reaches from the first to the second. -/
theorem joined {a b : Span} {qs : List Outline} (h : Outlined c [.node a ps] d) (h' : Outlined d [.node b qs] e) :
    Outlined c [.node (a.merge b) [.node a ps, .node b qs]] e := by
  obtain ⟨us, hus, hps⟩ := h
  obtain ⟨vs, hvs, hqs⟩ := h'
  exact ⟨us ++ vs, hus.trans hvs, hps.joined hqs⟩

end Outlined

/-! ## Readers -/

namespace Parser

/-- What the reader goes over is a phrase, with the outlines that `F` finds in its result. -/
def Outlines (p : Parser α) (F : α → List Outline) : Prop := ∀ c a d, p c = .ok a d → Outlined c (F a) d

/-- The reader only looks. -/
class Still (p : Parser α) : Prop where
  eq : ∀ c a d, p c = .ok a d → d = c

instance : Still kind := ⟨by rintro c a d ⟨⟩; rfl⟩

instance : Still peek := ⟨by rintro c a d ⟨⟩; rfl⟩

instance : Still (get : Parser Cursor) := ⟨by rintro c a d ⟨⟩; rfl⟩

instance : Still position := ⟨by rintro c a d ⟨⟩; rfl⟩

instance : Still onNewLine := ⟨by rintro c a d ⟨⟩; rfl⟩

instance {k : Kind} : Still (check k) := ⟨by rintro c a d ⟨⟩; rfl⟩

instance : Still atEnd := inferInstanceAs (Still (check .eof))

instance {start : Position} : Still (spanFrom start) := ⟨by rintro c a d ⟨⟩; rfl⟩

instance {e : Expr} : Still (assignable e) where
  eq c a d h := by
    unfold assignable at h
    split at h <;> cases h
    rfl

/-- A reader that only looks changes nothing. -/
theorem Ensures.still {p : Parser α} [hp : Still p] {f : α → Parser β} {P : Cursor → Prop} {Q : β → Cursor → Prop}
    (hf : ∀ a, Ensures P (f a) Q) : Ensures P (p >>= f) Q := by
  intro c b d hc h
  obtain ⟨a, c', ha, hrun⟩ := ok_of_bind h
  obtain rfl := hp.eq c a c' ha
  exact hf a c' b d hc hrun

/-- What one round of a repetition adds to an accumulation, the repetition adds round by round. -/
theorem Ensures.many_foldl {I : β → Cursor → Prop} {g : β → α → β}
    (h : ∀ b, Ensures (I b) item fun o c => I (o.toList.foldl g b) c) (b : β) :
    Ensures (I b) (Parser.many item) fun as c => I (as.foldl g b) c := by
  have hwithin (budget : List Token) (b : β) :
      Ensures (I b) (Parser.manyWithin item budget) fun as c => I (as.foldl g b) c := by
    induction budget generalizing b with
    | nil =>
      refine .bind (h b) fun o => ?_
      cases o with
      | none => exact .pure fun c hc => hc
      | some a => exact .pure fun c hc => hc
    | cons _ budget ih =>
      refine .bind (h b) fun o => ?_
      cases o with
      | none => exact .pure fun c hc => hc
      | some a => exact .bind (ih (g b a)) fun as => .pure fun c hc => hc
  exact .still fun _ => hwithin _ b

namespace Outlines

variable {p : Parser α} {f : α → Parser β} {F : α → List Outline} {G : α → Outline} {c₀ : Cursor} {os : List Outline}
  {Q : β → Cursor → Prop}

/-- What was read before a reader begins stays in front of what it reads. -/
protected theorem ensures (h : Outlines p F) : Ensures (Outlined c₀ os) p fun a d => Outlined c₀ (os ++ F a) d :=
  fun c a d hc hrun => hc.append (h c a d hrun)

/-- What is known beside the phrase is not needed. -/
theorem known {K : Cursor → Prop} (h : Outlines p F) :
    Ensures (fun c => Outlined c₀ os c ∧ K c) p fun a d => Outlined c₀ (os ++ F a) d :=
  h.ensures.strengthen fun _ hc => hc.1

/-- A reader goes over what it goes over from any place. -/
theorem of_ensures (h : ∀ c₀, Ensures (Outlined c₀ []) p fun a d => Outlined c₀ (F a) d) : Outlines p F :=
  fun c a d hrun => h c c a d .nil hrun

theorem congr {F' : α → List Outline} (h : Outlines p F) (heq : ∀ a, F a = F' a) : Outlines p F' :=
  fun c a d hrun => heq a ▸ h c a d hrun

/-- What a step reads stands behind what was read before. -/
theorem step (hp : Outlines p F) (hf : ∀ a, Ensures (Outlined c₀ (os ++ F a)) (f a) Q) :
    Ensures (Outlined c₀ os) (p >>= f) Q :=
  Ensures.bind hp.ensures hf

/-- A step that leaves no trace. -/
theorem skip (hp : Outlines p fun _ => []) (hf : ∀ a, Ensures (Outlined c₀ os) (f a) Q) :
    Ensures (Outlined c₀ os) (p >>= f) Q :=
  hp.step fun a => by simpa using hf a

theorem tooDeep : Outlines (tooDeep context) F := by
  intro c a d h
  cases h

/-! ## Nodes -/

/-- The whole of what was read since `c₀` is one node. -/
def Whole (c₀ : Cursor) (F : α → List Outline) (a : α) (d : Cursor) : Prop :=
  ∃ os, Outlined c₀ os d ∧ F a = [.node (d.spanFrom c₀.peek.start) os]

/-- A node that was read as a whole and is not empty is a phrase. -/
theorem Whole.outlined {a : α} (h : Whole c₀ F a d) (hlt : d.rest.length < c₀.rest.length) : Outlined c₀ (F a) d := by
  obtain ⟨os, hos, hF⟩ := h
  rw [hF]
  exact hos.node hlt

/-- A reader that may take the stretch from where it began. -/
theorem mayspan {f : Position → Parser α} [hp : Progress p] (heq : p = position >>= f)
    (h : ∀ c₀, Ensures (Outlined c₀ []) (f c₀.peek.start) fun a d => Whole c₀ F a d ∨ Outlined c₀ (F a) d) :
    Outlines p F := by
  intro c a d hrun
  have hlt := hp.lt c a d hrun
  subst heq
  exact (h c c a d .nil hrun).elim (fun hwhole => hwhole.outlined hlt) id

/-- A reader that takes the stretch from where it began. -/
theorem spanned {f : Position → Parser α} [Progress p] (heq : p = position >>= f)
    (h : ∀ c₀, Ensures (Outlined c₀ []) (f c₀.peek.start) (Whole c₀ F)) : Outlines p F :=
  mayspan heq fun c₀ => (h c₀).mono fun _ _ => .inl

/-- At the end of such a reader. -/
theorem close {mk : Span → α} (h : ∀ s, F (mk s) = [.node s os]) :
    Ensures (Outlined c₀ os) (spanFrom c₀.peek.start >>= fun s => pure (mk s)) (Whole c₀ F) := by
  rintro c _ _ hc ⟨⟩
  exact ⟨os, hc, h _⟩

/-! ## Single tokens -/

/-- A token that has to be there and stands for nothing. -/
theorem expect_mark {allowed : List Kind} (h : ∀ k ∈ allowed, k.isContent = false) :
    Outlines (expect allowed context) fun _ => [] := by
  refine of_ensures fun c₀ => .expect fun c hc hk => hc.skip (.advance_mark (h _ hk))

theorem expectSymbol {s : Symbol} : Outlines (expectSymbol s context) fun _ => [] :=
  expect_mark (by simp [Kind.isContent])

theorem accept {k : Kind} (h : k.isContent = false) : Outlines (accept k) fun _ => [] := by
  refine of_ensures fun c₀ => .accept (fun c hc hk => hc.skip (.advance_mark (hk ▸ h))) fun c hc _ => hc

/-- A word that names a property is kept. -/
theorem propertyWord : Outlines (propertyWord context) fun t => [.text t.text] :=
  of_ensures fun _ => .propertyWord fun _ hc hw => hc.append (.advance_text (.word hw))

/-- A word with its own place. -/
theorem expect_node {allowed : List Kind} (h : ∀ k ∈ allowed, k.isWord = true) :
    Outlines (expect allowed context) fun t => [.node t.span [.text t.text]] := by
  refine of_ensures fun c₀ => .expect fun c hc hk => hc.append (.advance_node (.advance_text (.word (h _ hk))) ?_)
  intro heof
  exact absurd (h _ hk) (by rw [heof]; exact Bool.false_ne_true)

/-- A name is kept with its place. -/
theorem identifier : Outlines (identifier context) fun id => [id.outline] :=
  of_ensures fun c₀ => (expect_node (by simp [Kind.isWord])).step fun t => .pure fun c hc => hc

/-! ## Repetition -/

/-- Repetition: the outlines of the items in a row. -/
theorem many (h : Outlines item fun o => o.toList.flatMap F) : Outlines (many item) fun as => as.flatMap F := by
  refine of_ensures fun c₀ => ?_
  have hround (os : List Outline) : Ensures (Outlined c₀ os) item fun o d =>
      Outlined c₀ (o.toList.foldl (fun os a => os ++ F a) os) d :=
    h.ensures.mono fun o d hd => by cases o <;> simpa using hd
  exact (Ensures.many_foldl hround []).mono fun as d hd => List.flatMap_eq_foldl ▸ hd

theorem many_map (h : Outlines item fun o => o.toList.map G) : Outlines (Parser.many item) fun as => as.map G :=
  (many (h.congr fun _ => List.map_eq_flatMap)).congr fun _ => List.map_eq_flatMap.symm

/-- Rounds that leave no trace. -/
theorem many_marks (h : Outlines item fun _ => []) : Outlines (Parser.many item) fun _ => [] :=
  (many (F := fun _ => []) (h.congr fun o => by cases o <;> rfl)).congr fun as => by simp

theorem absent : Ensures (Outlined c₀ os) (pure (none : Option α)) fun o d => Outlined c₀ (os ++ o.toList.map G) d :=
  Ensures.pure fun c hc => by simpa using hc

/-- What may be missing is there. -/
theorem present (h : Outlines p fun a => [G a]) :
    Ensures (Outlined c₀ os) (p >>= fun a => pure (some a)) fun o d => Outlined c₀ (os ++ o.toList.map G) d :=
  h.step fun _ => .pure fun _ hc => hc

/-- Items with commas between them. The commas stand for nothing. -/
theorem commaList {closing : Symbol} (h : Outlines p fun a => [G a]) :
    Outlines (commaList closing p) fun as => as.map G := by
  refine of_ensures fun c₀ => .still fun closed => .ite (fun _ => .pure fun c hc => hc) fun _ => h.step fun first => ?_
  refine (many_map (G := G) (of_ensures fun c₁ => ?_)).step fun others => .pure fun c hc => by simpa using hc
  exact (accept rfl).skip fun b =>
    .ite (fun _ => .still fun _ => .ite (fun _ => absent) fun _ => h.present) fun _ => absent

theorem afterCommas (h : Outlines p fun a => [G a]) : Outlines (afterCommas p) fun as => as.map G :=
  many_map (of_ensures fun _ => (accept rfl).skip fun _ => .ite (fun _ => h.present) fun _ => absent)

theorem skipSemicolons : Outlines skipSemicolons fun _ => [] := by
  refine of_ensures fun c₀ => (many_marks (of_ensures fun c₁ => ?_)).skip fun _ => .pure fun c hc => hc
  exact (accept rfl).skip fun b => .ite (fun _ => .pure fun c hc => hc) fun _ => .pure fun c hc => hc

/-- Items up to a closing brace or the end, among any number of semicolons. -/
theorem separated (h : Outlines p fun a => [G a]) : Outlines (separated p) fun as => as.map G := by
  refine of_ensures fun c₀ => skipSemicolons.skip fun _ => (many_map (G := G) (of_ensures fun c₁ => ?_)).ensures
  refine .still fun b => .still fun b' => .ite (fun _ => absent) fun _ => h.step fun a =>
    skipSemicolons.skip fun _ => ?_
  exact .pure fun c hc => hc

/-- A part that is there if a token of kind `k` is. -/
theorem optional {k : Kind} (hk : k.isContent = false) {K : Option α → Parser β} (h : Outlines p fun a => [G a])
    (hK : ∀ o, Ensures (Outlined c₀ (os ++ o.toList.map G)) (K o) Q) :
    Ensures (Outlined c₀ os)
      (Parser.accept k >>= fun b => if b = true then p >>= fun a => pure (some a) >>= K else pure none >>= K) Q :=
  (accept hk).skip fun b => .ite (fun _ => h.step fun a => hK (some a)) fun _ => by simpa using hK none

/-! ## Names of types -/

/-- Brackets behind the name of a type stand for nothing. -/
theorem brackets : Ensures (Outlined c₀ os) brackets fun o d => (∀ s ∈ o, s = "[]") ∧ Outlined c₀ os d := by
  refine .bind Ensures.get fun c => .ite (fun hk => ?_) fun _ => .pure fun d hd => ⟨nofun, hd.1⟩
  refine .bind (Q := fun _ d => Outlined c₀ os d ∧ d.peek.kind = .symbol .rightBracket) (.advance ?_) fun _ => ?_
  · rintro d ⟨hd, rfl⟩
    exact ⟨hd.skip (.advance_mark (by rw [hk.1]; rfl)), by rw [Cursor.peek_advance, hk.2]⟩
  · refine .bind (Q := fun _ => Outlined c₀ os) (.advance fun d hd => ?_) fun _ => .pure fun d hd => ⟨by simp, hd⟩
    exact hd.1.skip (.advance_mark (by rw [hd.2]; rfl))

/-- The name of a type is kept without its brackets. -/
theorem typeName : Outlines typeName fun id => [id.typeOutline] := by
  refine spanned typeName_eq fun c₀ => ?_
  refine .bind (Q := fun t => Outlined c₀ [.text (bareType t.text)]) (.expect fun c hc hk => ?_) fun t => ?_
  · exact hc.append (.advance_text (.type hk))
  · refine .bind (.many brackets) fun lists => .of_and fun hlists => close fun s => ?_
    rw [Ident.typeOutline, bareType_foldl hlists]

theorem optionalType : Outlines optionalType fun o => o.toList.map Ident.typeOutline :=
  of_ensures fun _ => (accept rfl).skip fun _ => .ite (fun _ => typeName.present) fun _ => absent

end Outlines

end Parser

end Vernacular
