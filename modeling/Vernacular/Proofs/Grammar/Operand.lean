import Vernacular.Proofs.Grammar.Meets
import Vernacular.Proofs.Grammar.Yields
import Vernacular.Proofs.Script.Marks

/-!
# Reading operands

Marks are read as expressions that bind at least as tightly as calls. What is read is compared without its places.

A reader that takes one part of an expression after the other cannot be said to read the first parts alone: it goes on
at once. So `IsPrimary`, `IsUnder` and `IsCall` say how far the reader has got behind the marks, with what is still to
do as a condition on the place that is reached.

- `IsAtom`: expressions that are complete in themselves, parentheses included;
- `IsPrimary`: the same and constructions, under any number of words that begin one;
- `IsUnder`: what may stand under such a word without parentheses;
- `IsCall`: chains of calls and properties.
-/

namespace Vernacular

open Grammar Vernacular.Parser

variable {α β : Type}
variable {t : Expr} {ms : List Mark} {mss : List (List Mark)} {ts : List Expr} {l : Link}

/-! ## Kinds that go on an expression, and kinds that begin one -/

/-- How tightly a kind goes on the expression before it; `0` if it does not. -/
def Kind.power : Kind → Nat
  | .symbol .leftParen | .symbol .leftBracket | .symbol .dot | .symbol .optionalChain => 17
  | .symbol .increment | .symbol .decrement => 16
  | .symbol .exponent => 13
  | .symbol .star | .symbol .slash | .symbol .percent => 12
  | .symbol .plus | .symbol .minus => 11
  | .symbol .leftShift | .symbol .rightShift | .symbol .unsignedRightShift => 10
  | .symbol .less | .symbol .lessEqual | .symbol .greater | .symbol .greaterEqual | .keyword .instanciaDe => 9
  | .symbol .equal | .symbol .notEqual | .symbol .strictEqual | .symbol .strictNotEqual => 8
  | .symbol .ampersand => 7
  | .symbol .pipe => 5
  | .symbol .logicalAnd => 4
  | .symbol .logicalOr | .symbol .nullishCoalescing => 3
  | .symbol .assign | .symbol .plusAssign | .symbol .minusAssign | .symbol .starAssign | .symbol .slashAssign
  | .symbol .percentAssign => 2
  | _ => 0

/-- The kinds with which an expression begins that is no operator in front of its operand. -/
def Kind.opensOperand : Kind → Bool
  | .number | .string | .template | .identifier | .builtin | .type => true
  | .keyword .verdadeiro | .keyword .falso | .keyword .nulo | .keyword .isso | .keyword .super | .keyword .get
  | .keyword .set | .keyword .funcao | .keyword .novo => true
  | .symbol .leftParen | .symbol .leftBracket | .symbol .leftBrace => true
  | _ => false

/-- The kinds with which an expression begins. -/
def Kind.opensExpr (k : Kind) : Bool := k.opensOperand || (unaryOp? k).isSome || (updateOp? k).isSome

/-- What opens an operand is no operator in front of one. -/
theorem Kind.not_operator_of_opensOperand {k : Kind} (h : k.opensOperand = true) :
    unaryOp? k = none ∧ updateOp? k = none := by
  constructor
  · cases hop : unaryOp? k with
    | none => rfl
    | some op =>
      unfold unaryOp? at hop
      split at hop <;> cases hop <;> cases h
  · cases hop : updateOp? k with
    | none => rfl
    | some op =>
      unfold updateOp? at hop
      split at hop <;> cases hop <;> cases h

/-- The marks begin with one of these kinds; a brace and the word for a function are written as in generated code. -/
def Opens (P : Kind → Bool) (ms : List Mark) : Prop :=
  ∃ m rest, ms = m :: rest ∧ P m.kind = true ∧ (m.kind = .symbol .leftBrace → m.text = r"{") ∧
    (m.kind = .keyword .funcao → m.text = "function")

namespace Opens

variable {P : Kind → Bool}

/-- How marks begin does not depend on what is put behind them. -/
theorem append (h : Opens P ms) (more : List Mark) : Opens P (ms ++ more) := by
  obtain ⟨m, rest, rfl, hm⟩ := h
  exact ⟨m, rest ++ more, rfl, hm⟩

theorem ne_nil (h : Opens P ms) : ms ≠ [] := by
  obtain ⟨m, rest, rfl, -⟩ := h
  exact List.cons_ne_nil m rest

theorem kindOf (h : Opens P ms) : P (kindOf ms) = true := by
  obtain ⟨m, rest, rfl, hm, -⟩ := h
  exact hm

/-- The kind that a reader sees first. -/
theorem kindOf_append (h : Opens P ms) (more : List Mark) : P (Vernacular.kindOf (ms ++ more)) = true :=
  (h.append more).kindOf

/-- A kind that begins nothing does not begin the marks. -/
theorem kindOf_ne (h : Opens P ms) {k : Kind} (hk : P k = false) : Vernacular.kindOf ms ≠ k := by
  rintro rfl
  rw [h.kindOf] at hk
  cases hk

theorem mono (h : Opens P ms) {P' : Kind → Bool} (hp : ∀ k, P k = true → P' k = true) : Opens P' ms := by
  obtain ⟨m, rest, rfl, hm, ht⟩ := h
  exact ⟨m, rest, rfl, hp _ hm, ht⟩

theorem symbol {s : Symbol} (h : P (.symbol s) = true) (ms : List Mark) : Opens P (.symbol s :: ms) := by
  refine ⟨_, _, rfl, h, fun hs => ?_, nofun⟩
  cases hs
  rfl

theorem expr (h : Opens Kind.opensOperand ms) : Opens Kind.opensExpr ms :=
  h.mono fun k hk => by simp [Kind.opensExpr, hk]

end Opens

/-! ## Lists -/

/-- What stands behind the first item of a list: further items, each behind a comma. -/
def commaTail (mss : List (List Mark)) : List Mark := (mss.map fun ms => .symbol .comma :: ms).flatten

/-- The first item, and the others with a comma before each. -/
theorem commaMarks_cons (ms : List Mark) (mss : List (List Mark)) : commaMarks (ms :: mss) = ms ++ commaTail mss := by
  induction mss generalizing ms with
  | nil => simp [commaMarks, commaTail]
  | cons ns mss ih => rw [commaMarks, ih, commaTail, commaTail, List.map_cons, List.flatten_cons, List.cons_append]

/-- The kinds that may stand behind an item. -/
def Kind.Ends (k : Kind) : Prop := k.power < 2 ∧ k ≠ .symbol .colon

/-- The items of a list, read one by one. -/
abbrev ReadAll (item : Parser α) (view : α → β) : List (List Mark) → List β → Prop :=
  List.Forall₂ fun ms b => Reads item ms Kind.Ends (view · = b) ∧ ms ≠ [] ∧
    ∀ s ∈ [Symbol.rightParen, .rightBracket, .rightBrace], kindOf ms ≠ .symbol s

section ReadAll

variable {item : Parser α} {view : α → β} {bs : List β}

/-- A reader for what stands behind a comma reads all further items. -/
theorem ReadAll.steps {step : Parser (Option α)} (h : ReadAll item view mss bs)
    (hstep : ∀ (ms : List Mark) (b : β), Reads item ms Kind.Ends (view · = b) → ms ≠ [] →
      (∀ s ∈ [Symbol.rightParen, .rightBracket, .rightBrace], kindOf ms ≠ .symbol s) →
      Reads step (.symbol .comma :: ms) Kind.Ends fun o => ∃ a, o = some a ∧ view a = b) :
    Steps step Kind.Ends view (mss.map fun ms => .symbol .comma :: ms) bs := by
  refine List.forall₂_map_left_iff.mpr (h.imp fun ms b ⟨hread, hne, hclosing⟩ => ?_)
  exact ⟨hstep ms b hread hne hclosing, List.cons_ne_nil _ _, (by decide : 0 < 2), nofun⟩

/-- Further items, each behind a comma. -/
theorem reads_afterCommas (h : ReadAll item view mss bs) :
    Reads (afterCommas item) (commaTail mss) (fun k => k.Ends ∧ k ≠ .symbol .comma) fun as => as.map view = bs := by
  intro c more hc hf
  refine .many (.steps ?_ hf.1 (h.steps fun ms b hread _ _ c more hc hf => ?_) hc ?_ fun as c' has hc' => ⟨has, hc'⟩)
  · exact fun c hc => .bind (.accept_false hc hf.2 (.pure ⟨rfl, hc⟩))
  · refine .bind (.accept_true hc rfl fun c' hc' => .bind (hread.meets hc' hf fun a c'' ha hc'' => ?_))
    exact .pure ⟨⟨a, rfl, ha⟩, hc''⟩
  · rw [hc.length, List.length_append]
    exact Nat.le_add_right _ _

/-- A list up to its closing symbol. -/
theorem reads_commaList {closing : Symbol} (hclosing : closing ∈ [Symbol.rightParen, .rightBracket, .rightBrace])
    (h : ReadAll item view mss bs) :
    Reads (commaList closing item) (commaMarks mss) (· = .symbol closing) fun as => as.map view = bs := by
  intro c more hc hf
  have hend : (kindOf more).Ends ∧ kindOf more ≠ .symbol .comma := by
    rw [hf]
    simp only [List.mem_cons, List.not_mem_nil, or_false] at hclosing
    rcases hclosing with rfl | rfl | rfl <;> exact ⟨⟨by decide, by decide⟩, by decide⟩
  cases h with
  | nil => exact .bind (.check_true hc hf (.pure ⟨rfl, hc⟩))
  | @cons ms b mss bs hfirst hrest =>
    obtain ⟨hread, hne, hopen⟩ := hfirst
    rw [commaMarks_cons, List.append_assoc] at hc
    have hfirst : kindOf (ms ++ (commaTail mss ++ more)) ≠ .symbol closing := by
      rw [kindOf_append hne]
      exact hopen closing hclosing
    have hnext : (kindOf (commaTail mss ++ more)).Ends := by
      cases mss with
      | nil => exact hend.1
      | cons => exact ⟨(by decide : 0 < 2), nofun⟩
    refine .bind (.check_false hc hfirst (.ite_neg Bool.false_ne_true ?_))
    refine .bind (hread.meets hc hnext fun a c' ha hc' => .bind (.many ?_))
    refine .steps ?_ hend.1 (ReadAll.steps hrest fun ms b hread hne hopen c more hc hf => ?_) hc' ?_
      fun as c'' has hc'' => .pure ⟨by show view a :: as.map view = _; rw [ha, has], hc''⟩
    · exact fun c hc => .bind (.accept_false hc hend.2 (.pure ⟨rfl, hc⟩))
    · refine .bind (.accept_true hc rfl fun c' (hc' : c'.Fits (ms ++ more)) => ?_)
      refine .bind (.check_false hc' (by rw [kindOf_append hne]; exact hopen closing hclosing) ?_)
      refine .bind (hread.meets hc' hf fun a c'' ha hc'' => .pure ⟨⟨a, rfl, ha⟩, hc''⟩)
    · rw [hc'.length, List.length_append]
      exact Nat.le_add_right _ _

end ReadAll

/-! ## Parts that are read one level further in -/

/-- The marks are read as the expression by whatever level comes next. -/
def IsExpr (ms : List Mark) (t : Expr) : Prop :=
  Opens Kind.opensExpr ms ∧ ∀ n, Reads (level n).expression ms (·.power < 2) (·.bare = t)

/-- Expressions, one by one. -/
abbrev AreExprs : List (List Mark) → List Expr → Prop := List.Forall₂ IsExpr

/-- Expressions with commas between them are read one by one. -/
theorem AreExprs.readAll (h : AreExprs mss ts) (n : Nat) : ReadAll (level n).expression Expr.bare mss ts := by
  refine h.imp fun ms t ht => ⟨fun c more hc hf => ht.2 n c more hc hf.1, ht.1.ne_nil, fun s hs => ht.1.kindOf_ne ?_⟩
  simp only [List.mem_cons, List.not_mem_nil, or_false] at hs
  rcases hs with rfl | rfl | rfl <;> rfl

theorem exprsBare_eq_map (es : List Expr) : exprsBare es = es.map Expr.bare := by
  induction es with
  | nil => rfl
  | cons e es ih => rw [exprsBare, ih, List.map_cons]

/-- Arguments in parentheses. -/
theorem reads_arguments (h : AreExprs mss ts) (n : Nat) :
    Reads (arguments (level n)) (inParens true (commaMarks mss)) (fun _ => True) (exprsBare · = ts) := by
  intro c more hc _
  rw [inParens_append] at hc
  refine .bind (.expectSymbol hc fun _ c hc => ?_)
  refine .bind ((reads_commaList (by decide) (h.readAll n)).meets hc rfl fun args c hargs hc => ?_)
  exact .bind (.expectSymbol hc fun _ c hc => .pure ⟨(exprsBare_eq_map args).trans hargs, hc⟩)

/-! ## Atoms -/

/-- The marks are read as an expression that is complete in itself. -/
def IsAtom (ms : List Mark) (t : Expr) : Prop :=
  Opens Kind.opensOperand ms ∧ kindOf ms ≠ .keyword .novo ∧ ∀ n, Reads (atom (level n)) ms (fun _ => True) (·.bare = t)

/-- A single mark that stands for an expression. -/
theorem isAtom_simple {m : Mark} (hopens : Opens Kind.opensOperand [m]) (hnew : m.kind ≠ .keyword .novo)
    (h : ∀ start stop, (simple? ⟨m.kind, m.text, start, stop⟩).map Expr.bare = some t) : IsAtom [m] t := by
  refine ⟨hopens, hnew, fun n c more hc _ => .bind (.peek hc fun tok hkind htext => ?_)⟩
  have hsimple := h tok.start tok.stop
  rw [← hkind, ← htext] at hsimple
  obtain ⟨e, he, hbare⟩ := Option.map_eq_some_iff.mp hsimple
  simp only [show simple? tok = some e from he]
  exact .bind (.advance hc fun _ c _ _ hc => .pure ⟨hbare, hc⟩)

theorem simple?_symbol {tok : Token} {s : Symbol} (h : tok.kind = .symbol s) : simple? tok = none := by
  unfold simple?
  rw [h]

/-- An expression in parentheses is read as the expression. -/
theorem IsExpr.isAtom (h : IsExpr ms t) : IsAtom (inParens true ms) t := by
  refine ⟨.symbol rfl _, nofun, fun n c more hc _ => ?_⟩
  rw [inParens_append] at hc
  refine .bind (.peek hc fun tok hkind _ => ?_)
  rw [simple?_symbol hkind, hkind]
  refine .bind (.advance hc fun _ c _ _ hc => .bind ((h.2 n).meets hc Nat.zero_lt_two fun e c he hc => ?_))
  exact .bind (.expectSymbol hc fun _ c hc => .pure ⟨he, hc⟩)

/-- The quotes of a string can be taken off and told from it. -/
theorem unquoted_requoted (s : String) (q : Char) : unquoted (requoted s q) = s ∧ quoteOf (requoted s q) = q := by
  have htext : (requoted s q).toList = q :: (s.toList ++ [q]) := by simp [requoted]
  refine ⟨String.toList_inj.mp ?_, ?_⟩
  · simp [unquoted, htext]
  · simp [quoteOf, htext]

/-- Marks that begin with a word. The word for a function is written in one way only. -/
theorem Opens.word {P : Kind → Bool} {w : String} (h : P (.ofWord w) = true)
    (hw : Kind.ofWord w = .keyword .funcao → w = "function") (ms : List Mark) : Opens P (.word w :: ms) := by
  refine ⟨_, _, rfl, h, fun hk => ?_, hw⟩
  have hword := Kind.isWord_ofWord w
  rw [show Kind.ofWord w = _ from hk] at hword
  cases hword

/-- A keyword that stands for an expression. -/
theorem isAtom_keyword {w : String} {k : Keyword} (hspelt : w ∈ k.spellings)
    (hopens : Kind.opensOperand (.keyword k) = true) (hnew : k ≠ .novo) (hfunction : k ≠ .funcao)
    (h : ∀ start stop, (simple? ⟨.keyword k, w, start, stop⟩).map Expr.bare = some t) : IsAtom [.word w] t := by
  have hk := Kind.ofWord_of_mem hspelt
  refine isAtom_simple (.word (by rwa [hk]) (fun hw => ?_) []) ?_ ?_
  · rw [hk] at hw
    exact absurd (Kind.keyword.inj hw) hfunction
  · rw [Mark.word, hk]
    exact fun hw => hnew (Kind.keyword.inj hw)
  · rw [Mark.word, hk]
    exact h

/-- A literal is a single token. -/
theorem isAtom_literal (value : Literal) : IsAtom [value.mark] (.literal value default) := by
  cases value with
  | number s => exact isAtom_simple ⟨_, _, rfl, rfl, by rintro ⟨⟩, by rintro ⟨⟩⟩ (by rintro ⟨⟩) fun _ _ => rfl
  | string s q =>
    refine isAtom_simple ⟨_, _, rfl, rfl, by rintro ⟨⟩, by rintro ⟨⟩⟩ (by rintro ⟨⟩) fun _ _ => ?_
    simp only [Literal.mark, quotedMark, simple?, unquoted_requoted, Option.map_some, Expr.bare]
  | template s =>
    refine isAtom_simple ⟨_, _, rfl, rfl, by rintro ⟨⟩, by rintro ⟨⟩⟩ (by rintro ⟨⟩) fun _ _ => ?_
    simp only [Literal.mark, quotedMark, simple?, unquoted_requoted, Option.map_some, Expr.bare]
  | boolean b =>
    cases b with
    | true => exact isAtom_keyword (k := .verdadeiro) (.tail _ (.head _)) rfl (by decide) (by decide) fun _ _ => rfl
    | false => exact isAtom_keyword (k := .falso) (.tail _ (.head _)) rfl (by decide) (by decide) fun _ _ => rfl
  | null => exact isAtom_keyword (k := .nulo) (.tail _ (.head _)) rfl (by decide) (by decide) fun _ _ => rfl

theorem isAtom_this : IsAtom [.word "this"] (.this default) :=
  isAtom_keyword (k := .isso) (.tail _ (.head _)) rfl nofun nofun fun _ _ => rfl

theorem isAtom_super : IsAtom [.word "super"] (.super default) :=
  isAtom_keyword (k := .super) (.head _) rfl nofun nofun fun _ _ => rfl

/-- A name. -/
theorem isAtom_ident {name : String} (h : Kind.ofWord name ∈ identKinds) :
    IsAtom [.word name] (.ident name default) := by
  simp only [identKinds, List.mem_cons, List.not_mem_nil, or_false] at h
  have hsimple {k : Kind} (hk : Kind.ofWord name = k) (hopens : k.opensOperand = true)
      (hne : k ≠ .keyword .novo ∧ k ≠ .keyword .funcao)
      (hs : ∀ start stop, simple? ⟨k, name, start, stop⟩ = some (.ident name ⟨start, stop⟩)) :
      IsAtom [.word name] (.ident name default) := by
    subst hk
    exact isAtom_simple (.word hopens (fun hw => absurd hw hne.2) []) hne.1 fun start stop => by rw [Mark.word, hs]; rfl
  rcases h with h | h | h | h | h
  · exact hsimple h rfl ⟨nofun, nofun⟩ fun _ _ => rfl
  · exact hsimple h rfl ⟨nofun, nofun⟩ fun _ _ => rfl
  · exact hsimple h rfl ⟨nofun, nofun⟩ fun _ _ => rfl
  · exact hsimple h rfl ⟨nofun, nofun⟩ fun _ _ => rfl
  · exact hsimple h rfl ⟨nofun, nofun⟩ fun _ _ => rfl

/-- An array literal. -/
theorem isAtom_array (h : AreExprs mss ts) :
    IsAtom (Mark.symbol .leftBracket :: commaMarks mss ++ [Mark.symbol .rightBracket]) (.array ts default) := by
  refine ⟨.symbol rfl _, nofun, fun n c more hc _ => .bind (.peek hc fun tok hkind _ => ?_)⟩
  rw [List.append_assoc] at hc
  rw [simple?_symbol hkind, hkind]
  refine .bind (.position fun _ => .bind (.expectSymbol hc fun _ c hc => .bind ?_))
  refine (reads_commaList (by decide) (h.readAll n)).meets hc rfl fun items c hitems hc => ?_
  refine .bind (.expectSymbol hc fun _ c hc => .bind (.spanFrom fun _ => .pure ⟨?_, hc⟩))
  simp only [Expr.bare, exprsBare_eq_map, hitems]

/-- A key and its value, without places. -/
def Property.bare (p : Property) : Property := ⟨p.key, p.value.bare, default⟩

theorem propertiesBare_eq_map (ps : List Property) : propertiesBare ps = ps.map Property.bare := by
  induction ps with
  | nil => rfl
  | cons p ps ih =>
    obtain ⟨key, value, span⟩ := p
    rw [propertiesBare, ih]
    rfl

/-- A key is read from its mark. -/
theorem objectKey?_mark (key : ObjectKey) {tok : Token} (hkind : tok.kind = key.mark.kind)
    (htext : tok.text = key.mark.text) : objectKey? tok = some key := by
  unfold objectKey?
  rw [hkind, htext]
  cases key with
  | name s =>
    have hword := Kind.isWord_ofWord s
    simp only [ObjectKey.mark, Mark.word]
    split
    · rename_i hk
      rw [hk] at hword
      cases hword
    · rename_i hk
      rw [hk] at hword
      cases hword
    · rw [if_pos hword]
  | string s q => simp only [ObjectKey.mark, quotedMark, unquoted_requoted]
  | number s => rfl

/-- Keys with their values, one by one. -/
abbrev AreEntries : List (List Mark) → List Property → Prop :=
  List.Forall₂ fun ms p => ∃ key vs t, ms = key.mark :: .symbol .colon :: vs ∧ IsExpr vs t ∧ p = ⟨key, t, default⟩

/-- Entries of an object literal are read one by one. -/
theorem AreEntries.readAll {ps : List Property} (h : AreEntries mss ps) (n : Nat) :
    ReadAll (property (level n)) Property.bare mss ps := by
  refine h.imp fun ms p ⟨key, vs, t, hms, hv, hp⟩ => ?_
  subst hms hp
  refine ⟨fun c more hc hf => ?_, List.cons_ne_nil _ _, fun s _ => ?_⟩
  · refine .bind (.position fun _ => .bind (.peek hc fun tok hkind htext => ?_))
    simp only [objectKey?_mark key hkind htext]
    refine .bind (.advance hc fun _ c _ _ hc => .bind (.expectSymbol hc fun _ c hc => ?_))
    refine .bind ((hv.2 n).meets hc hf.1 fun e c he hc => .bind (.spanFrom fun _ => ?_))
    exact .pure ⟨by rw [← he]; rfl, hc⟩
  · cases key with
    | name w =>
      intro hk
      have hword := Kind.isWord_ofWord w
      rw [show Kind.ofWord w = _ from hk] at hword
      cases hword
    | string => exact nofun
    | number => exact nofun

/-- An object literal. -/
theorem isAtom_object {ps : List Property} (h : AreEntries mss ps) :
    IsAtom (inBraces (commaMarks mss)) (.object ps default) := by
  refine ⟨.symbol rfl _, nofun, fun n c more hc _ => ?_⟩
  rw [inBraces_append] at hc
  refine .bind (.peek hc fun tok hkind _ => ?_)
  rw [simple?_symbol hkind, hkind]
  refine .bind (.position fun _ => .bind (.expectSymbol hc fun _ c hc => .bind ?_))
  refine (reads_commaList (by decide) (h.readAll n)).meets hc rfl fun items c hitems hc => ?_
  refine .bind (.expectSymbol hc fun _ c hc => .bind (.spanFrom fun _ => .pure ⟨?_, hc⟩))
  simp only [Expr.bare, propertiesBare_eq_map, hitems]

/-! ## Calls and properties -/

/-- A step of a chain without its places. -/
def Link.bare : Link → Link
  | .call args optional => .call (exprsBare args) optional
  | .member name optional => .member name optional
  | .index key optional => .index key.bare optional

/-- The expression after one more step, without places. -/
def Link.on (t : Expr) : Link → Expr
  | .call args optional => .call t args optional default
  | .member name optional => .member t name optional default
  | .index key optional => .index t key optional default

/-- Appending a link commutes with forgetting places. -/
theorem Link.bare_apply (e : Expr) (l : Link) (stop : Position) : (Link.apply e (l, stop)).bare = l.bare.on e.bare := by
  cases l <;> rfl

/-- The step that a reader has read. -/
def Link.Shown (l : Link) (o : Option (Link × Position)) : Prop := ∃ l' stop, o = some (l', stop) ∧ l'.bare = l

/-- A link that was read is the one that its marks show. -/
theorem meets_ended {l' : Link} (h : l'.bare = l) {c : Cursor} {more : List Mark} (hc : c.Fits more) :
    Meets (ended l') c fun o c' => l.Shown o ∧ c'.Fits more :=
  Meets.bind (.get (.bind (.position fun _ => .pure ⟨⟨l', _, rfl, h⟩, hc⟩)))

/-- The marks are read as a property, by name or by key, that is not skipped. -/
def IsProperty (ms : List Mark) (l : Link) : Prop :=
  ms ≠ [] ∧ ∀ n, Reads (propertyLink (level n)) ms (fun _ => True) l.Shown

/-- The marks are read as a call or a property. -/
def IsLink (ms : List Mark) (l : Link) : Prop := ms ≠ [] ∧ ∀ n, Reads (link (level n)) ms (fun _ => True) l.Shown

/-- The name of a property behind the point. -/
theorem reads_propertyName {f : String → String} {name : PropertyName} {context : Context} (h : name.usedMarks f = ms) :
    Reads (propertyName context) ms (fun _ => True) (· = name.renamed f) := by
  subst h
  intro c more hc _
  cases name with
  | plain s =>
    refine .bind (.accept_false hc nofun (.bind (.propertyWord hc rfl fun t c ht hc => ?_)))
    exact .pure ⟨congrArg PropertyName.plain ht, hc⟩
  | hashed s =>
    refine .bind (.accept_true hc rfl fun c hc => .bind (.propertyWord hc rfl fun t c ht hc => ?_))
    exact .pure ⟨congrArg PropertyName.hashed ht, hc⟩

/-- A property behind a point. -/
theorem isProperty_member (f : String → String) (name : PropertyName) :
    IsProperty (.symbol .dot :: name.usedMarks f) (.member (name.renamed f) false) := by
  refine ⟨List.cons_ne_nil _ _, fun n c more hc _ => .bind (.kind hc ?_)⟩
  refine .bind (.advance hc fun _ c _ _ hc => .bind ?_)
  refine (reads_propertyName rfl).meets hc trivial fun name' c hname hc => meets_ended ?_ hc
  rw [hname]
  rfl

/-- A key in brackets. -/
theorem reads_computedKey (h : IsExpr ms t) (n : Nat) :
    Reads (computedKey (level n)) (Mark.symbol .leftBracket :: ms ++ [Mark.symbol .rightBracket])
      (fun _ => True) (·.bare = t) := by
  intro c more hc _
  rw [List.append_assoc] at hc
  refine .bind (.expectSymbol hc fun _ c hc => .bind ?_)
  refine (h.2 n).meets hc Nat.zero_lt_two fun e c he hc => .bind (.expectSymbol hc fun _ c hc => ?_)
  exact .pure ⟨he, hc⟩

/-- An item in brackets. -/
theorem isProperty_index (h : IsExpr ms t) :
    IsProperty (Mark.symbol .leftBracket :: ms ++ [Mark.symbol .rightBracket]) (.index t false) := by
  refine ⟨List.cons_ne_nil _ _, fun n c more hc _ => .bind (.kind hc ?_)⟩
  refine .bind ((reads_computedKey h n).meets hc trivial fun e c he hc => meets_ended ?_ hc)
  rw [Link.bare, he]

/-- A property that is not skipped is a step. -/
theorem IsProperty.isLink {s : Symbol} (h : IsProperty (.symbol s :: ms) l) (hs : s = .dot ∨ s = .leftBracket) :
    IsLink (.symbol s :: ms) l := by
  refine ⟨h.1, fun n c more hc _ => .bind (.kind hc ?_)⟩
  rcases hs with rfl | rfl <;> exact h.2 n c more hc trivial

/-- A property behind a point or behind a link that may be skipped. -/
theorem isLink_member (f : String → String) (name : PropertyName) (optional : Bool) :
    IsLink (.symbol (if optional then .optionalChain else .dot) :: name.usedMarks f)
      (.member (name.renamed f) optional) := by
  cases optional with
  | false => exact (isProperty_member f name).isLink (.inl rfl)
  | true =>
    refine ⟨List.cons_ne_nil _ _, fun n c more hc _ => .bind (.kind hc ?_)⟩
    refine .bind (.advance hc fun _ c _ _ hc => .bind (.kind hc ?_))
    have hname : Meets (propertyName .memberAccess >>= fun x => ended (.member x true)) c fun o c' =>
        (Link.member (name.renamed f) true).Shown o ∧ c'.Fits more := by
      refine .bind ((reads_propertyName rfl).meets hc trivial fun name' c hname hc => meets_ended ?_ hc)
      rw [hname]
      rfl
    cases name with
    | plain s => exact hname
    | hashed s => exact hname

theorem isLink_index (h : IsExpr ms t) (optional : Bool) :
    IsLink ((if optional then [Mark.symbol .optionalChain] else []) ++ Mark.symbol .leftBracket :: ms ++
      [Mark.symbol .rightBracket])
      (.index t optional) := by
  cases optional with
  | false => exact (isProperty_index h).isLink (.inr rfl)
  | true =>
    refine ⟨List.cons_ne_nil _ _, fun n c more hc _ => .bind (.kind hc ?_)⟩
    refine .bind (.advance hc fun _ c _ _ hc => .bind (.kind hc ?_))
    refine .bind ((reads_computedKey h n).meets hc trivial fun e c he hc => meets_ended ?_ hc)
    rw [Link.bare, he]

/-- A call. -/
theorem isLink_call (h : AreExprs mss ts) (optional : Bool) :
    IsLink ((if optional then [Mark.symbol .optionalChain] else []) ++ inParens true (commaMarks mss))
      (.call ts optional) := by
  cases optional with
  | false =>
    refine ⟨List.cons_ne_nil _ _, fun n c more hc _ => .bind (.kind hc ?_)⟩
    refine .bind ((reads_arguments h n).meets hc trivial fun args c hargs hc => meets_ended ?_ hc)
    rw [Link.bare, hargs]
  | true =>
    refine ⟨List.cons_ne_nil _ _, fun n c more hc _ => .bind (.kind hc ?_)⟩
    refine .bind (.advance hc fun _ c _ _ hc => .bind (.kind hc ?_))
    refine .bind ((reads_arguments h n).meets hc trivial fun args c hargs hc => meets_ended ?_ hc)
    rw [Link.bare, hargs]

/-- No property comes. -/
theorem meets_propertyLink_none {inner : Inner} {c : Cursor} {more : List Mark} (hc : c.Fits more)
    (hdot : kindOf more ≠ .symbol .dot) (hbracket : kindOf more ≠ .symbol .leftBracket) :
    Meets (propertyLink inner) c fun o c' => o = none ∧ c' = c := by
  refine .bind (.kind hc ?_)
  split
  · rename_i hk
    exact absurd hk hdot
  · rename_i hk
    exact absurd hk hbracket
  · exact .pure ⟨rfl, rfl⟩

/-- No call and no property comes. -/
theorem meets_link_none {inner : Inner} {c : Cursor} {more : List Mark} (hc : c.Fits more)
    (h : (kindOf more).power < 17) : Meets (link inner) c fun o c' => o = none ∧ c' = c := by
  have hne {s : Symbol} (hs : 17 ≤ (Kind.symbol s).power) : kindOf more ≠ .symbol s := by
    intro hk
    rw [hk] at h
    omega
  refine .bind (.kind hc ?_)
  split
  · rename_i hk
    exact absurd hk (hne (by decide))
  · rename_i hk
    exact absurd hk (hne (by decide))
  · exact meets_propertyLink_none hc (hne (by decide)) (hne (by decide))

/-! ## Constructions -/

/-- From `c`, the reader of a primary expression meets `Q` if the words of the constructions `done` have been read. -/
def MeetsPrimary (inner : Inner) (done : List Position) (budget : List Token) (c : Cursor) (Q : Expr → Cursor → Prop) :
    Prop :=
  Meets (manyWithin newWord budget) c fun starts c =>
    Meets (atom inner) c fun e c => Meets (constructions inner (starts.reverse ++ done) e) c Q

/-- What follows the class of a construction and its properties. -/
def constructionRest (inner : Inner) (start : Position) (done : List Position) (callee : Expr) : Parser Expr := do
  let args ← do
    if ← check (.symbol .leftParen) then arguments inner else pure []
  constructions inner done (.new callee args (← spanFrom start))

/-- From `c`, the reader of constructions meets `Q` if it has read `e`, and perhaps goes on with properties of it. -/
def MeetsUnder (inner : Inner) (start : Position) (done : List Position) (e : Expr) (budget : List Token) (c : Cursor)
    (Q : Expr → Cursor → Prop) : Prop :=
  Meets (manyWithin (propertyLink inner) budget) c fun links c =>
    Meets (constructionRest inner start done (links.foldl Link.apply e)) c Q

/-- Behind the marks, the reader of a primary expression goes on with the constructions around `t`. -/
def IsPrimary (ms : List Mark) (t : Expr) : Prop :=
  Opens Kind.opensOperand ms ∧ ∀ n done (budget : List Token) (c : Cursor) more Q, c.Fits (ms ++ more) →
    ms.length ≤ budget.length →
    (∀ (e : Expr) (c' : Cursor), e.bare = t → c'.Fits more → Meets (constructions (level n) done e) c' Q) →
    MeetsPrimary (level n) done budget c Q

/-- Behind the marks and a word that begins a construction, its reader goes on with properties of `t`. -/
def IsUnder (ms : List Mark) (t : Expr) : Prop :=
  Opens Kind.opensOperand ms ∧ ∀ n start done (budget : List Token) (c : Cursor) more Q, c.Fits (ms ++ more) →
    ms.length ≤ budget.length →
    (∀ (e : Expr) (budget : List Token) (c' : Cursor), e.bare = t → c'.Fits more → more.length ≤ budget.length →
      MeetsUnder (level n) start done e budget c' Q) →
    MeetsPrimary (level n) (start :: done) budget c Q

/-- An operand without links is complete in itself. -/
theorem IsAtom.isPrimary (h : IsAtom ms t) : IsPrimary ms t := by
  refine ⟨h.1, fun n done budget c more Q hc _ hq => .manyWithin_none ?_⟩
  have hnew : kindOf (ms ++ more) ≠ .keyword .novo := by
    rw [kindOf_append h.1.ne_nil]
    exact h.2.1
  refine .bind (.check_false hc hnew (.pure ⟨rfl, ?_⟩))
  exact (h.2.2 n).meets hc trivial hq

/-- What is complete in itself may be constructed. -/
theorem IsPrimary.isUnder (h : IsPrimary ms t) : IsUnder ms t := by
  refine ⟨h.1, fun n start done budget c more Q hc hb hq => h.2 n _ budget c more Q hc hb fun e c he hc => ?_⟩
  exact .bind (.many (hq e c.rest c he hc (Nat.le_of_eq hc.length.symm)))

/-- A property of what stands under the word. -/
theorem IsUnder.property {ls : List Mark} (h : IsUnder ms t) (hl : IsProperty ls l) : IsUnder (ms ++ ls) (l.on t) := by
  refine ⟨h.1.append ls, fun n start done budget c more Q hc hb hq => ?_⟩
  rw [List.append_assoc] at hc
  rw [List.length_append] at hb
  refine h.2 n start done budget c (ls ++ more) Q hc (by omega) fun e budget c he hc hb => ?_
  have hpos : 0 < ls.length := List.length_pos_iff.mpr hl.1
  cases budget with
  | nil =>
    rw [List.length_append, List.length_nil] at hb
    omega
  | cons tok budget =>
    rw [List.length_append, List.length_cons] at hb
    refine .manyWithin_some ((hl.2 n).meets hc trivial fun o c ho hc => ?_)
    obtain ⟨l', stop, rfl, hl'⟩ := ho
    refine ⟨_, rfl, hq _ budget c ?_ hc (by omega)⟩
    rw [Link.bare_apply, hl', he]

/-- A construction with its arguments. -/
theorem IsUnder.new (h : IsUnder ms t) (hargs : AreExprs mss ts) :
    IsPrimary (.word "new" :: ms ++ inParens true (commaMarks mss)) (.new t ts default) := by
  have hkind : Kind.ofWord "new" = .keyword .novo := Kind.ofWord_of_mem (.tail _ (.head _))
  refine ⟨⟨_, _, rfl, by rw [Mark.word, hkind]; rfl, nofun, nofun⟩, fun n done budget c more Q hc hb hq => ?_⟩
  rw [List.append_assoc, List.cons_append] at hc
  rw [List.length_append, List.length_cons] at hb
  cases budget with
  | nil =>
    rw [List.length_nil] at hb
    omega
  | cons tok budget =>
    rw [List.length_cons] at hb
    refine .manyWithin_some (.bind (.check_true hc hkind (.bind (.position fun start => ?_))))
    refine .bind (.advance hc fun _ c _ _ hc => .pure ⟨start, rfl, ?_⟩)
    have hunder := h.2 n start done budget c _ Q hc (by omega) fun e budget c he hc hb => ?_
    · simpa only [MeetsPrimary, List.reverse_cons, List.append_assoc, List.singleton_append] using hunder
    · -- behind the class come its arguments
      refine .manyWithin_none ((meets_propertyLink_none hc nofun nofun).mono fun o c' ho => ⟨ho.1, ?_⟩)
      rw [ho.2]
      refine .bind (.check_true hc rfl (.bind ?_))
      refine (reads_arguments hargs n).meets hc trivial fun args c hargs hc => .bind (.spanFrom fun _ => ?_)
      refine hq _ c ?_ hc
      rw [List.foldl_nil, Expr.bare, he, hargs]

/-! ## Chains -/

/-- Behind the marks, the reader of calls and properties goes on with those of `t`. -/
def IsCall (ms : List Mark) (t : Expr) : Prop :=
  Opens Kind.opensOperand ms ∧ ∀ n (c : Cursor) more Q, c.Fits (ms ++ more) →
    (∀ (e : Expr) (budget : List Token) (c' : Cursor), e.bare = t → c'.Fits more → more.length ≤ budget.length →
      Meets (manyWithin (link (level n)) budget) c' fun links c => Q (links.foldl Link.apply e) c) →
    Meets (call (level n)) c Q

/-- It may be called as well. -/
theorem IsPrimary.isCall (h : IsPrimary ms t) : IsCall ms t := by
  refine ⟨h.1, fun n c more Q hc hq => ?_⟩
  have hlength : ms.length ≤ c.rest.length := by
    rw [hc.length, List.length_append]
    exact Nat.le_add_right _ _
  have hprimary := h.2 n [] c.rest c more
    (fun e c => Meets (many (link (level n)) >>= fun links => pure (links.foldl Link.apply e)) c Q) hc hlength
    fun e c he hc => .pure (.bind (.many ?_))
  · refine .bind (.bind (.many (hprimary.mono fun starts c h => .bind (h.mono fun e c h => ?_))))
    rwa [List.append_nil] at h
  · exact (hq e c.rest c he hc (Nat.le_of_eq hc.length.symm)).mono fun links c h => .pure h

/-- One more step. -/
theorem IsCall.link {ls : List Mark} (h : IsCall ms t) (hl : IsLink ls l) : IsCall (ms ++ ls) (l.on t) := by
  refine ⟨h.1.append ls, fun n c more Q hc hq => ?_⟩
  rw [List.append_assoc] at hc
  refine h.2 n c (ls ++ more) Q hc fun e budget c he hc hb => ?_
  have hpos : 0 < ls.length := List.length_pos_iff.mpr hl.1
  rw [List.length_append] at hb
  cases budget with
  | nil =>
    rw [List.length_nil] at hb
    omega
  | cons tok budget =>
    rw [List.length_cons] at hb
    refine .manyWithin_some ((hl.2 n).meets hc trivial fun o c ho hc => ?_)
    obtain ⟨l', stop, rfl, hl'⟩ := ho
    refine ⟨_, rfl, hq _ budget c ?_ hc (by omega)⟩
    rw [Link.bare_apply, hl', he]

/-- Before a kind that is no further step, the chain ends. -/
theorem IsCall.reads (h : IsCall ms t) (n : Nat) : Reads (call (level n)) ms (·.power < 17) (·.bare = t) := by
  intro c more hc hf
  refine h.2 n c more _ hc fun e budget c he hc _ => .manyWithin_none ((meets_link_none hc hf).mono fun o c' ho => ?_)
  rw [ho.2]
  exact ⟨ho.1, he, hc⟩

end Vernacular
