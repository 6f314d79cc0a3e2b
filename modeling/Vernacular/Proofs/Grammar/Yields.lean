import Vernacular.Proofs.Grammar.Built
import Vernacular.Proofs.Grammar.Ensures

/-!
# Expressions that are read have what building keeps

A production gives a tree with an invariant that building keeps over a lexicon, if the lexicon allows what the tokens
stand for. A word behind a point or a hash is a plain name whatever it spells, so tokens are judged by the one before
them (`Lexicon.AdmitsAll`), and a production begins and ends where no such mark has just been read (`Lexicon.Reading`).

- `Yields` is the statement about one production; `Inner.Yields` about those one level further in;
- `Grammar.yields_blockIn`, `Grammar.yields_callableRest`: blocks and callables;
- `Grammar.yields_assignment`: expressions, level by level.
-/

namespace Vernacular

open Vernacular.Parser Grammar

variable {named : Bool} {k : Kind} {context : Context}

/-! ## Tokens and lexicons -/

/-- The kinds of tokens that stand for a name's value. -/
def identKinds : List Kind := [.identifier, .builtin, .type, .keyword .get, .keyword .set]

/-- The lexicon allows what the token can stand for. `named` says that it stands behind a mark after which every word is
a plain name. -/
structure Lexicon.Admits (V : Lexicon) (named : Bool) (t : Token) : Prop where
  number : t.kind = .number → V.number t.text
  string : t.kind = .string → V.string (unquoted t.text) (quoteOf t.text)
  template : t.kind = .template → V.template (unquoted t.text)
  word : t.kind.isWord = true → V.word t.text
  ident : named = false → t.kind ∈ identKinds → V.ident t.text
  bound : named = false → t.kind = .identifier → V.bound t.text
  base : named = false → t.kind ∈ classKinds → V.base t.text
  member : named = false → t.kind.isWord = true → (default : Modifiers).add? t.kind = none →
    t.kind ≠ .keyword .construtor → V.member t.text

/-- The lexicon allows what the tokens can stand for, each judged by the one before. -/
def Lexicon.AdmitsAll (V : Lexicon) : Bool → List Token → Prop
  | _, [] => True
  | named, t :: ts => V.Admits named t ∧ V.AdmitsAll t.kind.namesNext ts

/-- The lexicon allows the tokens after a place. -/
def Lexicon.Reading (V : Lexicon) (named : Bool) (c : Cursor) : Prop := V.AdmitsAll named c.rest

variable {V : Lexicon}

/-- Reading a token on: it is admitted, and what follows it is judged by it. -/
theorem Lexicon.Reading.advance {c : Cursor} (h : V.Reading named c) (hk : c.peek.kind ≠ .eof) :
    V.Admits named c.peek ∧ V.Reading c.peek.kind.namesNext c.advance.2 := by
  obtain ⟨previous, rest⟩ := c
  cases rest with
  | nil => exact absurd rfl hk
  | cons t ts => exact h

/-- Behind a token that is no such mark a production may begin. -/
theorem Lexicon.Reading.next {c : Cursor} (h : V.Reading named c) (hc : c.peek.kind = k) (hk : k ≠ .eof)
    (hn : k.namesNext = false) : V.Reading false c.advance.2 := by
  subst hc
  exact hn ▸ (h.advance hk).2

/-- What is no word stands for a literal or nothing, whatever mark is before it. -/
theorem Lexicon.Admits.of_not_isWord {t : Token} (hw : t.kind.isWord = false) (hn : t.kind = .number → V.number t.text)
    (hs : t.kind = .string → V.string (unquoted t.text) (quoteOf t.text))
    (ht : t.kind = .template → V.template (unquoted t.text)) : V.Admits named t := by
  have hkinds : ∀ k ∈ identKinds ++ classKinds, k.isWord = true := by decide
  have hne (k : Kind) (hk : k.isWord = true) : t.kind ≠ k := fun h => by rw [h, hk] at hw; cases hw
  exact {
    number := hn, string := hs, template := ht
    word := fun h => by rw [hw] at h; cases h
    ident := fun _ hk => absurd rfl (hne _ (hkinds _ (List.mem_append_left _ hk)))
    bound := fun _ hk => absurd hk (hne _ rfl)
    base := fun _ hk => absurd rfl (hne _ (hkinds _ (List.mem_append_right _ hk)))
    member := fun _ h => by rw [hw] at h; cases h }

/-- A symbol is judged in the same way behind every mark. -/
theorem Lexicon.Reading.of_symbol {c : Cursor} {s : Symbol} (h : V.Reading named c) (hk : c.peek.kind = .symbol s) :
    V.Reading false c := by
  obtain ⟨previous, rest⟩ := c
  cases rest with
  | nil => trivial
  | cons t ts =>
    have hk : t.kind = .symbol s := hk
    exact ⟨.of_not_isWord (by rw [hk]; rfl) h.1.number h.1.string h.1.template, h.2⟩

/-! ## Yielding -/

section Yields

variable {α β : Type} {G : α → Prop} {H : β → Prop}

/-- From tokens that the lexicon allows, `p` gives something with `G` and leaves tokens that the lexicon allows. -/
def Yields (V : Lexicon) (p : Parser α) (G : α → Prop) : Prop :=
  Ensures (V.Reading false) p fun a c => G a ∧ V.Reading false c

theorem Yields.pure {a : α} (h : G a) : Yields V (pure a) G := Ensures.pure fun _ hc => ⟨h, hc⟩

/-- One reader after another: what the first one gives is known when the second one begins. -/
theorem Yields.bind {p : Parser α} {f : α → Parser β} (hp : Yields V p G) (hf : ∀ a, G a → Yields V (f a) H) :
    Yields V (p >>= f) H :=
  Ensures.bind hp fun a => .of_and (hf a)

/-- What a step gives need not be known for the steps that follow it. -/
theorem Yields.after {p : Parser α} {f : α → Parser β} (hp : Yields V p fun _ => True) (hf : ∀ a, Yields V (f a) H) :
    Yields V (p >>= f) H :=
  hp.bind fun a _ => hf a

/-- What follows from what is known. -/
theorem Yields.mono {p : Parser α} {G' : α → Prop} (h : Yields V p G) (hg : ∀ a, G a → G' a) : Yields V p G' :=
  Ensures.mono h fun a _ hc => ⟨hg a hc.1, hc.2⟩

theorem Yields.ite {b : Prop} [Decidable b] {p q : Parser α} (hp : b → Yields V p G) (hq : ¬ b → Yields V q G) :
    Yields V (if b then p else q) G :=
  Ensures.ite hp hq

theorem Yields.position : Yields V Parser.position fun _ => True :=
  Ensures.mono Ensures.position fun _ _ hc => ⟨trivial, hc⟩

theorem Yields.kind : Yields V Parser.kind fun _ => True :=
  Ensures.mono Ensures.kind fun _ _ hc => ⟨trivial, hc.1⟩

theorem Yields.check : Yields V (Parser.check k) fun _ => True :=
  Ensures.mono Ensures.check fun _ _ hc => ⟨trivial, hc.1⟩

theorem Yields.onNewLine : Yields V Parser.onNewLine fun _ => True :=
  Ensures.mono Ensures.onNewLine fun _ _ hc => ⟨trivial, hc⟩

theorem Yields.spanFrom {start : Position} : Yields V (Parser.spanFrom start) fun _ => True :=
  Ensures.mono Ensures.spanFrom fun _ _ hc => ⟨trivial, hc⟩

theorem Yields.fail {expected : List String} : Yields V (Parser.fail expected context) G :=
  Ensures.fail

/-- A token that may be there, and that announces no plain name. -/
theorem Yields.accept (k : Kind) (hk : k ≠ .eof) (hn : k.namesNext = false) :
    Yields V (Parser.accept k) fun _ => True :=
  Ensures.accept (fun _ hc he => ⟨trivial, hc.next he hk hn⟩) fun _ hc _ => ⟨trivial, hc⟩

/-- A token that has to be there is of one of the kinds and admitted. -/
theorem Yields.expect {allowed : List Kind} (h : ∀ k ∈ allowed, k ≠ .eof ∧ k.namesNext = false) :
    Yields V (Parser.expect allowed context) fun t => t.kind ∈ allowed ∧ V.Admits false t := by
  refine Ensures.expect fun c hc hk => ⟨⟨hk, ?_⟩, ?_⟩
  · exact (hc.advance (h _ hk).1).1
  · exact hc.next rfl (h _ hk).1 (h _ hk).2

theorem Yields.expectSymbol {s : Symbol} {context : Context} (h : (Kind.symbol s).namesNext = false) :
    Yields V (Parser.expectSymbol s context) fun _ => True :=
  (Yields.expect fun k hk => by obtain rfl := List.mem_singleton.mp hk; exact ⟨nofun, h⟩).mono fun _ _ => trivial

/-- A name that is declared is one that the lexicon lets be bound. -/
theorem Yields.identifier {context : Context} : Yields V (Parser.identifier context) fun id => V.bound id.name := by
  refine (Yields.expect (by decide)).bind fun t ht => .pure ?_
  exact ht.2.bound rfl (List.mem_singleton.mp ht.1)

/-- Repetition: every item has what one item has. -/
theorem Yields.many {item : Parser (Option α)} (h : Yields V item fun o => ∀ a ∈ o, G a) :
    Yields V (Parser.many item) fun as => ∀ a ∈ as, G a :=
  Ensures.many h

theorem Yields.none : Yields V (Pure.pure Option.none) fun o => ∀ a ∈ o, G a := Yields.pure (by simp)

theorem Yields.some {p : Parser α} (h : Yields V p G) :
    Yields V (p >>= fun a => Pure.pure (Option.some a)) fun o => ∀ a ∈ o, G a :=
  h.bind fun _ ha => .pure (by simpa using ha)

/-- A part that is there if a token of kind `k` is. -/
theorem Yields.optional (k : Kind) (hk : k ≠ .eof) (hn : k.namesNext = false) {p : Parser α} {K : Option α → Parser β}
    (h : Yields V p G) (hK : ∀ o, (∀ a ∈ o, G a) → Yields V (K o) H) :
    Yields V (Parser.accept k >>= fun b =>
      if b = true then p >>= fun a => Pure.pure (Option.some a) >>= K else Pure.pure Option.none >>= K) H :=
  (Yields.accept k hk hn).after fun _ =>
    .ite (fun _ => h.bind fun _ ha => hK _ (by simpa using ha)) fun _ => hK _ (by simp)

/-- Items with commas between them, in brackets. -/
theorem Yields.commaList {closing : Symbol} {item : Parser α} (h : Yields V item G) :
    Yields V (Parser.commaList closing item) fun as => ∀ a ∈ as, G a := by
  refine Yields.check.after fun b => .ite (fun _ => .pure (by simp)) fun _ => ?_
  refine h.bind fun first hfirst => (Yields.many (G := G) ?_).bind fun others hothers => .pure ?_
  · refine (Yields.accept (.symbol .comma) nofun rfl).after fun b => .ite (fun _ => ?_) fun _ => .none
    exact Yields.check.after fun b => .ite (fun _ => .none) fun _ => h.some
  · simpa [hfirst] using hothers

theorem Yields.afterCommas {item : Parser α} (h : Yields V item G) :
    Yields V (Parser.afterCommas item) fun as => ∀ a ∈ as, G a :=
  .many ((Yields.accept (.symbol .comma) nofun rfl).after fun _ => .ite (fun _ => h.some) fun _ => .none)

theorem Yields.skipSemicolons : Yields V Parser.skipSemicolons fun _ => True := by
  refine (Yields.many (G := fun _ => True) ?_).bind fun _ _ => .pure trivial
  exact (Yields.accept (.symbol .semicolon) nofun rfl).after fun b => .ite (fun _ => .pure (by simp)) fun _ => .none

/-- Items up to a closing brace or the end. -/
theorem Yields.separated {item : Parser α} (h : Yields V item G) :
    Yields V (separated item) fun as => ∀ a ∈ as, G a := by
  refine Yields.skipSemicolons.after fun _ => .many ?_
  refine Yields.check.after fun b => Yields.check.after fun b' => .ite (fun _ => .none) fun _ => ?_
  exact h.bind fun a ha => Yields.skipSemicolons.after fun _ => .pure (by simpa using ha)

end Yields

/-! ## Names of types -/

namespace Grammar

/-- Nothing is asked of types: their names are not part of what building keeps. -/
theorem yields_typeName : Yields V typeName fun _ => True := by
  refine Yields.position.after fun _ => (Yields.expect (by decide)).bind fun t _ => ?_
  refine (Yields.many (G := fun _ => True) ?_).bind fun _ _ => Yields.spanFrom.after fun _ => .pure trivial
  refine Ensures.bind Ensures.get fun a => Ensures.ite (fun hk => ?_) fun _ => Ensures.pure fun c hc => ⟨by simp, hc.1⟩
  refine .bind
    (.advance (Q := fun _ c => V.Reading false c ∧ c.peek.kind = .symbol .rightBracket) ?_) fun _ => ?_
  · rintro c ⟨hc, rfl⟩
    exact ⟨hc.next hk.1 nofun rfl, by rw [Cursor.peek_advance]; exact hk.2⟩
  · refine .bind (.advance (Q := fun _ c => V.Reading false c) ?_) fun _ => ?_
    · rintro c ⟨hc, hk⟩
      exact hc.next hk nofun rfl
    · exact .pure fun c hc => ⟨by simp, hc⟩

theorem yields_optionalType : Yields V optionalType fun _ => True := by
  refine (Yields.accept (.symbol .colon) nofun rfl).after fun b => .ite (fun _ => ?_) fun _ => .pure trivial
  exact yields_typeName.after fun _ => .pure trivial

/-- A word is neither the end nor a mark that announces a name. -/
theorem namesNext_of_isWord (h : k.isWord = true) : k ≠ .eof ∧ k.namesNext = false := by
  cases k with
  | eof | number | string | template | symbol _ => cases h
  | keyword _ | type | builtin | identifier => exact ⟨nofun, rfl⟩

/-- Any word gives a property's name. -/
theorem ensures_propertyWord :
    Ensures (V.Reading named) (propertyWord context) fun t c => V.word t.text ∧ V.Reading false c := by
  refine .propertyWord fun c hc hw => ?_
  obtain ⟨hne, hnn⟩ := namesNext_of_isWord hw
  exact ⟨(hc.advance hne).1.word hw, hc.next rfl hne hnn⟩

end Grammar

/-! ## Blocks, bindings and callables -/

/-- What the productions one level further in give has the invariant. -/
structure Inner.Yields (V : Lexicon) (I : Invariant) (inner : Inner) : Prop where
  expression : Vernacular.Yields V inner.expression I.expr
  exponent : Vernacular.Yields V inner.exponent I.expr
  unary : Vernacular.Yields V inner.unary I.expr
  statement : Vernacular.Yields V inner.statement I.stmt

variable {I H : Invariant}

namespace Grammar

variable {inner : Inner} (hi : inner.Yields V I)
include hi

/-- A binding is sound if its name may be bound and its value is. -/
theorem yields_bindingRest {id : Ident} (hid : V.bound id.name) (type : Option Ident) :
    Yields V (bindingRest inner id type) (I.Binding V) :=
  .optional (.symbol .assign) nofun rfl hi.expression fun _ hv =>
    Yields.spanFrom.after fun _ => .pure ⟨hid, hv⟩

theorem yields_binding (context : Context) : Yields V (binding inner context) (I.Binding V) :=
  Yields.identifier.bind fun _ hid => yields_optionalType.after fun _ => yields_bindingRest hi hid _

/-- Bindings with commas between them, of which there is at least one. -/
theorem yields_bindings (context : Context) {id : Ident} (hid : V.bound id.name) (type : Option Ident) :
    Yields V (bindings inner context id type) fun bs => bs ≠ [] ∧ ∀ b ∈ bs, I.Binding V b := by
  refine (yields_bindingRest hi hid type).bind fun first hfirst => ?_
  refine (Yields.afterCommas (yields_binding hi context)).bind fun others hothers => .pure ?_
  exact ⟨nofun, List.forall_mem_cons.mpr ⟨hfirst, hothers⟩⟩

theorem yields_parameters : Yields V (parameters inner) fun bs => ∀ b ∈ bs, I.Binding V b := by
  refine (Yields.expectSymbol rfl).after fun _ => ?_
  refine (Yields.commaList (yields_binding hi _)).bind fun params hparams => ?_
  exact (Yields.expectSymbol rfl).after fun _ => .pure hparams

/-- A block: each of its statements has the invariant. -/
theorem yields_blockIn (context : Context) : Yields V (blockIn inner context) fun b => ∀ s ∈ b.body, I.stmt s := by
  refine Yields.position.after fun _ => (Yields.expectSymbol rfl).after fun _ => ?_
  refine (Yields.separated hi.statement).bind fun body hbody => (Yields.expectSymbol rfl).after fun _ => ?_
  exact Yields.spanFrom.after fun _ => .pure hbody

/-- Only an abstract callable may come without a body. -/
theorem yields_callableRest (name : Option Ident) (hname : ∀ id ∈ name, V.bound id.name) (start : Position)
    (isAbstract : Bool) : Yields V (callableRest inner name start isAbstract) fun c =>
      (c.body = none → isAbstract = true) ∧ I.Callable V name c := by
  refine (yields_parameters hi).bind fun params hparams => yields_optionalType.after fun result => ?_
  have hrest (body : Option Block) (habstract : body = none → isAbstract = true)
      (hbody : ∀ b ∈ body, ∀ s ∈ b.body, I.stmt s) :
      Yields V (do return (⟨name, params, result, body, ← spanFrom start⟩ : Callable)) fun c =>
        (c.body = none → isAbstract = true) ∧ I.Callable V name c :=
    Yields.spanFrom.after fun _ => .pure ⟨habstract, rfl, hname, hparams, hbody⟩
  refine Yields.check.after fun b => .ite (fun hb => ?_) fun _ => ?_
  · exact (Yields.accept (.symbol .semicolon) nofun rfl).after fun _ =>
      hrest none (fun _ => (Bool.and_eq_true_iff.mp hb).1) (by simp)
  · exact (yields_blockIn hi _).bind fun block hblock => hrest (some block) nofun (by simpa using hblock)

/-- A callable that is not abstract has a body. -/
theorem yields_function {name : Option Ident} (hname : ∀ id ∈ name, V.bound id.name) (start : Position) :
    Yields V (callableRest inner name start false) fun c => c.body.isSome = true ∧ I.Callable V name c :=
  (yields_callableRest hi name hname start false).mono fun _ hc =>
    ⟨Option.isSome_iff_ne_none.mpr fun hbody => Bool.false_ne_true (hc.1 hbody), hc.2⟩

end Grammar

/-! ## Expressions -/

namespace Grammar

/-- The key of a property is made of a token that the lexicon admits. -/
theorem sound_of_objectKey? {t : Token} {key : ObjectKey} (h : objectKey? t = some key) (ht : V.Admits false t) :
    key.Sound V ∧ t.kind.namesNext = false := by
  unfold objectKey? at h
  split at h
  · rename_i hk
    cases h
    exact ⟨ht.string hk, by rw [hk]; rfl⟩
  · rename_i hk
    cases h
    exact ⟨ht.number hk, by rw [hk]; rfl⟩
  · split at h
    · rename_i hw
      cases h
      exact ⟨ht.word hw, (namesNext_of_isWord hw).2⟩
    · cases h

/-- An expression that is a single token is made of one that the lexicon admits. -/
theorem built_of_simple? (hb : Builds V I H) {t : Token} {e : Expr} (h : simple? t = some e) (ht : V.Admits false t) :
    H.expr e ∧ t.kind.namesNext = false := by
  have hident (hk : t.kind ∈ identKinds) : V.ident t.text := ht.ident rfl hk
  unfold simple? at h
  split at h <;> cases h <;> rename_i hk <;> refine ⟨?_, by rw [hk]; rfl⟩
  · exact hb.literal (ht.number hk)
  · exact hb.literal (ht.string hk)
  · exact hb.literal (ht.template hk)
  iterate 3 exact hb.literal trivial
  · exact hb.this
  · exact hb.super
  all_goals exact hb.ident (hident (by rw [hk]; decide))

/-- The end of a link adds nothing to it. -/
theorem yields_ended {link : Link} (h : I.Link V link) : Yields V (ended link) fun o => ∀ l ∈ o, I.Link V l.1 := by
  refine Ensures.bind Ensures.get fun c => Ensures.bind Ensures.position fun p => Ensures.pure fun c' hc => ⟨?_, hc.1⟩
  simpa using h

/-- Reads a token of a known kind. -/
theorem ensures_advance_of_kind (hk : k ≠ .eof) :
    Ensures (fun c => V.Reading false c ∧ c.peek.kind = k) advance fun _ c => V.Reading k.namesNext c :=
  Ensures.advance fun _ hc => hc.2 ▸ (hc.1.advance (hc.2 ▸ hk)).2

/-- The name of a property, whether or not a mark announced it. -/
theorem ensures_propertyName (context : Context) :
    Ensures (V.Reading named) (propertyName context) fun name c => name.Sound V ∧ V.Reading false c := by
  have hhash : Ensures (fun c => ∃ named, V.Reading named c) (accept (.symbol .hash)) fun _ c =>
      ∃ named, V.Reading named c := by
    refine .accept ?_ fun c hc _ => hc
    rintro c ⟨named, hc⟩ hk
    exact ⟨_, (hc.advance (by rw [hk]; exact nofun)).2⟩
  refine .bind (hhash.strengthen fun c hc => ⟨named, hc⟩) fun b => .of_exists fun named => ?_
  refine .ite (fun _ => ?_) fun _ => ?_
  · exact .bind ensures_propertyWord fun t => .pure fun c hc => hc
  · exact .bind ensures_propertyWord fun t => .pure fun c hc => hc

variable {inner : Inner}

section Links

variable (hi : inner.Yields V I)
include hi

theorem yields_arguments : Yields V (arguments inner) fun es => ∀ e ∈ es, I.expr e := by
  refine (Yields.expectSymbol rfl).after fun _ => (Yields.commaList hi.expression).bind fun args hargs => ?_
  exact (Yields.expectSymbol rfl).after fun _ => .pure hargs

/-- A property of an object literal, with its key. -/
theorem yields_property : Yields V (property inner) fun p => p.key.Sound V ∧ I.expr p.value := by
  refine Yields.position.after fun _ => Ensures.bind Ensures.peek fun t => ?_
  cases hk : objectKey? t with
  | none => exact Ensures.fail
  | some key =>
    refine Ensures.bind (Q := fun _ c => key.Sound V ∧ V.Reading false c) (Ensures.advance ?_) fun _ => ?_
    · rintro c ⟨hc, rfl⟩
      have hne : c.peek.kind ≠ .eof := by
        intro he
        simp [objectKey?, he, Kind.isWord] at hk
      obtain ⟨hkey, hn⟩ := sound_of_objectKey? hk (hc.advance hne).1
      exact ⟨hkey, hc.next rfl hne hn⟩
    · refine Ensures.of_and fun hkey => (Yields.expectSymbol rfl).after fun _ => ?_
      refine hi.expression.bind fun value hvalue => ?_
      exact Yields.spanFrom.after fun _ => .pure ⟨hkey, hvalue⟩

theorem yields_computedKey : Yields V (computedKey inner) I.expr := by
  refine (Yields.expectSymbol rfl).after fun _ => hi.expression.bind fun key hkey => ?_
  exact (Yields.expectSymbol rfl).after fun _ => .pure hkey

/-- A link behind a point. -/
theorem yields_propertyLink : Yields V (propertyLink inner) fun o => ∀ l ∈ o, I.Link V l.1 := by
  refine Ensures.bind Ensures.kind fun k => ?_
  split
  · refine Ensures.bind (ensures_advance_of_kind nofun) fun _ => ?_
    exact Ensures.bind (ensures_propertyName _) fun name => Ensures.of_and fun hname => yields_ended hname
  · refine Ensures.strengthen (P := V.Reading false) ?_ fun c hc => hc.1
    exact (yields_computedKey hi).bind fun key hkey => yields_ended hkey
  · exact Yields.none.strengthen fun c hc => hc.1

/-- Any link. Its arguments or its key have the invariant. -/
theorem yields_link : Yields V (link inner) fun o => ∀ l ∈ o, I.Link V l.1 := by
  refine Ensures.bind Ensures.kind fun k => ?_
  split
  · refine Ensures.strengthen (P := V.Reading false) ?_ fun c hc => hc.1
    exact (yields_arguments hi).bind fun args hargs => yields_ended hargs
  · refine Ensures.bind (ensures_advance_of_kind nofun) fun _ => ?_
    refine Ensures.bind Ensures.kind fun k => ?_
    split
    · refine Ensures.strengthen (P := V.Reading false) ?_ fun c hc => hc.1.of_symbol hc.2
      exact (yields_arguments hi).bind fun args hargs => yields_ended hargs
    · refine Ensures.strengthen (P := V.Reading false) ?_ fun c hc => hc.1.of_symbol hc.2
      exact (yields_computedKey hi).bind fun key hkey => yields_ended hkey
    · refine Ensures.bind ((ensures_propertyName _).strengthen fun c hc => hc.1) fun name => ?_
      exact Ensures.of_and fun hname => yields_ended hname
  · exact (yields_propertyLink hi).strengthen fun c hc => hc.1

omit hi in
theorem yields_newWord : Yields V newWord fun _ => True := by
  refine Ensures.bind Ensures.check fun b => Ensures.ite (fun hb => ?_) fun _ => Ensures.pure fun c hc =>
    ⟨trivial, hc.1⟩
  refine .bind Ensures.position fun _ => ?_
  refine .bind (Q := fun _ c => V.Reading false c) (.advance ?_) fun _ =>
    Ensures.pure fun c hc => ⟨trivial, hc⟩
  rintro c ⟨hc, hk⟩
  exact hc.next (eq_of_beq (hk.trans hb)) nofun rfl

end Links

/-- What passes as a target can be assigned to. -/
theorem ensures_assignable {P : Cursor → Prop} (e : Expr) :
    Ensures P (assignable e) fun _ c => e.isAssignable = true ∧ P c :=
  Ensures.ite (fun h => .pure fun _ hc => ⟨h, hc⟩) fun _ => .throw

/-- The kinds behind which no production may begin: the end, and the marks that announce a plain name. -/
def closing : List Kind := [.eof, .symbol .dot, .symbol .optionalChain, .symbol .hash]

/-- Behind a token that stands for something a production may begin, if no closing kind stands for anything. -/
theorem ensures_advance_of_some {α : Type} {f : Kind → Option α} (hop : ∀ k ∈ closing, f k = none) {op : α}
    (h : f k = some op) :
    Ensures (fun c => V.Reading false c ∧ c.peek.kind = k) advance fun _ c => V.Reading false c := by
  have hk : k ∉ closing := fun hk => by rw [hop k hk] at h; cases h
  refine .advance fun c hc => hc.1.next hc.2 ?_ ?_
  · rintro rfl
    exact hk (by decide)
  · cases k with
    | symbol s => cases s <;> simp_all [closing, Kind.namesNext]
    | _ => rfl

variable (hb : Builds V I H) (hi : inner.Yields V I)
include hb

/-- Operands of operators that group to the left stand beside one another. -/
theorem yields_leftChain {op? : Kind → Option BinaryOp} (hop : ∀ k ∈ closing, op? k = none)
    (hpower : ∀ k, op? k ≠ some .exponent) {operand : Parser Expr} (h : Yields V operand H.expr) :
    Yields V (leftChain op? operand) H.expr := by
  refine h.bind fun first hfirst => ?_
  refine (Yields.many (G := fun o => o.1 ≠ .exponent ∧ H.expr o.2) ?_).bind fun others hothers => ?_
  · refine Ensures.bind Ensures.kind fun k => ?_
    cases hu : op? k with
    | none => exact Yields.none.strengthen fun c hc => hc.1
    | some op =>
      refine .bind (ensures_advance_of_some hop hu) fun _ => h.bind fun e he => .pure ?_
      simpa using ⟨fun hexp => hpower k (hexp ▸ hu), he⟩
  · exact .pure (hb.foldl_join hfirst hothers)

include hi

theorem yields_arrayLiteral : Yields V (arrayLiteral inner) H.expr := by
  refine Yields.position.after fun _ => (Yields.expectSymbol rfl).after fun _ => ?_
  refine (Yields.commaList hi.expression).bind fun items hitems => (Yields.expectSymbol rfl).after fun _ => ?_
  exact Yields.spanFrom.after fun _ => .pure (hb.array hitems)

theorem yields_objectLiteral : Yields V (objectLiteral inner) H.expr := by
  refine Yields.position.after fun _ => (Yields.expectSymbol rfl).after fun _ => ?_
  refine (Yields.commaList (yields_property hi)).bind fun ps hps => (Yields.expectSymbol rfl).after fun _ => ?_
  exact Yields.spanFrom.after fun _ => .pure (hb.object hps)

theorem yields_functionExpression : Yields V (functionExpression inner) H.expr := by
  refine Yields.position.after fun start => (Yields.expect (by decide)).bind fun _ _ => Yields.check.after fun b => ?_
  have hrest (name : Option Ident) (hname : ∀ id ∈ name, V.bound id.name) :
      Yields V (do return Expr.function (← callableRest inner name start false)) H.expr :=
    (yields_function hi hname start).bind fun c hc => .pure (hb.function hc.1 hc.2)
  refine .ite (fun _ => Yields.identifier.bind fun id hid => hrest (some id) ?_) fun _ => hrest none (by simp)
  simpa using hid

/-- An operand without links, by the kind of its first token. -/
theorem yields_atom : Yields V (atom inner) H.expr := by
  refine Ensures.bind Ensures.peek fun t => ?_
  cases hs : simple? t with
  | some e =>
    refine Ensures.bind (Q := fun _ c => H.expr e ∧ V.Reading false c) (Ensures.advance ?_) fun _ =>
      Ensures.pure fun c hc => hc
    rintro c ⟨hc, rfl⟩
    have hne : c.peek.kind ≠ .eof := by
      intro he
      simp [simple?, he] at hs
    obtain ⟨he, hn⟩ := built_of_simple? hb hs (hc.advance hne).1
    exact ⟨he, hc.next rfl hne hn⟩
  | none =>
    dsimp only
    split
    · exact (yields_functionExpression hb hi).strengthen fun c hc => hc.1
    · rename_i hk
      refine Ensures.bind (Q := fun _ c => V.Reading false c) (Ensures.advance ?_) fun _ => ?_
      · rintro c ⟨hc, rfl⟩
        exact hc.next hk nofun rfl
      · exact hi.expression.bind fun e he => (Yields.expectSymbol rfl).after fun _ => .pure (hb.weaken he)
    · exact (yields_arrayLiteral hb hi).strengthen fun c hc => hc.1
    · exact (yields_objectLiteral hb hi).strengthen fun c hc => hc.1
    · exact Ensures.fail

/-- Constructions, each of which is built from the last. -/
theorem yields_constructions (starts : List Position) {e : Expr} (he : H.expr e) :
    Yields V (constructions inner starts e) H.expr := by
  induction starts generalizing e with
  | nil => exact .pure he
  | cons start starts ih =>
    refine (Yields.many (yields_propertyLink hi)).bind fun links hlinks => Yields.check.after fun b => ?_
    have hrest (args : List Expr) (hargs : ∀ e ∈ args, I.expr e) : Yields V (do
        constructions inner starts (.new (links.foldl Link.apply e) args (← spanFrom start))) H.expr :=
      Yields.spanFrom.after fun s => ih (hb.new (hb.foldl_apply he hlinks) hargs)
    exact .ite (fun _ => (yields_arguments hi).bind hrest) fun _ => hrest [] (by simp)

/-- An operand with all words of construction in front of it. -/
theorem yields_primary : Yields V (primary inner) H.expr := by
  refine ((Yields.many (G := fun _ => True)) (yields_newWord.mono fun _ _ _ _ => trivial)).bind fun starts _ => ?_
  exact (yields_atom hb hi).bind fun e he => yields_constructions hb hi _ he

theorem yields_call : Yields V (call inner) H.expr := by
  refine (yields_primary hb hi).bind fun e he => (Yields.many (yields_link hi)).bind fun links hlinks => ?_
  exact .pure (hb.foldl_apply he hlinks)

/-- A chain that may be stepped, if it can be assigned to. -/
theorem yields_postfixed : Yields V (postfixed inner) H.expr := by
  refine (yields_call hb hi).bind fun e he => Ensures.bind Ensures.kind fun k => ?_
  cases hu : updateOp? k with
  | none => exact Ensures.pure fun c hc => ⟨he, hc.1⟩
  | some op =>
    refine Ensures.bind Ensures.onNewLine fun b =>
      Ensures.ite (fun _ => Ensures.pure fun c hc => ⟨he, hc.1⟩) fun _ => ?_
    refine Ensures.bind (ensures_assignable e) fun _ => Ensures.of_and fun ha => ?_
    refine Ensures.bind (ensures_advance_of_some (by decide) hu) fun _ => ?_
    exact Yields.spanFrom.after fun _ => .pure (hb.stepped ha he)

/-- Operators in front of an operand. -/
theorem yields_unary : Yields V (unary inner) H.expr := by
  refine Yields.position.after fun _ => Ensures.bind Ensures.kind fun k => Ensures.bind Ensures.kind fun k' => ?_
  refine Ensures.strengthen (P := fun c => k' = k ∧ V.Reading false c ∧ c.peek.kind = k) (Ensures.of_and ?_)
    fun c hc => ⟨hc.2.symm.trans hc.1.2, hc.1⟩
  rintro rfl
  split
  · rename_i op hu
    refine .bind (ensures_advance_of_some (by decide) hu) fun _ => ?_
    refine hi.unary.bind fun e he => Ensures.bind (ensures_assignable e) fun _ => Ensures.of_and fun ha => ?_
    exact Yields.spanFrom.after fun _ => .pure (hb.step ha he)
  · rename_i op _ hu
    refine .bind (ensures_advance_of_some (by decide) hu) fun _ => ?_
    exact hi.unary.bind fun e he => Yields.spanFrom.after fun _ => .pure (hb.unary he)
  · exact (yields_postfixed hb hi).strengthen fun c hc => hc.1

theorem yields_exponent : Yields V (exponent inner) H.expr := by
  refine (yields_unary hb hi).bind fun base hbase => (Yields.accept (.symbol .exponent) nofun rfl).after fun b => ?_
  refine .ite (fun _ => ?_) fun _ => .pure hbase
  exact hi.exponent.bind fun e he => .pure (hb.power hbase he)

/-- All levels from products to disjunctions: the operands of each are built at the level below. -/
theorem yields_logicalOr : Yields V (logicalOr inner) H.expr := by
  iterate 9 refine yields_leftChain hb (by decide) ?_ ?_; rotate_left
  · exact yields_exponent hb hi
  all_goals
    intro k hk
    simp only [logicalOrOp?, logicalAndOp?, bitwiseOrOp?, bitwiseAndOp?, equalityOp?, relationalOp?,
      shiftOp?, additiveOp?, multiplicativeOp?] at hk
    split at hk <;> cases hk

/-- An assignment, or what may stand on the left of one. -/
theorem yields_assignment : Yields V (assignment inner) H.expr := by
  refine (yields_logicalOr hb hi).bind fun target htarget => Ensures.bind Ensures.kind fun k => ?_
  cases hu : assignOp? k with
  | none => exact Ensures.pure fun c hc => ⟨htarget, hc.1⟩
  | some op =>
    refine Ensures.bind (ensures_assignable target) fun _ => Ensures.of_and fun ha => ?_
    refine Ensures.bind (ensures_advance_of_some (by decide) hu) fun _ => ?_
    exact hi.expression.bind fun e he => .pure (hb.assign ha htarget he)

end Grammar

end Vernacular
