import Vernacular.Proofs.Grammar.Agree

/-!
# Two runs of the productions

Whatever comparison is chosen, the productions agree if those one level further in do: each is put together from readers
of tokens and from other productions by the rules of `Vernacular.Proofs.Grammar.Agree`. So all that is left to say of
two levels of the grammar is how the innermost ones compare.

- `Inner.Agree.around`: one level around others that agree;
- `Inner.Agree.level`: as many levels on both sides;
- `Grammar.agree_program`: whole programs.
-/

namespace Vernacular

open Grammar Vernacular.Parser

variable {α β : Type} {X : Comparison} {inner inner' : Inner}
variable {e e' : Expr} {start start' : Position} {context : Context}

/-- The productions one level further in agree. -/
structure Inner.Agree (X : Comparison) (inner inner' : Inner) : Prop where
  reads : inner.Reads
  expression : Vernacular.Agree X inner.expression inner'.expression (Like (Expr.view X.view))
  exponent : Vernacular.Agree X inner.exponent inner'.exponent (Like (Expr.view X.view))
  unary : Vernacular.Agree X inner.unary inner'.unary (Like (Expr.view X.view))
  statement : Vernacular.Agree X inner.statement inner'.statement (Like (Stmt.view X.view))

/-- A step that gives what is known. -/
theorem AgreeOn.given {P : Cursor → Prop} {T : β → β → Prop} {a a' : α} {K K' : α → Parser β}
    (h : AgreeOn X P (K a) (K' a') T) : AgreeOn X P (pure a >>= K) (pure a' >>= K') T := h

/-- A part that is there if a token of kind `k` is. -/
theorem Agree.optional {γ : Type} {f : α → γ} {k : Kind} {p p' : Parser α} {K K' : Option α → Parser β}
    {T : β → β → Prop} (hk : k ≠ .eof) (hp : Agree X p p' (Like f))
    (hK : ∀ o o', Like (Option.map f) o o' → Agree X (K o) (K' o') T) :
    Agree X (Parser.accept k >>= fun b => if b = true then p >>= fun a => pure (some a) >>= K else pure none >>= K)
      (Parser.accept k >>= fun b => if b = true then p' >>= fun a => pure (some a) >>= K' else pure none >>= K') T :=
  .acceptThen hk (hp.bind fun _ _ ha => .given (hK _ _ ha.some)) (.given (hK _ _ rfl))

/-- What begins alike if it looks alike. -/
theorem Like.position_of_span {v : View} {s s' : Span} (h : Like (Span.view v) s s') :
    Like v.position s.start s'.start := (Span.mk.inj h).1

theorem Like.span_of_ident {v : View} {f : String → String} {x x' : Ident} (h : Like (Ident.viewBy v f) x x') :
    Like (Span.view v) x.span x'.span := (Ident.mk.inj h).2

/-- The stretch of an expression is part of what is seen of it. -/
theorem Like.span_of_expr {v : View} (h : Like (Expr.view v) e e') : Like (Span.view v) e.span e'.span := by
  rw [Like, ← Expr.span_view, ← Expr.span_view, h]

/-- Options that look alike are both there or both missing. -/
theorem Like.option_cases {f : α → β} {o o' : Option α} (h : Like (Option.map f) o o') :
    o = none ∧ o' = none ∨ ∃ a a', o = some a ∧ o' = some a' ∧ Like f a a' := by
  cases o with
  | none => exact .inl ⟨rfl, Option.map_eq_none_iff.mp h.symm⟩
  | some a =>
    obtain ⟨a', ha', h⟩ := Option.map_eq_some_iff.mp h.symm
    exact .inr ⟨a, a', rfl, ha', h.symm⟩

/-! ## What tokens, links and operators stand for -/

section Parts

variable {v : View} {t t' : Token}

/-- Tokens that are alike have alike keys. -/
theorem TokenLike.objectKey? (h : TokenLike v t t') :
    Like (Option.map (ObjectKey.view v)) (objectKey? t) (objectKey? t') := by
  have hkind := h.kind
  unfold Grammar.objectKey?
  rw [← hkind]
  split
  · rename_i hk
    rw [h.text (by rw [hk]; rfl)]
    rfl
  · rename_i hk
    rw [h.text (by rw [hk]; rfl)]
    rfl
  · split
    · exact congrArg (fun w => some (ObjectKey.name w)) h.word
    · rfl

/-- Tokens that are alike stand for alike expressions. -/
theorem TokenLike.simple? (h : TokenLike v t t') : Like (Option.map (Expr.view v)) (simple? t) (simple? t') := by
  have hliteral (l l' : Literal) (hl : l = l') :
      Like (Option.map (Expr.view v)) (some (.literal l t.span)) (some (.literal l' t'.span)) := by
    rw [hl]
    exact congrArg (fun s => some (Expr.literal l' s)) h.span
  have hident (ht : t.text = t'.text) :
      Like (Option.map (Expr.view v)) (some (.ident t.text t.span)) (some (.ident t'.text t'.span)) := by
    rw [ht]
    exact congrArg (fun s => some (Expr.ident t'.text s)) h.span
  have hexact {k : Kind} (hk : t.kind = k) (hr : k.isRespelt = false) : t.text = t'.text := h.text (by rw [hk, hr])
  unfold Grammar.simple?
  rw [← h.kind]
  split
  · exact hliteral _ _ (congrArg Literal.number (hexact ‹_› rfl))
  · exact hliteral _ _ (by rw [hexact ‹_› rfl])
  · exact hliteral _ _ (by rw [hexact ‹_› rfl])
  · exact hliteral _ _ rfl
  · exact hliteral _ _ rfl
  · exact hliteral _ _ rfl
  · exact congrArg (fun s => some (Expr.this s)) h.span
  · exact congrArg (fun s => some (Expr.super s)) h.span
  · exact hident (hexact ‹_› rfl)
  · exact hident (hexact ‹_› rfl)
  · exact hident (hexact ‹_› rfl)
  · exact hident (hexact ‹_› rfl)
  · exact hident (hexact ‹_› rfl)
  · rfl

/-- A link as it is seen. -/
def Link.view (v : View) : Link → Link
  | call args optional => call (args.map (Expr.view v)) optional
  | member name optional => member (name.view v) optional
  | index key optional => index (key.view v) optional

/-- A link and the end of its last token as they are seen. -/
def stepView (v : View) (x : Link × Position) : Link × Position := (x.1.view v, v.position x.2)

/-- Appending a link and looking commute, so that chains of links that look alike give expressions that do. -/
theorem Link.apply_view (e : Expr) (x : Link × Position) :
    (Link.apply e x).view v = Link.apply (e.view v) (stepView v x) := by
  obtain ⟨l, p⟩ := x
  have hstart : (e.view v).span.start = v.position e.span.start := by rw [e.span_view]; rfl
  cases l with
  | call args optional =>
    show Expr.call (e.view v) (exprsView v args) optional ⟨v.position e.span.start, v.position p⟩ = _
    rw [exprsView_eq, ← hstart]
    rfl
  | member name optional =>
    show Expr.member (e.view v) (name.view v) optional ⟨v.position e.span.start, v.position p⟩ = _
    rw [← hstart]
    rfl
  | index key optional =>
    show Expr.index (e.view v) (key.view v) optional ⟨v.position e.span.start, v.position p⟩ = _
    rw [← hstart]
    rfl

/-- A chain looks as its links do. -/
theorem foldl_apply_view (xs : List (Link × Position)) (e : Expr) :
    (xs.foldl Link.apply e).view v = (xs.map (stepView v)).foldl Link.apply (e.view v) := by
  induction xs generalizing e with
  | nil => rfl
  | cons x xs ih => rw [List.foldl_cons, ih, Link.apply_view, List.map_cons, List.foldl_cons]

/-- Chains of links, folded onto expressions that look alike. -/
theorem Like.foldl_apply {xs xs' : List (Link × Position)} (he : Like (Expr.view v) e e')
    (hxs : Like (List.map (stepView v)) xs xs') :
    Like (Expr.view v) (xs.foldl Link.apply e) (xs'.foldl Link.apply e') := by
  rw [Like, foldl_apply_view, foldl_apply_view, he, hxs]

/-- An operator and its right operand as they are seen. -/
def operandView (v : View) (x : BinaryOp × Expr) : BinaryOp × Expr := (x.1, x.2.view v)

/-- One operator with its right operand. -/
theorem Like.join {x x' : BinaryOp × Expr} (he : Like (Expr.view X.view) e e') (hx : Like (operandView X.view) x x') :
    Like (Expr.view X.view) (e.join x) (e'.join x') := by
  obtain ⟨op, r⟩ := x
  obtain ⟨op', r'⟩ := x'
  obtain ⟨hop, hr⟩ : op = op' ∧ Like (Expr.view X.view) r r' := Prod.mk.inj hx
  have hs := X.merge he.span_of_expr hr.span_of_expr
  show Expr.binary op (e.view X.view) (r.view X.view) _ = Expr.binary op' (e'.view X.view) (r'.view X.view) _
  rw [hop, he, hr, hs]

/-- Chains of operators and operands, folded onto a first operand. -/
theorem Like.foldl_join {xs xs' : List (BinaryOp × Expr)} (he : Like (Expr.view X.view) e e')
    (hxs : Like (List.map (operandView X.view)) xs xs') :
    Like (Expr.view X.view) (xs.foldl Expr.join e) (xs'.foldl Expr.join e') := by
  induction xs generalizing e e' xs' with
  | nil =>
    cases xs' with
    | nil => exact he
    | cons => cases hxs
  | cons x xs ih =>
    cases xs' with
    | nil => cases hxs
    | cons x' xs' =>
      obtain ⟨hx, hxs⟩ := List.cons.inj hxs
      rw [List.foldl_cons, List.foldl_cons]
      exact ih (he.join hx) hxs

end Parts

namespace Grammar

section Productions

variable (h : inner.Agree X inner')

include h

/-! ## Blocks and callables -/

/-- What may follow the name of a binding: its type, which was read with it, and its value. -/
theorem agree_bindingRest {id id' : Ident} {type type' : Option Ident} (hid : Like (Ident.view X.view) id id')
    (htype : Like (Option.map (Ident.viewBy X.view X.view.type)) type type') :
    Agree X (bindingRest inner id type) (bindingRest inner' id' type') (Like (Binding.view X.view)) := by
  refine .optional nofun h.expression fun value value' hvalue => ?_
  refine (Agree.spanFrom hid.span_of_ident.position_of_span).bind fun s s' hs => .pure ?_ rfl
  rw [Like, Binding.view, Binding.view, optExprView_eq, optExprView_eq, hid, htype, hvalue, hs]

/-- A binding on its own. -/
theorem agree_binding : Agree X (binding inner context) (binding inner' context) (Like (Binding.view X.view)) :=
  Agree.identifier.bind fun _ _ hid => Agree.optionalType.bind fun _ _ htype => agree_bindingRest h hid htype

/-- Bindings with commas between them, of which the first has been read in part. -/
theorem agree_bindings {id id' : Ident} {type type' : Option Ident} (hid : Like (Ident.view X.view) id id')
    (htype : Like (Option.map (Ident.viewBy X.view X.view.type)) type type') :
    Agree X (bindings inner context id type) (bindings inner' context id' type')
      (Like (List.map (Binding.view X.view))) := by
  refine (agree_bindingRest h hid htype).bind fun b b' hb =>
    (Agree.afterCommas (agree_binding h)).bind fun bs bs' hbs => ?_
  exact .pure (hb.cons hbs) rfl

/-- Parameters in their parentheses. -/
theorem agree_parameters : Agree X (parameters inner) (parameters inner') (Like (List.map (Binding.view X.view))) :=
  Agree.expectSymbol.next <| (Agree.commaList (agree_binding h)).bind fun _ _ hps =>
    Agree.expectSymbol.next (.pure hps rfl)

omit h in
/-- Items up to a closing brace or the end, with any number of semicolons around them. -/
theorem agree_separated {f : α → β} {item item' : Parser α} [Progress item] (hitem : Agree X item item' (Like f)) :
    Agree X (separated item) (separated item') (Like (List.map f)) := by
  have hround : Agree X (separatedItem item) (separatedItem item') (Like (Option.map f)) := by
    refine Agree.check.bind fun b b' hb => Agree.atEnd.bind fun e e' he => ?_
    subst hb he
    refine .ite (.pure rfl rfl) (hitem.bind fun a a' ha => Agree.skipSemicolons.next (.pure ha.some rfl))
  exact Agree.skipSemicolons.next (Agree.many hround)

/-- Places in the exact view. -/
theorem agree_blockIn : Agree X (blockIn inner context) (blockIn inner' context) (Like (Block.view X.view)) := by
  have := h.reads
  refine Agree.position.bind fun start start' hstart => Agree.expectSymbol.next ?_
  refine (agree_separated h.statement).bind fun body body' hbody => Agree.expectSymbol.next ?_
  refine (Agree.spanFrom hstart).bind fun s s' hs => .pure ?_ rfl
  rw [Like, Block.view, Block.view, stmtsView_eq, stmtsView_eq, hbody, hs]

/-- The rest of a callable behind its name. An abstract one has no body. -/
theorem agree_callableRest {name name' : Option Ident} {isAbstract : Bool}
    (hname : Like (Option.map (Ident.view X.view)) name name') (hstart : Like X.view.position start start') :
    Agree X (callableRest inner name start isAbstract) (callableRest inner' name' start' isAbstract)
      (Like (Callable.view X.view)) := by
  refine (agree_parameters h).bind fun params params' hparams =>
    Agree.optionalType.bind fun result result' hresult => ?_
  have hrest (body body' : Option Block) (hbody : Like (Option.map (Block.view X.view)) body body') :
      Agree X (do return ⟨name, params, result, body, ← spanFrom start⟩)
        (do return ⟨name', params', result', body', ← spanFrom start'⟩) (Like (Callable.view X.view)) := by
    refine (Agree.spanFrom hstart).bind fun s s' hs => .pure ?_ rfl
    rw [Like, Callable.view, Callable.view, bindingsView_eq, bindingsView_eq, optBlockView_eq, optBlockView_eq,
      hname, hparams, hresult, hbody, hs]
  refine Agree.check.bind fun b b' hb => ?_
  subst hb
  refine .ite (.next (Agree.accept (by decide)) (.given (hrest _ _ rfl))) ?_
  exact (agree_blockIn h).bind fun body body' hbody => .given (hrest _ _ hbody.some)

/-! ## Expressions -/

omit h in
/-- Keys are words, strings and numbers, so that a key is not the end. -/
theorem kind_ne_eof_of_objectKey? {t : Token} {key : ObjectKey} (h : objectKey? t = some key) : t.kind ≠ .eof := by
  intro hk
  rw [objectKey?, hk] at h
  cases h

omit h in
/-- A table that knows nothing of the end is asked at a token. -/
theorem kind_ne_eof_of_some (op? : Kind → Option β) (h : op? .eof = none) {k : Kind} {op : β} (hop : op? k = some op) :
    k ≠ .eof := by
  rintro rfl
  rw [h] at hop
  cases hop

omit h in
/-- A target of an assignment is refused in both runs or in none. -/
theorem agree_assignable (he : Like (Expr.view X.view) e e') : Agree X (assignable e) (assignable e') Eq := by
  have hassign : e.isAssignable = e'.isAssignable := by
    rw [← e.isAssignable_view X.view, he, Expr.isAssignable_view]
  have hlabel : e.label = e'.label := by
    rw [← e.label_view X.view, he, Expr.label_view]
  unfold assignable
  rw [hassign, hlabel]
  exact .ite (.pure rfl rfl) (.throw (congrArg (SyntaxError.notAssignable _) he.span_of_expr.position_of_span))

/-- Arguments in their parentheses. -/
theorem agree_arguments : Agree X (arguments inner) (arguments inner') (Like (List.map (Expr.view X.view))) :=
  Agree.expectSymbol.next <| (Agree.commaList h.expression).bind fun _ _ hargs =>
    Agree.expectSymbol.next (.pure hargs rfl)

theorem agree_arrayLiteral : Agree X (arrayLiteral inner) (arrayLiteral inner') (Like (Expr.view X.view)) := by
  refine Agree.position.bind fun start start' hstart => Agree.expectSymbol.next ?_
  refine (Agree.commaList h.expression).bind fun items items' hitems => Agree.expectSymbol.next ?_
  refine (Agree.spanFrom hstart).bind fun s s' hs => .pure ?_ rfl
  rw [Like, Expr.view, Expr.view, exprsView_eq, exprsView_eq, hitems, hs]

/-- A property of an object literal. Its key is read in one step with the test whether it is one. -/
theorem agree_property : Agree X (property inner) (property inner') (Like (Property.view X.view)) := by
  refine Agree.position.bind fun start start' hstart => Agree.peek.bindOn Ensures.peek fun t t' ht => ?_
  rcases ht.objectKey?.option_cases with ⟨hkey, hkey'⟩ | ⟨key, key', hkey, hkey', hlike⟩
  · rw [hkey, hkey']
    exact Agree.fail.on
  · rw [hkey, hkey']
    refine .next (.advance fun c hc => hc.2 ▸ kind_ne_eof_of_objectKey? hkey)
      (Agree.expectSymbol.next (h.expression.bind fun e e' he => ?_))
    refine (Agree.spanFrom hstart).bind fun s s' hs => .pure ?_ rfl
    rw [Like, Property.view, Property.view, hlike, he, hs]

theorem agree_objectLiteral : Agree X (objectLiteral inner) (objectLiteral inner') (Like (Expr.view X.view)) := by
  refine Agree.position.bind fun start start' hstart => Agree.expectSymbol.next ?_
  refine (Agree.commaList (agree_property h)).bind fun ps ps' hps => Agree.expectSymbol.next ?_
  refine (Agree.spanFrom hstart).bind fun s s' hs => .pure ?_ rfl
  rw [Like, Expr.view, Expr.view, propertiesView_eq, propertiesView_eq, hps, hs]

/-- A function without a declaration may have a name. -/
theorem agree_functionExpression :
    Agree X (functionExpression inner) (functionExpression inner') (Like (Expr.view X.view)) := by
  refine Agree.position.bind fun start start' hstart => .next (Agree.expect (by simp)) ?_
  have hrest (name name' : Option Ident) (hname : Like (Option.map (Ident.view X.view)) name name') :
      Agree X (do return .function (← callableRest inner name start false))
        (do return .function (← callableRest inner' name' start' false)) (Like (Expr.view X.view)) :=
    (agree_callableRest h hname hstart).bind fun _ _ hc => .pure (congrArg Expr.function hc) rfl
  exact .checkThen (Agree.on (Agree.identifier.bind fun _ _ hid => .given (hrest _ _ hid.some)))
    (.given (hrest _ _ rfl))

/-- A parenthesized expression, behind a parenthesis that has been seen. -/
theorem agree_parenthesized {P : Cursor → Prop} (hP : ∀ c, P c → c.peek.kind ≠ .eof) :
    AgreeOn X P (parenthesized inner) (parenthesized inner') (Like (Expr.view X.view)) :=
  (AgreeOn.advance hP).next <| h.expression.bind fun _ _ he => Agree.expectSymbol.next (.pure he rfl)

/-- An operand without links. Each kind of token has its own production, and both runs see the same kind. -/
theorem agree_atom : Agree X (atom inner) (atom inner') (Like (Expr.view X.view)) := by
  refine Agree.peek.bindOn Ensures.peek fun t t' ht => ?_
  rcases ht.simple?.option_cases with ⟨hs, hs'⟩ | ⟨e, e', hs, hs', he⟩
  · rw [hs, hs']
    have hkind := ht.kind
    dsimp only
    rw [← hkind]
    split
    · exact (agree_functionExpression h).on
    · rename_i hk
      exact agree_parenthesized h fun c hc he => by rw [← hc.2, he] at hk; cases hk
    · exact (agree_arrayLiteral h).on
    · exact (agree_objectLiteral h).on
    · exact Agree.fail.on
  · rw [hs, hs']
    exact .next (.advance fun c hc => hc.2 ▸ kind_ne_eof_of_simple? hs) (.pure he rfl)

omit h in
theorem agree_propertyName : Agree X (propertyName context) (propertyName context) (Like (PropertyName.view X.view)) :=
  .acceptThen nofun (Agree.propertyWord.bind fun _ _ ht => .pure (congrArg PropertyName.hashed ht.word) rfl)
    (Agree.propertyWord.bind fun _ _ ht => .pure (congrArg PropertyName.plain ht.word) rfl)

/-- A key in brackets. -/
theorem agree_computedKey : Agree X (computedKey inner) (computedKey inner') (Like (Expr.view X.view)) :=
  Agree.expectSymbol.next <| h.expression.bind fun _ _ he => Agree.expectSymbol.next (.pure he rfl)

omit h in
/-- A link together with the place where it ends. -/
theorem agree_ended {l l' : Link} (hl : Like (Link.view X.view) l l') :
    Agree X (ended l) (ended l') (Like (Option.map (stepView X.view))) := by
  refine Agree.look (fun c => some (l, (c.previous.map Token.stop).getD c.peek.start))
    (fun c => some (l', (c.previous.map Token.stop).getD c.peek.start)) (fun c c' hc hb => ?_) fun _ => rfl
  show some (l.view X.view, X.view.position _) = some (l'.view X.view, X.view.position _)
  rw [hl, Agree.stopOf hc (X.peek hc hb).start]

/-- A link behind a point: a name, or a hashed name. -/
theorem agree_propertyLink :
    Agree X (propertyLink inner) (propertyLink inner') (Like (Option.map (stepView X.view))) := by
  refine Agree.ahead fun k => ?_
  split
  · refine .next (.advance fun c hc he => ?_) (agree_propertyName.bind fun n n' hn => agree_ended ?_)
    · cases hc.2.symm.trans he
    · exact congrArg (Link.member · false) hn
  · exact Agree.on ((agree_computedKey h).bind fun _ _ hk => agree_ended (congrArg (Link.index · false) hk))
  · exact .pure rfl rfl

/-- Any link. Links that may be skipped are told from others by their first token. -/
theorem agree_link : Agree X (link inner) (link inner') (Like (Option.map (stepView X.view))) := by
  refine Agree.ahead fun k => ?_
  split
  · exact Agree.on ((agree_arguments h).bind fun _ _ hargs => agree_ended (congrArg (Link.call · false) hargs))
  · refine .next (.advance fun c hc he => by cases hc.2.symm.trans he) (Agree.kind.bind fun k k' hk => ?_)
    subst hk
    split
    · exact (agree_arguments h).bind fun _ _ hargs => agree_ended (congrArg (Link.call · true) hargs)
    · exact (agree_computedKey h).bind fun _ _ hk => agree_ended (congrArg (Link.index · true) hk)
    · exact agree_propertyName.bind fun _ _ hn => agree_ended (congrArg (Link.member · true) hn)
  · exact (agree_propertyLink h).on

omit h in
theorem agree_newWord : Agree X newWord newWord (Like (Option.map X.view.position)) := by
  refine .checkThen (Agree.position.on.bindOn Ensures.position fun _ _ hp => ?_) (.pure rfl rfl)
  exact .next (.advance fun c hc he => by cases hc.symm.trans he) (.pure hp.some rfl)

/-- Constructions whose words have been read, from the innermost one outwards. -/
theorem agree_constructions {starts starts' : List Position} (hstarts : Like (List.map X.view.position) starts starts')
    (he : Like (Expr.view X.view) e e') :
    Agree X (constructions inner starts e) (constructions inner' starts' e') (Like (Expr.view X.view)) := by
  have := h.reads
  induction starts generalizing starts' e e' with
  | nil =>
    obtain rfl : starts' = [] := List.map_eq_nil_iff.mp hstarts.symm
    exact .pure he rfl
  | cons start starts ih =>
    cases starts' with
    | nil => cases hstarts
    | cons start' starts' =>
      obtain ⟨hstart, hstarts⟩ := List.cons.inj hstarts
      refine (Agree.many (agree_propertyLink h)).bind fun xs xs' hxs => Agree.check.bind fun b b' hb => ?_
      subst hb
      have hrest (args args' : List Expr) (hargs : Like (List.map (Expr.view X.view)) args args') :
          Agree X (do constructions inner starts (.new (xs.foldl Link.apply e) args (← spanFrom start)))
            (do constructions inner' starts' (.new (xs'.foldl Link.apply e') args' (← spanFrom start')))
            (Like (Expr.view X.view)) := by
        refine (Agree.spanFrom hstart).bind fun s s' hs => ih hstarts ?_
        rw [Like, Expr.view, Expr.view, exprsView_eq, exprsView_eq, he.foldl_apply hxs, hargs, hs]
      exact .ite ((agree_arguments h).bind hrest) (.given (hrest _ _ rfl))

/-- An operand with all words of construction in front of it. -/
theorem agree_primary : Agree X (primary inner) (primary inner') (Like (Expr.view X.view)) := by
  refine (Agree.many agree_newWord).bind fun starts starts' hstarts => (agree_atom h).bind fun e e' he => ?_
  refine agree_constructions h ?_ he
  rw [Like, List.map_reverse, List.map_reverse, hstarts]

/-- A chain of links. -/
theorem agree_call : Agree X (call inner) (call inner') (Like (Expr.view X.view)) := by
  have := h.reads
  exact (agree_primary h).bind fun _ _ he => (Agree.many (agree_link h)).bind fun _ _ hxs =>
    .pure (he.foldl_apply hxs) rfl

/-- A chain that may be stepped. The operator counts only on the line of the chain, which is where the rule about
line breaks comes in. -/
theorem agree_postfixed : Agree X (postfixed inner) (postfixed inner') (Like (Expr.view X.view)) := by
  refine (agree_call h).bind fun e e' he => .updateLine (.pure he rfl) fun op b => ?_
  refine .ite (.pure he rfl) ((agree_assignable he).on.bindOn (ensures_assignable e) fun _ _ _ => ?_)
  refine .next (.advance fun c hc => kind_ne_eof_of_some updateOp? rfl hc.2) ?_
  refine (Agree.spanFrom he.span_of_expr.position_of_span).bind fun s s' hs => .pure ?_ rfl
  rw [Like, Expr.view, Expr.view, he, hs]

/-- Operators in front of an operand. -/
theorem agree_unary : Agree X (unary inner) (unary inner') (Like (Expr.view X.view)) := by
  refine Agree.position.bind fun start start' hstart => Agree.ahead fun k => Agree.ahead fun l => ?_
  split
  · rename_i hop
    refine .next (.advance fun c hc => ?_) (h.unary.bind fun e e' he => (agree_assignable he).next ?_)
    · exact hc.1.2 ▸ kind_ne_eof_of_some updateOp? rfl hop
    refine (Agree.spanFrom hstart).bind fun s s' hs => .pure ?_ rfl
    rw [Like, Expr.view, Expr.view, he, hs]
  · rename_i hop
    refine .next (.advance fun c hc => ?_)
      (h.unary.bind fun e e' he => (Agree.spanFrom hstart).bind fun s s' hs => .pure ?_ rfl)
    · exact hc.2 ▸ kind_ne_eof_of_some unaryOp? rfl hop
    rw [Like, Expr.view, Expr.view, he, hs]
  · exact (agree_postfixed h).on

/-- Powers group to the right. -/
theorem agree_exponent : Agree X (exponent inner) (exponent inner') (Like (Expr.view X.view)) := by
  refine (agree_unary h).bind fun e e' he => .acceptThen nofun (h.exponent.bind fun r r' hr => ?_) (.pure he rfl)
  exact .pure (he.join (congrArg (BinaryOp.exponent, ·) hr)) rfl

omit h in
/-- A level of operators that group to the left, by the level below it. -/
theorem agree_leftChain {op? : Kind → Option BinaryOp} {operand operand' : Parser Expr} [Progress operand]
    (hend : op? .eof = none) (ho : Agree X operand operand' (Like (Expr.view X.view))) :
    Agree X (leftChain op? operand) (leftChain op? operand') (Like (Expr.view X.view)) := by
  have hitem : Agree X (chainItem op? operand) (chainItem op? operand') (Like (Option.map (operandView X.view))) := by
    refine Agree.ahead fun k => ?_
    split
    · exact .pure rfl rfl
    · rename_i op hop
      refine .next (.advance fun c hc => hc.2 ▸ kind_ne_eof_of_some op? hend hop) (ho.bind fun r r' hr => ?_)
      exact .pure (congrArg (fun e => some (op, e)) hr) rfl
  exact ho.bind fun e e' he => (Agree.many hitem).bind fun xs xs' hxs => .pure (he.foldl_join hxs) rfl

/-- All levels from products to disjunctions, one above the other. -/
theorem agree_logicalOr : Agree X (logicalOr inner) (logicalOr inner') (Like (Expr.view X.view)) := by
  have := h.reads
  unfold logicalOr logicalAnd bitwiseOr bitwiseAnd equality relational shift additive multiplicative
  iterate 9 refine agree_leftChain rfl ?_
  exact agree_exponent h

/-- An assignment, or what may stand on the left of one. -/
theorem agree_assignment : Agree X (assignment inner) (assignment inner') (Like (Expr.view X.view)) := by
  refine (agree_logicalOr h).bind fun e e' he => Agree.ahead fun k => ?_
  split
  · exact .pure he rfl
  · rename_i hop
    refine (agree_assignable he).on.bindOn (ensures_assignable e) fun _ _ _ => ?_
    refine .next (.advance fun c hc => ?_) (h.expression.bind fun r r' hr => .pure ?_ rfl)
    · exact hc.2.2 ▸ kind_ne_eof_of_some assignOp? rfl hop
    rw [Like, Expr.view, Expr.view, he, hr, X.merge he.span_of_expr hr.span_of_expr]

/-! ## Classes -/

omit h in
/-- Names of classes and of bases have one spelling. -/
theorem isRespelt_of_mem_classKinds {k : Kind} (hk : k ∈ classKinds) : k.isRespelt = false := by
  have hall : ∀ k ∈ classKinds, k.isRespelt = false := by decide
  exact hall k hk

omit h in
/-- The base of a class: a path of names. -/
theorem agree_qualifiedName : Agree X qualifiedName qualifiedName (Like (Expr.view X.view)) := by
  have hlink : Agree X qualifier qualifier (Like (Option.map (stepView X.view))) := by
    refine .acceptThen nofun (Agree.propertyWord.bind fun t t' ht => agree_ended ?_) (.pure rfl rfl)
    exact congrArg (fun w => Link.member (.plain w) false) ht.word
  rw [qualifiedName_eq]
  refine .bind (Agree.expect (by decide)) fun t t' ht => (Agree.many hlink).bind fun xs xs' hxs =>
    .pure (Like.foldl_apply ?_ hxs) rfl
  rw [Like, Expr.view, Expr.view, ht.1.text (isRespelt_of_mem_classKinds ht.2), ht.1.span]

omit h in
/-- A decorator. Its name is any word, so that a keyword may be spelt in two ways. -/
theorem agree_decorator :
    Agree X decorator decorator (Like (Option.map (Ident.viewBy X.view X.view.word))) := by
  refine .checkThen (.bind (.advance fun c hc he => by cases hc.symm.trans he) fun sign sign' hsign => ?_)
    (.pure rfl rfl)
  refine Agree.propertyWord.bind fun t t' ht => .pure ?_ rfl
  exact congrArg some (Like.ident ht.word (.span hsign.start ht.stop))

omit h in
/-- A modifier. -/
theorem agree_modifier : Agree X modifier modifier (Like (Option.map id)) := by
  refine Agree.ahead fun k => ?_
  split
  · rename_i hk
    exact .next (.advance fun c hc he => by rw [← hc.2, he] at hk; cases hk) (.pure rfl rfl)
  · exact .pure rfl rfl

/-- A method behind its name. -/
theorem agree_method {name name' : PropertyName} {kind : MethodKind} {modifiers : Modifiers}
    {decorators decorators' : List Ident} (hname : Like (PropertyName.view X.view) name name')
    (hdecorators : Like (List.map (Ident.viewBy X.view X.view.word)) decorators decorators')
    (hstart : Like X.view.position start start') :
    Agree X (method inner name kind modifiers decorators start) (method inner' name' kind modifiers decorators' start')
      (Like (Member.view X.view)) := by
  refine Agree.position.bind fun p p' hp => (agree_callableRest h rfl hp).bind fun callable callable' hc => ?_
  refine (Agree.spanFrom hstart).bind fun s s' hs => .pure ?_ rfl
  rw [Like, Member.view, Member.view, hname, hc, hdecorators, hs]

/-- A field behind its name. -/
theorem agree_field {name name' : PropertyName} {modifiers : Modifiers} {decorators decorators' : List Ident}
    (hname : Like (PropertyName.view X.view) name name')
    (hdecorators : Like (List.map (Ident.viewBy X.view X.view.word)) decorators decorators')
    (hstart : Like X.view.position start start') :
    Agree X (field inner name modifiers decorators start) (field inner' name' modifiers decorators' start')
      (Like (Member.view X.view)) := by
  refine Agree.optionalType.bind fun type type' htype => .optional nofun h.expression fun value value' hvalue => ?_
  refine .next (Agree.accept nofun) ((Agree.spanFrom hstart).bind fun s s' hs => .pure ?_ rfl)
  rw [Like, Member.view, Member.view, optExprView_eq, optExprView_eq, hname, htype, hvalue, hdecorators, hs]

/-- A member whose decorators and modifiers have been read; `named` says that a name follows the next token. -/
def memberNamed (inner : Inner) (modifiers : Modifiers) (decorators : List Ident) (start : Position) (named : Bool) :
    Parser Member := do
  match accessor? (← kind), named with
  | some kind, true =>
    let _ ← advance
    method inner (← propertyName .classBody) kind modifiers decorators start
  | _, _ =>
    let name ← propertyName .classBody
    if ← check (.symbol .leftParen) then method inner name .ordinary modifiers decorators start
    else field inner name modifiers decorators start

/-- A member behind its modifiers. Whether the word that follows is one for an accessor depends on the token after
it. -/
theorem agree_memberNamed {modifiers : Modifiers} {decorators decorators' : List Ident}
    (hdecorators : Like (List.map (Ident.viewBy X.view X.view.word)) decorators decorators')
    (hstart : Like X.view.position start start') (named : Bool) :
    Agree X (memberNamed inner modifiers decorators start named) (memberNamed inner' modifiers decorators' start' named)
      (Like (Member.view X.view)) := by
  refine Agree.ahead fun k => ?_
  split
  · rename_i hk
    refine .next (.advance fun c hc => ?_) (agree_propertyName.bind fun n n' hn => agree_method h hn hdecorators hstart)
    exact hc.2 ▸ kind_ne_eof_of_some accessor? rfl hk
  · refine Agree.on (agree_propertyName.bind fun n n' hn => ?_)
    exact .checkThen (agree_method h hn hdecorators hstart).on (agree_field h hn hdecorators hstart)

/-- A member with its decorators and modifiers. -/
theorem agree_member : Agree X (member inner) (member inner') (Like (Member.view X.view)) := by
  have := h.reads
  refine Agree.position.bind fun start start' hstart => (Agree.many agree_decorator).bind fun ds ds' hds => ?_
  refine (Agree.many agree_modifier).bind fun ks ks' hks => ?_
  obtain rfl : ks = ks' := by simpa [Like] using hks
  have hread : Progress (memberNamed inner (ks.foldl (fun m k => (m.add? k).getD m) default) ds start false) := by
    unfold memberNamed
    refine Forward.bindProgress inferInstance fun k => ?_
    split <;> infer_instance
  exact .acceptThen nofun (agree_method h rfl hds hstart) (.nextName _ _ (agree_memberNamed h hds hstart) hread)

omit h in
/-- The interfaces of a class. -/
theorem agree_interfaces : Agree X interfaces interfaces (Like (List.map (Ident.view X.view))) := by
  have hname : Agree X (do let t ← expect classKinds .classDeclaration; return ⟨t.text, t.span⟩)
      (do let t ← expect classKinds .classDeclaration; return ⟨t.text, t.span⟩) (Like (Ident.view X.view)) :=
    .bind (Agree.expect (by decide)) fun t t' ht =>
      .pure (.ident (ht.1.text (isRespelt_of_mem_classKinds ht.2)) ht.1.span) rfl
  refine .acceptThen nofun (hname.bind fun i i' hi => (Agree.afterCommas hname).bind fun is is' his => ?_)
    (.pure rfl rfl)
  exact .pure (hi.cons his) rfl

theorem agree_classDeclaration :
    Agree X (classDeclaration inner) (classDeclaration inner') (Like (Stmt.view X.view)) := by
  have := h.reads
  refine Agree.position.bind fun start start' hstart =>
    .next (Agree.expect (by simp)) (Agree.identifier.bind fun name name' hname => ?_)
  refine .optional nofun agree_qualifiedName fun base base' hbase => agree_interfaces.bind fun is is' his => ?_
  refine Agree.expectSymbol.next ((agree_separated (agree_member h)).bind fun ms ms' hms => Agree.expectSymbol.next ?_)
  refine (Agree.spanFrom hstart).bind fun s s' hs => .pure ?_ rfl
  rw [Like, Stmt.view, Stmt.view, optExprView_eq, optExprView_eq, membersView_eq, membersView_eq, hname,
    hbase, his, hms, hs]

/-! ## Statements -/

omit h in
theorem agree_variableKind : Agree X variableKind variableKind Eq :=
  .bind (Agree.expect (by decide)) fun t t' ht => .pure (by rw [ht.1.kind]) rfl

/-- A declaration without the semicolon behind it. -/
theorem agree_variableDeclaration :
    Agree X (variableDeclaration inner) (variableDeclaration inner') (Like (Declaration.view X.view)) := by
  refine Agree.position.bind fun start start' hstart => agree_variableKind.bind fun k k' hk => ?_
  refine Agree.identifier.bind fun x x' hx => Agree.optionalType.bind fun type type' htype => ?_
  refine (agree_bindings h hx htype).bind fun bs bs' hbs => (Agree.spanFrom hstart).bind fun s s' hs => .pure ?_ rfl
  rw [Like, Declaration.view, Declaration.view, bindingsView_eq, bindingsView_eq, hk, hbs, hs]

theorem agree_variablesStatement :
    Agree X (variablesStatement inner) (variablesStatement inner') (Like (Stmt.view X.view)) :=
  (agree_variableDeclaration h).bind fun _ _ hd => .next (Agree.accept nofun) (.pure (congrArg Stmt.declaration hd) rfl)

theorem agree_functionDeclaration :
    Agree X (functionDeclaration inner) (functionDeclaration inner') (Like (Stmt.view X.view)) := by
  refine Agree.position.bind fun start start' hstart =>
    .next (Agree.expect (by simp)) (Agree.identifier.bind fun x x' hx => ?_)
  exact (agree_callableRest h hx.some hstart).bind fun _ _ hc => .pure (congrArg Stmt.function hc) rfl

/-- A condition in parentheses. -/
theorem agree_condition : Agree X (condition inner context) (condition inner' context) (Like (Expr.view X.view)) :=
  .acceptThen nofun (h.expression.bind fun _ _ he => Agree.expectSymbol.next (.pure he rfl)) h.expression

/-- A branch that has no alternative is told from one that has by the next token. -/
theorem agree_ifStatement : Agree X (ifStatement inner) (ifStatement inner') (Like (Stmt.view X.view)) := by
  refine Agree.position.bind fun start start' hstart =>
    .next (Agree.expect (by simp)) ((agree_condition h).bind fun e e' he => ?_)
  refine h.statement.bind fun s s' hs => .optional nofun h.statement fun t t' ht => ?_
  refine (Agree.spanFrom hstart).bind fun span span' hspan => .pure ?_ rfl
  rw [Like, Stmt.view, Stmt.view, optStmtView_eq, optStmtView_eq, he, hs, ht, hspan]

theorem agree_whileStatement : Agree X (whileStatement inner) (whileStatement inner') (Like (Stmt.view X.view)) := by
  refine Agree.position.bind fun start start' hstart =>
    .next (Agree.expect (by simp)) ((agree_condition h).bind fun e e' he => ?_)
  refine h.statement.bind fun s s' hs => (Agree.spanFrom hstart).bind fun span span' hspan => .pure ?_ rfl
  rw [Like, Stmt.view, Stmt.view, he, hs, hspan]

/-- A clause of a loop, which is missing if the closing token follows at once. -/
theorem agree_optionalExpression {closing : Kind} :
    Agree X (optionalExpression inner closing) (optionalExpression inner' closing)
      (Like (Option.map (Expr.view X.view))) :=
  .checkThen (.pure rfl rfl) (h.expression.bind fun _ _ he => .pure he.some rfl)

/-- The rest of a loop over items. -/
theorem agree_forEachRest {inParens : Bool} {kind : VariableKind} {x x' : Ident} {type type' : Option Ident}
    (hstart : Like X.view.position start start') (hx : Like (Ident.view X.view) x x')
    (htype : Like (Option.map (Ident.viewBy X.view X.view.type)) type type') :
    Agree X (forEachRest inner start inParens kind x type) (forEachRest inner' start' inParens kind x' type')
      (Like (Stmt.view X.view)) := by
  refine h.expression.bind fun e e' he => ?_
  have hrest : Agree X (do let body ← inner.statement; return .forEach kind x type e body (← spanFrom start))
      (do let body ← inner'.statement; return .forEach kind x' type' e' body (← spanFrom start'))
      (Like (Stmt.view X.view)) := by
    refine h.statement.bind fun s s' hs => (Agree.spanFrom hstart).bind fun span span' hspan => .pure ?_ rfl
    rw [Like, Stmt.view, Stmt.view, hx, htype, he, hs, hspan]
  exact .ite (Agree.expectSymbol.next hrest) hrest

/-- The rest of a loop with three clauses. -/
theorem agree_forLoopRest {inParens : Bool} {init init' : Option ForInit} (hstart : Like X.view.position start start')
    (hinit : Like (Option.map (ForInit.view X.view)) init init') :
    Agree X (forLoopRest inner start inParens init) (forLoopRest inner' start' inParens init')
      (Like (Stmt.view X.view)) := by
  refine Agree.expectSymbol.next ((agree_optionalExpression h).bind fun test test' htest => Agree.expectSymbol.next ?_)
  refine .ite ?_ ?_
  · refine (agree_optionalExpression h).bind fun update update' hupdate => Agree.expectSymbol.next ?_
    refine h.statement.bind fun s s' hs => (Agree.spanFrom hstart).bind fun span span' hspan => .pure ?_ rfl
    rw [Like, Stmt.view, Stmt.view, optForInitView_eq, optForInitView_eq, optExprView_eq, optExprView_eq,
      optExprView_eq, optExprView_eq, hinit, htest, hupdate, hs, hspan]
  · refine (agree_optionalExpression h).bind fun update update' hupdate => (agree_blockIn h).bind fun b b' hb => ?_
    refine (Agree.spanFrom hstart).bind fun span span' hspan => .pure ?_ rfl
    rw [Like, Stmt.view, Stmt.view, Stmt.view, Stmt.view, optForInitView_eq, optForInitView_eq, optExprView_eq,
      optExprView_eq, optExprView_eq, optExprView_eq, hinit, htest, hupdate, hb, hspan]

/-- Which of the two kinds of loops it is shows behind the first binding. -/
theorem agree_forStatement : Agree X (forStatement inner) (forStatement inner') (Like (Stmt.view X.view)) := by
  refine Agree.position.bind fun start start' hstart =>
    .next (Agree.expect (by simp)) (.bind (Agree.accept nofun) fun p p' hp => ?_)
  refine Agree.check.bind fun b b' hb => Agree.check.bind fun d d' hd => ?_
  subst hp hb hd
  refine .ite ?_ ?_
  · refine Agree.position.bind fun from_ from' hfrom => agree_variableKind.bind fun k k' hk => ?_
    refine Agree.identifier.bind fun x x' hx => Agree.optionalType.bind fun type type' htype => ?_
    subst hk
    refine .acceptThen nofun (agree_forEachRest h hstart hx htype)
      ((agree_bindings h hx htype).bind fun bs bs' hbs => ?_)
    refine (Agree.spanFrom hfrom).bind fun s s' hs => agree_forLoopRest h hstart (Like.some ?_)
    rw [Like, ForInit.view, ForInit.view, Declaration.view, Declaration.view, bindingsView_eq, bindingsView_eq, hbs, hs]
  · refine (agree_optionalExpression h).bind fun init init' hinit => agree_forLoopRest h hstart ?_
    rcases hinit.option_cases with ⟨rfl, rfl⟩ | ⟨e, e', rfl, rfl, he⟩
    · rfl
    · exact congrArg (fun e => some (ForInit.expression e)) he

/-- A return. The line break behind its word decides whether a value follows, which is the other place where line
breaks matter. -/
theorem agree_returnStatement : Agree X (returnStatement inner) (returnStatement inner') (Like (Stmt.view X.view)) := by
  refine Agree.position.bind fun start start' hstart => .returnLine fun k b b' hb => ?_
  have hrest (value value' : Option Expr) (hvalue : Like (Option.map (Expr.view X.view)) value value') :
      Agree X (do let _ ← accept (.symbol .semicolon); return .ret value (← spanFrom start))
        (do let _ ← accept (.symbol .semicolon); return .ret value' (← spanFrom start')) (Like (Stmt.view X.view)) := by
    refine .next (Agree.accept nofun) ((Agree.spanFrom hstart).bind fun s s' hs => .pure ?_ rfl)
    rw [Like, Stmt.view, Stmt.view, optExprView_eq, optExprView_eq, hvalue, hs]
  -- before the end there is no value, whether the end is on a new line or not
  have hends : ([Kind.symbol .semicolon, .symbol .rightBrace, .eof].contains k || b) =
      ([Kind.symbol .semicolon, .symbol .rightBrace, .eof].contains k || b') := by
    by_cases hk : k = .eof
    · subst hk
      rfl
    · rw [hb hk]
  dsimp only
  rw [hends]
  exact .ite (.given (hrest _ _ rfl)) (h.expression.bind fun e e' he => .given (hrest _ _ he.some))

theorem agree_expressionStatement :
    Agree X (expressionStatement inner) (expressionStatement inner') (Like (Stmt.view X.view)) := by
  refine Agree.position.bind fun start start' hstart => h.expression.bind fun e e' he => .next (Agree.accept nofun) ?_
  refine (Agree.spanFrom hstart).bind fun s s' hs => .pure ?_ rfl
  rw [Like, Stmt.view, Stmt.view, he, hs]

/-- Any statement. Its first token tells which production is taken. -/
theorem agree_statement : Agree X (statement inner) (statement inner') (Like (Stmt.view X.view)) := by
  refine Agree.kind.bind fun k k' hk => ?_
  subst hk
  split
  · exact agree_variablesStatement h
  · exact agree_variablesStatement h
  · exact agree_functionDeclaration h
  · exact agree_classDeclaration h
  · exact agree_ifStatement h
  · exact agree_whileStatement h
  · exact agree_forStatement h
  · exact agree_returnStatement h
  · exact (agree_blockIn h).bind fun _ _ hb => .pure (congrArg Stmt.block hb) rfl
  · exact agree_expressionStatement h

/-- All statements of a program. -/
theorem agree_statements : Agree X (statements inner) (statements inner') (Like (Program.view X.view)) := by
  have := h.reads
  have hitem : Agree X (programItem inner) (programItem inner') (Like (Option.map (Stmt.view X.view))) := by
    refine Agree.atEnd.bind fun e e' he => ?_
    subst he
    refine .ite (.pure rfl rfl) (Agree.check.bind fun b b' hb => Agree.check.bind fun p p' hp => ?_)
    subst hb hp
    have hrest : Agree X (do let s ← inner.statement; skipSemicolons; return some s)
        (do let s ← inner'.statement; skipSemicolons; return some s) (Like (Option.map (Stmt.view X.view))) :=
      h.statement.bind fun s s' hs => Agree.skipSemicolons.next (.pure hs.some rfl)
    exact .ite ((Agree.fail (S := Eq)).next hrest) hrest
  refine Agree.position.bind fun start start' hstart => Agree.skipSemicolons.next ?_
  refine (Agree.many hitem).bind fun body body' hbody => (Agree.spanFrom hstart).bind fun s s' hs => .pure ?_ rfl
  rw [Like, Program.view, Program.view, stmtsView_eq, stmtsView_eq, hbody, hs]

end Productions

end Grammar

/-! ## Levels -/

/-- One level around others that agree. -/
theorem Inner.Agree.around (h : inner.Agree X inner') : inner.around.Agree X inner'.around where
  reads := by
    have := h.reads
    infer_instance
  expression := agree_assignment h
  exponent := agree_exponent h
  unary := agree_unary h
  statement := agree_statement h

/-- As many levels on both sides agree. -/
theorem Inner.Agree.level (X : Comparison) (n : Nat) : (level n).Agree X (level n) := by
  induction n with
  | zero => exact ⟨inferInstance, .tooDeep, .tooDeep, .tooDeep, .tooDeep⟩
  | succ n ih => exact ih.around

/-- Two readings of whole programs agree. -/
theorem Grammar.agree_program : Agree X program program (Like (Program.view X.view)) :=
  agree_statements (Inner.Agree.level X maxDepth)

end Vernacular
