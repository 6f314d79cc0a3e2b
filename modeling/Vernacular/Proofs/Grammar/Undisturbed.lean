import Vernacular.Proofs.Grammar.Gaps

/-!
# Productions among extra semicolons

No production is disturbed by semicolons that have been put in at the seams of what it reads.

- `BeginsNext`: items of a list begin where their spans do, so a span tells the seam before an item;
- `Inner.Follows`: what is known of the productions one level further in, from which it follows of those at this level,
  one lemma for each;
- `Inner.Follows.level`: all levels, by induction.
-/

namespace Vernacular

open Grammar Vernacular.Parser

variable {α β γ : Type} {J : Nat → Prop} {g : Guard} {inner : Inner}
variable {start start' : Position} {context : Context} {e : Expr}

/-! ## Seams of what is put together -/

/-- The seams of a link. -/
@[simp] def Link.seams : Link → List Nat
  | call args _ => exprsSeams args
  | member .. => []
  | index key _ => key.seams

/-- The seams of a chain of links are those of its first operand and of its links. -/
theorem mem_seams_foldl_apply {k : Nat} (xs : List (Link × Position)) (e : Expr)
    (hk : k ∈ (xs.foldl Link.apply e).seams) : k ∈ e.seams ∨ k ∈ xs.flatMap fun x => x.1.seams := by
  induction xs generalizing e with
  | nil => exact .inl hk
  | cons x xs ih =>
    rw [List.flatMap_cons, List.mem_append]
    rcases ih _ hk with hk | hk
    · obtain ⟨_ | _ | _, stop⟩ := x <;> simp [Link.apply, Link.seams] at hk ⊢ <;> grind
    · exact .inr (.inr hk)

/-- The seams of a chain of operators are those of its operands. -/
theorem mem_seams_foldl_join {k : Nat} (xs : List (BinaryOp × Expr)) (e : Expr)
    (hk : k ∈ (xs.foldl Expr.join e).seams) : k ∈ e.seams ∨ k ∈ xs.flatMap fun x => x.2.seams := by
  induction xs generalizing e with
  | nil => exact .inl hk
  | cons x xs ih =>
    rw [List.flatMap_cons, List.mem_append]
    rcases ih _ hk with hk | hk
    · rw [Expr.join, Expr.seams, List.mem_append] at hk
      exact hk.imp id .inl
    · exact .inr (.inr hk)

/-- A semicolon is no key. -/
theorem Token.Twin.objectKey? {t t' : Token} (ht : t.Twin t') :
    Like (Option.map (ObjectKey.view .placeless)) (objectKey? t) (objectKey? t') := by
  by_cases hk : t.kind = .symbol .semicolon
  · have hk' := ht.kind ▸ hk
    unfold Grammar.objectKey?
    rw [hk, hk']
    rfl
  · exact (ht.tokenLike hk).objectKey?

/-- A semicolon stands for no expression. -/
theorem Token.Twin.simple? {t t' : Token} (ht : t.Twin t') :
    Like (Option.map (Expr.view .placeless)) (simple? t) (simple? t') := by
  by_cases hk : t.kind = .symbol .semicolon
  · have hk' := ht.kind ▸ hk
    unfold Grammar.simple?
    rw [hk, hk']
    rfl
  · exact (ht.tokenLike hk).simple?

/-- What is a single token has no seam. -/
theorem seams_of_simple? {t : Token} (h : simple? t = some e) : e.seams = [] := by
  unfold simple? at h
  split at h <;> cases h <;> rfl

theorem Like.foldl_join_placeless {e' : Expr} {xs xs' : List (BinaryOp × Expr)} (he : Like (Expr.view .placeless) e e')
    (hxs : Like (List.map (operandView .placeless)) xs xs') :
    Like (Expr.view .placeless) (xs.foldl Expr.join e) (xs'.foldl Expr.join e') :=
  Like.foldl_join (X := renumberings []) he hxs

/-! ## Where items begin -/

/-- What is read begins with the next token. -/
def BeginsNext (p : Parser α) (G : α → Position) : Prop := ∀ c a d, p c = .ok a d → G a = c.peek.start

/-- A reader that notes its place first begins there. -/
theorem BeginsNext.position {G : α → Position} {f : Position → Parser α}
    (h : ∀ start, Returns (f start) fun a => G a = start) : BeginsNext (position >>= f) G :=
  fun c a d ha => h c.peek.start c a d trivial ha

theorem BeginsNext.kind {G : α → Position} {f : Kind → Parser α} (h : ∀ k, BeginsNext (f k) G) :
    BeginsNext (kind >>= f) G :=
  fun c a d ha => h c.peek.kind c a d ha

/-- What is made of the item that is read first begins where that item does. -/
theorem BeginsNext.bind {G : α → Position} {F : β → Position} {p : Parser α} {f : α → Parser β} (hp : BeginsNext p G)
    (hf : ∀ a, Returns (f a) fun b => F b = G a) : BeginsNext (p >>= f) F := by
  intro c b d h
  obtain ⟨a, m, ha, hb⟩ := ok_of_bind h
  exact (hf a m b d trivial hb).trans (hp c a m ha)

/-- A stretch begins where it is said to. -/
theorem returns_spanFrom {G : α → Position} {node : Span → α} (h : ∀ s, G (node s) = s.start) :
    Returns (spanFrom start >>= fun s => pure (node s)) fun a => G a = start := by
  rintro c _ _ - ⟨⟩
  exact h _

/-- A part that may be missing, whose result does not matter. -/
theorem Parser.Returns.afterOptional {k : Kind} {p : Parser α} {K : Option α → Parser β} {G : β → Prop}
    (hK : ∀ o, Returns (K o) G) :
    Returns (accept k >>= fun b => if b = true then p >>= fun a =>
      pure (Option.some a) >>= K else pure Option.none >>= K)
      G :=
  .after fun _ => .ite (.after fun _ => hK _) (hK _)

namespace Grammar

/-- A member begins with its first decorator, modifier or name, whichever there is. -/
theorem beginsNext_member : BeginsNext (member inner) fun m => m.span.start := by
  have hmethod {name : PropertyName} {kind : MethodKind} {modifiers : Modifiers} {decorators : List Ident}
      {start : Position} : Returns (method inner name kind modifiers decorators start) fun m => m.span.start = start :=
    .after fun _ => .after fun _ => returns_spanFrom fun _ => rfl
  have hfield {name : PropertyName} {modifiers : Modifiers} {decorators : List Ident} {start : Position} :
      Returns (field inner name modifiers decorators start) fun m => m.span.start = start :=
    .after fun _ => .afterOptional fun _ => .after fun _ => returns_spanFrom fun _ => rfl
  refine .position fun start => .after fun _ => .after fun _ => .after fun b => .ite hmethod ?_
  refine .after fun c => .after fun k => ?_
  split
  · exact .after fun _ => .after fun _ => hmethod
  · exact .after fun _ => .after fun _ => .ite hmethod hfield

/-- A loop of either kind begins with its word. -/
theorem beginsNext_forStatement : BeginsNext (forStatement inner) fun s => s.span.start := by
  have heach {start : Position} {inParens : Bool} {kind : VariableKind} {x : Ident} {type : Option Ident} :
      Returns (forEachRest inner start inParens kind x type) fun s => s.span.start = start := by
    refine .after fun _ => .ite (.after fun _ => ?_) ?_
    · exact .after fun _ => returns_spanFrom fun _ => rfl
    · exact .after fun _ => returns_spanFrom fun _ => rfl
  have hloop {start : Position} {inParens : Bool} {init : Option ForInit} :
      Returns (forLoopRest inner start inParens init) fun s => s.span.start = start := by
    refine .after fun _ => .after fun _ => .after fun _ =>
      .ite (.after fun _ => .after fun _ => ?_) (.after fun _ => ?_)
    · exact .after fun _ => returns_spanFrom fun _ => rfl
    · exact .after fun _ => returns_spanFrom fun _ => rfl
  refine .position fun _ => .after fun _ => .after fun _ => .after fun _ => .after fun _ =>
    .ite ?_ (.after fun _ => hloop)
  refine .after fun _ => .after fun _ => .after fun _ => .after fun _ => .after fun _ => .ite heach ?_
  exact .after fun _ => .after fun _ => hloop

/-- Every statement begins where its span does, so that the seam in front of it can be told from the span. -/
theorem beginsNext_statement : BeginsNext (statement inner) fun s => s.span.start := by
  have hvariables : BeginsNext (variablesStatement inner) fun s => s.span.start := by
    refine BeginsNext.bind (.position fun _ => ?_) fun d => .after fun _ => .pure rfl
    exact .after fun _ => .after fun _ => .after fun _ => .after fun _ => returns_spanFrom fun _ => rfl
  refine .kind fun k => ?_
  split
  · exact hvariables
  · exact hvariables
  · refine .position fun _ => .after fun _ => .after fun _ =>
      Returns.bind (F := fun c => c.span.start = _) ?_ fun _ hc => .pure hc
    exact .after fun _ => .after fun _ => .after fun _ => .after fun _ => returns_spanFrom fun _ => rfl
  · refine .position fun _ => .after fun _ => .after fun _ => .afterOptional fun _ => .after fun _ => .after fun _ => ?_
    exact .after fun _ => .after fun _ => returns_spanFrom fun _ => rfl
  · refine .position fun _ => .after fun _ => .after fun _ => .after fun _ => .afterOptional fun _ => ?_
    exact returns_spanFrom fun _ => rfl
  · exact .position fun _ => .after fun _ => .after fun _ => .after fun _ => returns_spanFrom fun _ => rfl
  · exact beginsNext_forStatement
  · refine .position fun _ => .after fun _ => .after fun _ => .after fun _ => .ite (.after fun _ => .after fun _ => ?_)
      (.after fun _ => .after fun _ => .after fun _ => ?_)
    · exact returns_spanFrom fun _ => rfl
    · exact returns_spanFrom fun _ => rfl
  · refine BeginsNext.bind (.position fun _ => .after fun _ => .after fun _ => .after fun _ => ?_) fun b => .pure rfl
    exact returns_spanFrom fun _ => rfl
  · exact .position fun _ => .after fun _ => .after fun _ => returns_spanFrom fun _ => rfl

end Grammar

/-! ## Productions -/

/-- The productions one level further in are not disturbed by extra semicolons at seams, and a statement begins with its
first token. -/
structure Inner.Follows (J : Nat → Prop) (inner : Inner) : Prop where
  reads : inner.Reads
  expression : Undisturbed J .none inner.expression (Expr.view .placeless) Expr.seams
  exponent : Undisturbed J .none inner.exponent (Expr.view .placeless) Expr.seams
  unary : Undisturbed J .none inner.unary (Expr.view .placeless) Expr.seams
  statement : Undisturbed J .none inner.statement (Stmt.view .placeless) Stmt.seams
  start : BeginsNext inner.statement fun s => s.span.start

namespace Grammar

section Productions

variable (h : inner.Follows J)

include h

/-! ## Blocks and callables -/

/-- What may follow the name of a binding. -/
theorem follows_bindingRest {x x' : Ident} {type type' : Option Ident} (hx : Like (Ident.view .placeless) x x')
    (htype : Like (Option.map (Ident.viewBy .placeless View.placeless.type)) type type') :
    Follows J g [] (bindingRest inner x type) (bindingRest inner x' type')
      (Like (Binding.view .placeless)) Binding.seams := by
  refine .optional nofun nofun h.expression fun value value' hvalue => .spanFrom fun s s' => .pure ?_ rfl ?_
  · rw [Like, Binding.view, Binding.view, optExprView_eq, optExprView_eq, hx, htype, hvalue]
    rfl
  · simp

theorem follows_binding : Undisturbed J g (binding inner context) (Binding.view .placeless) Binding.seams :=
  Follows.identifier.skip fun _ _ hx => Follows.optionalType.skip fun _ _ htype => follows_bindingRest h hx htype

/-- Bindings with commas between them. A semicolon ends them, so none can have been put in between. -/
theorem follows_bindings {x x' : Ident} {type type' : Option Ident} (hx : Like (Ident.view .placeless) x x')
    (htype : Like (Option.map (Ident.viewBy .placeless View.placeless.type)) type type') :
    Follows J g [] (bindings inner context x type) (bindings inner context x' type')
      (Like (List.map (Binding.view .placeless)))
      fun bs => bs.flatMap Binding.seams := by
  have := h.reads
  refine (follows_bindingRest h hx htype).bind fun b b' hb =>
    (Follows.afterCommas (follows_binding h)).bind fun bs bs' hbs => ?_
  exact .pure (hb.cons hbs) rfl (by simp)

/-- Parameters in their parentheses. -/
theorem follows_parameters : Undisturbed J g (parameters inner) (List.map (Binding.view .placeless))
    fun bs => bs.flatMap Binding.seams := by
  have := h.reads
  refine Follows.expectSymbol.skip fun _ _ _ => ?_
  refine (Follows.commaList (follows_binding h)).into (fun _ => inferInstance) fun ps ps' hps => ?_
  exact Follows.expectSymbol.skip fun _ _ _ => .pure hps rfl (by simp)

/-- A block: its seams are those of its statements, and the places in front of them and of its closing brace. -/
theorem follows_blockIn : Undisturbed J g (blockIn inner context) (Block.view .placeless) Block.seams := by
  have := h.reads
  refine .position fun start start' => ?_
  refine .enclosed h.statement (G := fun s => s.span.start.offset) (fun c s d hs => ?_)
    (fun ss ss' s s' hss => ?_) (fun _ _ => rfl) fun ss s k hk => ?_
  · exact congrArg Position.offset (h.start c s d hs)
  · rw [Like, Block.view, Block.view, stmtsView_eq, stmtsView_eq, hss]
    rfl
  · rw [Block.seams, stmtsSeams_eq, List.mem_append, List.mem_singleton] at hk
    exact .inr hk

/-- The rest of a callable behind its name. -/
theorem follows_callableRest {name name' : Option Ident} {isAbstract : Bool}
    (hname : Like (Option.map (Ident.view .placeless)) name name') :
    Follows J g [] (callableRest inner name start isAbstract) (callableRest inner name' start' isAbstract)
      (Like (Callable.view .placeless)) Callable.seams := by
  have := h.reads
  refine (follows_parameters h).bind fun params params' hparams =>
    Follows.optionalType.skip fun result result' hresult => ?_
  have hrest {g : Guard} {js : List Nat} (body body' : Option Block)
      (hbody : Like (Option.map (Block.view .placeless)) body body')
      (hjs : ∀ k ∈ (Callable.mk name params result body default).seams, k ∈ js) :
      Follows J g js (do return ⟨name, params, result, body, ← spanFrom start⟩)
        (do return ⟨name', params', result', body', ← spanFrom start'⟩)
          (Like (Callable.view .placeless)) Callable.seams := by
    refine .spanFrom fun s s' => .pure ?_ rfl hjs
    rw [Like, Callable.view, Callable.view, bindingsView_eq, bindingsView_eq, optBlockView_eq, optBlockView_eq,
      hname, hparams, hresult, hbody]
    rfl
  have hblock : Follows J .none ([] ++ params.flatMap Binding.seams)
      (do let body ← blockIn inner .functionDeclaration; return ⟨name, params, result, some body, ← spanFrom start⟩)
      (do let body ← blockIn inner .functionDeclaration; return ⟨name', params', result', some body, ← spanFrom start'⟩)
      (Like (Callable.view .placeless)) Callable.seams :=
    (follows_blockIn h).bind fun body body' hbody => hrest _ _ hbody.some
      (by simp)
  have hnone : ∀ k ∈ (Callable.mk name params result none default).seams, k ∈ [] ++ params.flatMap Binding.seams := by
    simp
  have hread : Progress (do
      let body ← blockIn inner .functionDeclaration
      return (⟨name, params, result, some body, ← spanFrom start⟩ : Callable)) := inferInstance
  cases isAbstract with
  | false => exact .checkThen nofun hread hblock.free hblock
  | true => exact .checkThen nofun hread hblock.free (Follows.acceptSemicolon.skip fun _ _ _ => hrest _ _ rfl hnone)

/-! ## Expressions -/

omit h in
/-- A target of an assignment is refused in both runs or in none, and nothing is read. -/
theorem follows_assignable {js : List Nat} {e' : Expr} {p p' : Parser β} {T : β → β → Prop} {H : β → List Nat}
    (he : Like (Expr.view .placeless) e e') (hp : Follows J g js p p' T H) :
    Follows J g js (assignable e >>= fun _ => p) (assignable e' >>= fun _ => p') T H := by
  have hassign : e.isAssignable = e'.isAssignable := by
    rw [← e.isAssignable_view .placeless, he, Expr.isAssignable_view]
  unfold assignable
  rw [← hassign]
  split
  · exact hp
  · exact .throw

/-- Arguments in their parentheses. -/
theorem follows_arguments : Undisturbed J g (arguments inner) (List.map (Expr.view .placeless))
    fun es => es.flatMap Expr.seams := by
  have := h.reads
  refine Follows.expectSymbol.skip fun _ _ _ => ?_
  refine (Follows.commaList h.expression).into (fun _ => inferInstance) fun args args' hargs => ?_
  exact Follows.expectSymbol.skip fun _ _ _ => .pure hargs rfl (by simp)

theorem follows_arrayLiteral : Undisturbed J g (arrayLiteral inner) (Expr.view .placeless) Expr.seams := by
  have := h.reads
  refine .position fun start start' => Follows.expectSymbol.skip fun _ _ _ => ?_
  refine (Follows.commaList h.expression).into (fun _ => inferInstance) fun items items' hitems => ?_
  refine Follows.expectSymbol.skip fun _ _ _ => ?_
  refine .spanFrom fun s s' => .pure ?_ rfl (by simp)
  rw [Like, Expr.view, Expr.view, exprsView_eq, exprsView_eq, hitems]
  rfl

/-- A property of an object literal, with its key. -/
theorem follows_property : Undisturbed J g (property inner) (Property.view .placeless) Property.seams := by
  have := h.reads
  refine .of_progress inferInstance (.position fun start start' => .peek fun t t' ht => ?_)
  rcases ht.objectKey?.option_cases with ⟨hkey, hkey'⟩ | ⟨key, key', hkey, hkey', hlike⟩
  · rw [hkey, hkey']
    exact .fail
  · rw [hkey, hkey']
    refine Follows.advance.skip fun _ _ _ => Follows.expectSymbol.skip fun _ _ _ => h.expression.bind fun e e' he => ?_
    refine .spanFrom fun s s' => .pure ?_ rfl (by simp)
    rw [Like, Property.view, Property.view, hlike, he]
    rfl

theorem follows_objectLiteral : Undisturbed J g (objectLiteral inner) (Expr.view .placeless) Expr.seams := by
  have := h.reads
  refine .position fun start start' => Follows.expectSymbol.skip fun _ _ _ => ?_
  refine (Follows.commaList (follows_property h)).into (fun _ => inferInstance) fun ps ps' hps => ?_
  refine Follows.expectSymbol.skip fun _ _ _ => ?_
  refine .spanFrom fun s s' => .pure ?_ rfl (by simp)
  rw [Like, Expr.view, Expr.view, propertiesView_eq, propertiesView_eq, hps]
  rfl

theorem follows_functionExpression : Undisturbed J g (functionExpression inner) (Expr.view .placeless) Expr.seams := by
  have := h.reads
  have hrest {g : Guard} (name name' : Option Ident) (hname : Like (Option.map (Ident.view .placeless)) name name')
      (start start' : Position) : Follows J g [] (do return .function (← callableRest inner name start false))
        (do return .function (← callableRest inner name' start' false)) (Like (Expr.view .placeless)) Expr.seams :=
    (follows_callableRest h hname).bind fun _ _ hc => .pure (congrArg Expr.function hc) rfl (by simp)
  refine .position fun start start' => Follows.expectKeyword.skipInto (fun _ => inferInstance) fun _ _ _ =>
    .check fun b => ?_
  exact .ite (Follows.identifier.skip fun _ _ hx => hrest _ _ hx.some _ _) (hrest _ _ rfl _ _)

/-- A parenthesized expression, in front of which no semicolon has been put in. -/
theorem follows_parenthesized : Undisturbed J .before (parenthesized inner) (Expr.view .placeless) Expr.seams :=
  Follows.advance.skip fun _ _ _ => h.expression.bind fun _ _ he =>
    Follows.expectSymbol.skip fun _ _ _ => .pure he rfl (by simp)

/-- An operand without links, by the kind of its first token. -/
theorem follows_atom : Undisturbed J g (atom inner) (Expr.view .placeless) Expr.seams := by
  have := h.reads
  refine .of_progress inferInstance (.peek fun t t' ht => ?_)
  rcases ht.simple?.option_cases with ⟨hs, hs'⟩ | ⟨e, e', hs, hs', he⟩
  · rw [hs, hs']
    have hkind := ht.kind
    dsimp only
    rw [← hkind]
    split
    · exact follows_functionExpression h
    · exact follows_parenthesized h
    · exact follows_arrayLiteral h
    · exact follows_objectLiteral h
    · exact .fail
  · rw [hs, hs']
    exact Follows.advance.skip fun _ _ _ => .pure he rfl (by simp [seams_of_simple? hs])

omit h in
theorem follows_propertyName : Undisturbed J g (propertyName context) (PropertyName.view .placeless) fun _ => [] := by
  refine .acceptThen nofun nofun fun b => ?_
  exact .ite (Follows.propertyWord.skip fun _ _ ht => .pure (congrArg PropertyName.hashed ht.word) rfl (by simp))
    (Follows.propertyWord.skip fun _ _ ht => .pure (congrArg PropertyName.plain ht.word) rfl (by simp))

/-- A key in brackets. -/
theorem follows_computedKey : Undisturbed J g (computedKey inner) (Expr.view .placeless) Expr.seams :=
  Follows.expectSymbol.skip fun _ _ _ => h.expression.free.bind fun _ _ he =>
    Follows.expectSymbol.skip fun _ _ _ => .pure he rfl (by simp)

omit h in
/-- A link together with the place where it ends. -/
theorem follows_ended {js : List Nat} {l l' : Link} (hl : Like (Link.view .placeless) l l')
    (hjs : ∀ k ∈ l.seams, k ∈ js) :
    Follows J g js (ended l) (ended l') (Like (Option.map (stepView .placeless))) fun o =>
      o.elim [] fun x => x.1.seams := by
  refine .glance (fun c => c) (fun c => c) fun c c' => .position fun p p' => .pure ?_ rfl hjs
  show some (l.view .placeless, _) = some (l'.view .placeless, _)
  rw [hl]
  rfl

omit h in
/-- A semicolon is no link, so nothing is read where one has been put in. -/
theorem propertyLink_semicolon {c : Cursor} (hc : c.peek.kind = .symbol .semicolon) :
    propertyLink inner c = .ok none c := by
  rw [propertyLink, kind_bind, hc]
  rfl

theorem follows_propertyLink : Undisturbed J g (propertyLink inner) (Option.map (stepView .placeless)) fun o =>
    o.elim [] fun x => x.1.seams := by
  have := h.reads
  refine .closeItem (.kind fun k => ?_) rfl fun c => propertyLink_semicolon
  split
  · refine Follows.advance.skip fun _ _ _ => follows_propertyName.skip fun n n' hn => follows_ended ?_ (by simp)
    exact congrArg (Link.member · false) hn
  · exact (follows_computedKey h).bind fun _ _ hk => follows_ended (congrArg (Link.index · false) hk) (by simp)
  · exact .pure rfl rfl (by simp)

/-- Any link, by its first token. -/
theorem follows_link : Undisturbed J g (link inner) (Option.map (stepView .placeless)) fun o => o.elim []
    fun x => x.1.seams := by
  have := h.reads
  refine .closeItem (.kind fun k => ?_) rfl fun c hc => ?_
  · split
    · exact (follows_arguments h).bind fun _ _ hargs =>
        follows_ended (congrArg (Link.call · false) hargs) (by simp)
    · refine Follows.advance.around.skipInto (fun _ => ?_) fun _ _ _ => .kind fun k => ?_
      · refine Forward.bindProgress inferInstance fun k => ?_
        split <;> infer_instance
      · split
        · exact (follows_arguments h).bind fun _ _ hargs =>
            follows_ended (congrArg (Link.call · true) hargs) (by simp)
        · exact (follows_computedKey h).bind fun _ _ hk => follows_ended (congrArg (Link.index · true) hk) (by simp)
        · exact follows_propertyName.skip fun _ _ hn => follows_ended (congrArg (Link.member · true) hn) (by simp)
    · exact follows_propertyLink h
  · rw [link, kind_bind, hc]
    exact propertyLink_semicolon hc

omit h in
theorem follows_newWord : Undisturbed J g newWord (Option.map View.placeless.position) fun _ => [] := by
  refine .closeItem (.check fun b => ?_) rfl fun c hc => ?_
  · exact .ite (.position fun _ _ => Follows.advance.skip fun _ _ _ => .pure rfl rfl (by simp))
      (.pure rfl rfl (by simp))
  · show (if (c.peek.kind == .keyword .novo) = true then _ else _ : Parser _) c = _
    rw [hc]
    rfl

/-- Constructions whose words have been read. The runs have read as many of them. -/
theorem follows_constructions {starts starts' : List Position} {e' : Expr} (hstarts : starts.length = starts'.length)
    (he : Like (Expr.view .placeless) e e') : Follows J .none e.seams (constructions inner starts e)
      (constructions inner starts' e') (Like (Expr.view .placeless)) Expr.seams := by
  have := h.reads
  induction starts generalizing starts' e e' with
  | nil =>
    obtain rfl : starts' = [] := List.length_eq_zero_iff.mp hstarts.symm
    exact .pure he rfl fun _ => id
  | cons start starts ih =>
    cases starts' with
    | nil => cases hstarts
    | cons start' starts' =>
      refine (Follows.many rfl (follows_propertyLink h)).bind fun xs xs' hxs => ?_
      have hrest {js : List Nat} (args args' : List Expr) (hargs : Like (List.map (Expr.view .placeless)) args args')
          (hjs : ∀ k ∈ (Expr.new (xs.foldl Link.apply e) args default).seams, k ∈ js) :
          Follows J .none js (do constructions inner starts (.new (xs.foldl Link.apply e) args (← spanFrom start)))
            (do constructions inner starts' (.new (xs'.foldl Link.apply e') args' (← spanFrom start')))
            (Like (Expr.view .placeless)) Expr.seams := by
        refine .spanFrom fun s s' => (ih (Nat.succ.inj hstarts) ?_).mono hjs
        rw [Like, Expr.view, Expr.view, exprsView_eq, exprsView_eq, he.foldl_apply hxs, hargs]
        rfl
      have hseams {k : Nat} (hk : k ∈ (xs.foldl Link.apply e).seams) : k ∈ e.seams ++ xs.flatMap fun x => x.1.seams :=
        List.mem_append.mpr (mem_seams_foldl_apply xs e hk)
      have hread : Progress (do
          let args ← arguments inner
          constructions inner starts (.new (xs.foldl Link.apply e) args (← spanFrom start))) := inferInstance
      refine .checkThen nofun hread ((follows_arguments h).bind fun args args' hargs => hrest _ _ hargs fun k hk => ?_)
        (hrest _ _ rfl fun k hk => ?_)
      · rw [Expr.seams, exprsSeams_eq, List.mem_append] at hk
        exact List.mem_append.mpr (hk.imp hseams id)
      · rw [Expr.seams, exprsSeams, List.append_nil] at hk
        exact hseams hk

theorem follows_primary : Undisturbed J g (primary inner) (Expr.view .placeless) Expr.seams := by
  refine .free ((Follows.manyPlain rfl follows_newWord).skip fun starts starts' hstarts => ?_)
  refine (follows_atom h).bind fun e e' he => follows_constructions h ?_ he
  rw [List.length_reverse, List.length_reverse]
  simpa using congrArg List.length hstarts

/-- A chain of links: it ends in both runs in front of the same token or of a semicolon that has been put in. -/
theorem follows_call : Undisturbed J g (call inner) (Expr.view .placeless) Expr.seams := by
  have := h.reads
  refine .free ((follows_primary h).bind fun e e' he => (Follows.many rfl (follows_link h)).bind fun xs xs' hxs => ?_)
  exact .pure (he.foldl_apply hxs) rfl fun k hk => List.mem_append.mpr (mem_seams_foldl_apply xs e hk)

/-! ## Operators -/

/-- A chain that may be stepped. Where a semicolon has been put in behind the chain, the first run has found no
operator on its line. -/
theorem follows_postfixed : Undisturbed J g (postfixed inner) (Expr.view .placeless) Expr.seams := by
  let behind (c : Cursor) : Option UpdateOp := if c.onNewLine then none else updateOp? c.peek.kind
  let step (e : Expr) (op : UpdateOp) : Parser Expr := do
    assignable e
    let _ ← advance
    return .update op false e (← spanFrom e.span.start)
  have heq : postfixed inner = call inner >>= fun e => choose behind (pure e) (step e) := by
    unfold postfixed
    congr
    funext e c
    rw [kind_bind]
    unfold choose behind
    cases hop : updateOp? c.peek.kind with
    | none => cases c.onNewLine <;> rfl
    | some op =>
      show (if c.onNewLine = true then pure e else step e op : Parser Expr) c = _
      cases c.onNewLine <;> rfl
  rw [heq]
  refine .bindChoose (follows_call h) settles_call (fun c c' hc hs hsettled => ?_) (fun c hc => ?_)
    (fun e op c b d hop hb => ?_)
    (fun e e' he => .pure he rfl (by simp)) fun e e' op he => ?_
  · unfold behind
    rw [← (Near.peek hs).kind]
    by_cases hk : c.peek.kind = .symbol .semicolon
    · rw [hk]
      exact (ite_self _).trans (ite_self _).symm
    · rw [hc.onNewLine hs hsettled hk]
  · unfold behind
    rw [hc]
    exact ite_self _
  · have hkind : c.peek.kind ≠ .eof := by
      intro hk
      unfold behind at hop
      rw [hk, show updateOp? .eof = none from rfl, ite_self] at hop
      cases hop
    obtain ⟨_, m, hm, hb⟩ := ok_of_bind hb
    obtain rfl : c = m := by
      unfold assignable at hm
      split at hm
      · exact (EStateM.Result.ok.inj hm).2
      · cases hm
    obtain ⟨t, m, ht, hb⟩ := ok_of_bind hb
    rw [advance_run] at ht
    cases ht
    cases hb
    exact Cursor.advance_rest_lt hkind
  · refine follows_assignable he (Follows.advance.skip fun _ _ _ => .spanFrom fun s s' => .pure ?_ rfl (by simp))
    rw [Like, Expr.view, Expr.view, he]
    rfl

/-- Operators in front of an operand. -/
theorem follows_unary : Undisturbed J g (unary inner) (Expr.view .placeless) Expr.seams := by
  have := h.reads
  refine .of_progress inferInstance (.position fun start start' => .kind fun k => .kind fun l => ?_)
  split
  · refine Follows.advance.skip fun _ _ _ => h.unary.bind fun e e' he => follows_assignable he ?_
    refine .spanFrom fun s s' => .pure ?_ rfl (by simp)
    rw [Like, Expr.view, Expr.view, he]
    rfl
  · refine Follows.advance.skip fun _ _ _ => h.unary.bind fun e e' he => ?_
    refine .spanFrom fun s s' => .pure ?_ rfl (by simp)
    rw [Like, Expr.view, Expr.view, he]
    rfl
  · exact follows_postfixed h

theorem follows_exponent : Undisturbed J g (exponent inner) (Expr.view .placeless) Expr.seams := by
  refine .free ((follows_unary h).bind fun e e' he => .acceptThen nofun nofun fun b => ?_)
  refine .ite (h.exponent.bind fun r r' hr => .pure ?_ rfl (by simp [Expr.join])) (.pure he rfl (by simp))
  exact Like.join (X := renumberings []) he (congrArg (BinaryOp.exponent, ·) hr)

omit h in
/-- A level of operators that group to the left. A semicolon is no operator of any level. -/
theorem follows_leftChain {op? : Kind → Option BinaryOp} {operand : Parser Expr} [Progress operand]
    (hsemi : op? (.symbol .semicolon) = none)
    (ho : Undisturbed J .none operand (Expr.view .placeless) Expr.seams) :
    Undisturbed J .none (leftChain op? operand) (Expr.view .placeless) Expr.seams := by
  have hitem : Undisturbed J .none (chainItem op? operand) (Option.map (operandView .placeless)) fun o => o.elim []
      fun x => x.2.seams := by
    refine .kindThen ?_ fun k => ?_
    · rw [hsemi]
      exact .pure rfl rfl (by simp)
    · cases op? k with
      | none => exact .inl (by rw [hsemi]; exact ⟨rfl, rfl⟩)
      | some op =>
        refine .inr ⟨inferInstance, Follows.advance.skip fun _ _ _ => ho.bind fun r r' hr => ?_⟩
        exact .pure (congrArg (fun e => some (op, e)) hr) rfl (by simp)
  rw [leftChain_eq]
  refine ho.bind fun e e' he => (Follows.many rfl hitem).bind fun xs xs' hxs => ?_
  exact .pure (he.foldl_join_placeless hxs) rfl fun k hk => List.mem_append.mpr (mem_seams_foldl_join xs e hk)

/-- All levels from products to disjunctions. -/
theorem follows_logicalOr : Undisturbed J .none (logicalOr inner) (Expr.view .placeless) Expr.seams := by
  have := h.reads
  unfold logicalOr logicalAnd bitwiseOr bitwiseAnd equality relational shift additive multiplicative
  exact follows_leftChain rfl <| follows_leftChain rfl <| follows_leftChain rfl <| follows_leftChain rfl <|
    follows_leftChain rfl <| follows_leftChain rfl <| follows_leftChain rfl <| follows_leftChain rfl <|
    follows_leftChain rfl <| follows_exponent h

/-- An assignment, or what may stand on the left of one. -/
theorem follows_assignment : Undisturbed J .none (assignment inner) (Expr.view .placeless) Expr.seams := by
  have := h.reads
  refine (follows_logicalOr h).bind fun e e' he => ?_
  refine .kindThen (.pure he rfl (by simp)) fun k => ?_
  cases assignOp? k with
  | none => exact .inl ⟨rfl, rfl⟩
  | some op =>
    refine .inr ⟨inferInstance, follows_assignable he (Follows.advance.skip fun _ _ _ =>
      h.expression.bind fun r r' hr => ?_)⟩
    refine .pure ?_ rfl (by simp)
    rw [Like, Expr.view, Expr.view, he, hr]
    rfl

/-! ## Classes -/

omit h in
/-- The base of a class: a path of names. -/
theorem follows_qualifiedName : Undisturbed J g qualifiedName (Expr.view .placeless) Expr.seams := by
  have hread : Progress (expect classKinds .classDeclaration) := .expect (by simp [classKinds])
  have hlink : Undisturbed J .none qualifier (Option.map (stepView .placeless)) fun o =>
      o.elim [] fun x => x.1.seams := by
    refine .acceptThen nofun nofun fun b => ?_
    refine .ite (Follows.propertyWord.skip fun t t' ht => follows_ended ?_ (by simp)) (.pure rfl rfl (by simp))
    exact congrArg (fun w => Link.member (.plain w) false) ht.word
  rw [qualifiedName_eq]
  refine .free ((Follows.expect (by simp [classKinds])).skip fun t t' ht =>
    (Follows.many rfl hlink).bind fun xs xs' hxs => ?_)
  refine .pure (Like.foldl_apply ?_ hxs) rfl fun k hk => ?_
  · rw [Like, Expr.view, Expr.view, ht.1.text (isRespelt_of_mem_classKinds ht.2), ht.1.span]
  · exact (mem_seams_foldl_apply xs _ hk).elim (fun hk => absurd hk List.not_mem_nil) fun hk => by simpa using hk

omit h in
theorem follows_decorator : Undisturbed J g decorator (Option.map (Ident.viewBy .placeless View.placeless.word))
    fun _ => [] := by
  refine .closeItem (.check fun b => ?_) rfl fun c hc => ?_
  · refine .ite (Follows.advance.skip fun _ _ _ => Follows.propertyWord.skip fun t t' ht => .pure ?_ rfl (by simp))
      (.pure rfl rfl (by simp))
    exact congrArg some (Like.ident ht.word rfl)
  · show (if (c.peek.kind == .symbol .atSign) = true then _ else _ : Parser _) c = _
    rw [hc]
    rfl

omit h in
theorem follows_modifier : Undisturbed J g modifier (Option.map id) fun _ => [] := by
  refine .closeItem (.kind fun k => ?_) rfl fun c hc => ?_
  · exact .ite (Follows.advance.skip fun _ _ _ => .pure rfl rfl (by simp)) (.pure rfl rfl (by simp))
  · show (if ((default : Modifiers).add? c.peek.kind).isSome = true then _ else _ : Parser _) c = _
    rw [hc]
    rfl

/-- A method behind its name. Its seams are those of its callable. -/
theorem follows_method {name name' : PropertyName} {kind : MethodKind} {modifiers : Modifiers}
    {decorators decorators' : List Ident} (hname : Like (PropertyName.view .placeless) name name')
    (hdecorators : Like (List.map (Ident.viewBy .placeless View.placeless.word)) decorators decorators') :
    Follows J g [] (method inner name kind modifiers decorators start)
      (method inner name' kind modifiers decorators' start')
      (Like (Member.view .placeless)) Member.seams := by
  refine .position fun p p' => (follows_callableRest h rfl).bind fun callable callable' hc => ?_
  refine .spanFrom fun s s' => .pure ?_ rfl (by simp)
  rw [Like, Member.view, Member.view, hname, hc, hdecorators]
  rfl

/-- A field behind its name. What ends it may be a semicolon or nothing. -/
theorem follows_field {name name' : PropertyName} {modifiers : Modifiers} {decorators decorators' : List Ident}
    (hname : Like (PropertyName.view .placeless) name name')
    (hdecorators : Like (List.map (Ident.viewBy .placeless View.placeless.word)) decorators decorators') :
    Follows J g [] (field inner name modifiers decorators start) (field inner name' modifiers decorators' start')
      (Like (Member.view .placeless)) Member.seams := by
  refine Follows.optionalType.skip fun type type' htype =>
    .optional nofun nofun h.expression fun value value' hvalue => ?_
  refine Follows.acceptSemicolon.skip fun _ _ _ => .spanFrom fun s s' => .pure ?_ rfl (by simp)
  rw [Like, Member.view, Member.view, optExprView_eq, optExprView_eq, hname, htype, hvalue, hdecorators]
  rfl

/-- What a leading `get` or `set` announces, if a name follows it. -/
def accessorAhead? (c : Cursor) : Option MethodKind :=
  if (c.peekNth 1).kind.isWord || (c.peekNth 1).kind == .symbol .hash then accessor? c.peek.kind else none

/-- A member that begins with its name. -/
def plainMember (inner : Inner) (modifiers : Modifiers) (decorators : List Ident) (start : Position) :
    Parser Member := do
  let name ← propertyName .classBody
  if ← check (.symbol .leftParen) then method inner name .ordinary modifiers decorators start
  else field inner name modifiers decorators start

/-- What follows the word that announces an accessor. -/
def accessorMember (inner : Inner) (modifiers : Modifiers) (decorators : List Ident) (start : Position)
    (kind : MethodKind) : Parser Member := do
  method inner (← propertyName .classBody) kind modifiers decorators start

omit h in
/-- Which member it is depends on two tokens: the next one, and whether a name follows it. -/
theorem memberNamed_eq (modifiers : Modifiers) (decorators : List Ident) (start : Position) :
    (do let c ← get
        memberNamed inner modifiers decorators start
          ((c.peekNth 1).kind.isWord || (c.peekNth 1).kind == .symbol .hash)) =
      choose accessorAhead? (plainMember inner modifiers decorators start)
        fun kind => advance >>= fun _ => accessorMember inner modifiers decorators start kind := by
  funext c
  show memberNamed inner modifiers decorators start
      ((c.peekNth 1).kind.isWord || (c.peekNth 1).kind == .symbol .hash) c = _
  rw [memberNamed, kind_bind]
  unfold choose accessorAhead?
  cases accessor? c.peek.kind <;> cases (c.peekNth 1).kind.isWord || (c.peekNth 1).kind == .symbol .hash <;> rfl

/-- A member behind its modifiers, by what the two tokens are. A semicolon that has been put in behind the first does
not make the second a name. -/
theorem follows_named {modifiers : Modifiers} {decorators decorators' : List Ident}
    (hdecorators : Like (List.map (Ident.viewBy .placeless View.placeless.word)) decorators decorators') :
    Follows J g [] (do let c ← get
                       memberNamed inner modifiers decorators start
                        ((c.peekNth 1).kind.isWord || (c.peekNth 1).kind == .symbol .hash))
      (do let c ← get
          memberNamed inner modifiers decorators' start'
            ((c.peekNth 1).kind.isWord || (c.peekNth 1).kind == .symbol .hash))
      (Like (Member.view .placeless)) Member.seams := by
  have := h.reads
  have hplain : Progress (plainMember inner modifiers decorators start) := by
    unfold plainMember
    infer_instance
  have haccessor (kind : MethodKind) : Progress (accessorMember inner modifiers decorators start kind) := by
    unfold accessorMember
    infer_instance
  rw [memberNamed_eq, memberNamed_eq]
  refine .of_progress inferInstance (.ahead (fun c c' hs => ?_) (fun c kind m d _ hm => (haccessor kind).lt _ m d hm) ?_
    fun kind => ?_)
  · unfold accessorAhead?
    rw [(Near.peek hs).kind]
    rcases Near.second hs with hkind | ⟨hsemi, hj⟩
    · exact .inl (by rw [hkind])
    · exact .inr ⟨by rw [hsemi]; rfl, hj⟩
  · refine follows_propertyName.skip fun n n' hn => ?_
    refine .checkThen nofun (inferInstanceAs (Progress (method inner n .ordinary modifiers decorators start))) ?_ ?_
    · exact follows_method h hn hdecorators
    · exact follows_field h hn hdecorators
  · exact follows_propertyName.skip fun n n' hn => follows_method h hn hdecorators

/-- A member with its decorators and modifiers. -/
theorem follows_member : Undisturbed J g (member inner) (Member.view .placeless) Member.seams := by
  have := h.reads
  refine .free (.position fun start start' => (Follows.manyPlain rfl follows_decorator).skip fun ds ds' hds => ?_)
  refine (Follows.manyPlain rfl follows_modifier).skip fun ks ks' hks => .acceptThen nofun nofun fun b => ?_
  obtain rfl : ks = ks' := by simpa [Like] using hks
  exact .ite (follows_method h rfl hds) (follows_named h hds)

omit h in
theorem follows_interfaces : Undisturbed J g interfaces (List.map (Ident.view .placeless)) fun _ => [] := by
  have hread : Progress (expect classKinds .classDeclaration) := .expect (by simp [classKinds])
  have hname : Undisturbed J .none (do let t ← expect classKinds .classDeclaration; return ⟨t.text, t.span⟩)
      (Ident.view .placeless)
      fun _ => [] := by
    refine (Follows.expect (by simp [classKinds])).skip fun t t' ht => .pure ?_ rfl (by simp)
    exact .ident (ht.1.text (isRespelt_of_mem_classKinds ht.2)) ht.1.span
  refine .acceptThen nofun nofun fun b => .ite (hname.skip fun i i' hi => ?_) (.pure rfl rfl (by simp))
  exact (Follows.afterCommas hname).bind fun is is' his => .pure (hi.cons his) rfl (by simp)

/-- A class: its seams are those of its members, and the places before them and before its closing brace. -/
theorem follows_classDeclaration : Undisturbed J g (classDeclaration inner) (Stmt.view .placeless) Stmt.seams := by
  have := h.reads
  refine .position fun start start' => Follows.expectKeyword.skip fun _ _ _ =>
    Follows.identifier.skip fun name name' hname => ?_
  refine .optional nofun nofun follows_qualifiedName fun base base' hbase =>
    follows_interfaces.skip fun is is' his => ?_
  refine .enclosed (follows_member h) (G := fun m => m.span.start.offset)
    (fun c m d hm => congrArg Position.offset (beginsNext_member c m d hm)) (fun ms ms' s s' hms => ?_) (fun _ _ => rfl)
    fun ms s k hk => ?_
  · rw [Like, Stmt.view, Stmt.view, optExprView_eq, optExprView_eq, membersView_eq, membersView_eq, hname,
      hbase, his, hms]
    rfl
  · rw [Stmt.seams, optExprSeams_eq, membersSeams_eq, List.mem_append, List.mem_append, List.mem_singleton] at hk
    simpa [or_assoc] using hk

/-! ## Statements -/

omit h in
theorem follows_variableKind : Follows J g [] variableKind variableKind Eq fun _ => [] := by
  have hread : Progress (expect [.keyword .variavel, .keyword .constante] .variableDeclaration) := .expect (by simp)
  exact (Follows.expect (by simp)).skip fun t t' ht => .pure (by rw [ht.1.kind]) rfl (by simp)

theorem follows_variableDeclaration :
    Undisturbed J g (variableDeclaration inner) (Declaration.view .placeless) Declaration.seams := by
  refine .position fun start start' => follows_variableKind.skip fun k k' hk => ?_
  refine Follows.identifier.skip fun x x' hx => Follows.optionalType.skip fun type type' htype => ?_
  refine (follows_bindings h hx htype).bind fun bs bs' hbs => .spanFrom fun s s' => .pure ?_ rfl ?_
  · rw [Like, Declaration.view, Declaration.view, bindingsView_eq, bindingsView_eq, hk, hbs]
    rfl
  · simp

/-- A declaration with the semicolon behind it, if there is one. -/
theorem follows_variablesStatement : Undisturbed J g (variablesStatement inner) (Stmt.view .placeless) Stmt.seams := by
  refine (follows_variableDeclaration h).bind fun _ _ hd => Follows.acceptSemicolon.skip fun _ _ _ => ?_
  exact .pure (congrArg Stmt.declaration hd) rfl (by simp)

theorem follows_functionDeclaration :
    Undisturbed J g (functionDeclaration inner) (Stmt.view .placeless) Stmt.seams := by
  refine .position fun start start' => Follows.expectKeyword.skip fun _ _ _ => Follows.identifier.skip fun x x' hx => ?_
  exact (follows_callableRest h hx.some).bind fun _ _ hc => .pure (congrArg Stmt.function hc) rfl (by simp)

theorem follows_condition : Undisturbed J g (condition inner context) (Expr.view .placeless) Expr.seams := by
  refine .acceptThen nofun nofun fun b => .ite (h.expression.bind fun e e' he => ?_) h.expression
  exact Follows.expectSymbol.skip fun _ _ _ => .pure he rfl (by simp)

/-- A branch. A semicolon in front of the word for the alternative would cut it off, so no seam is there. -/
theorem follows_ifStatement : Undisturbed J g (ifStatement inner) (Stmt.view .placeless) Stmt.seams := by
  refine .position fun start start' => Follows.expectKeyword.skip fun _ _ _ =>
    (follows_condition h).bind fun e e' he => ?_
  refine h.statement.free.bind fun s s' hs => ?_
  refine .optional nofun nofun h.statement fun t t' ht => .spanFrom fun _ _ => .pure ?_ rfl ?_
  · rw [Like, Stmt.view, Stmt.view, optStmtView_eq, optStmtView_eq, he, hs, ht]
    rfl
  · simp

theorem follows_whileStatement : Undisturbed J g (whileStatement inner) (Stmt.view .placeless) Stmt.seams := by
  refine .position fun start start' => Follows.expectKeyword.skip fun _ _ _ =>
    (follows_condition h).bind fun e e' he => ?_
  refine h.statement.free.bind fun s s' hs => .spanFrom fun _ _ => .pure ?_ rfl (by simp)
  rw [Like, Stmt.view, Stmt.view, he, hs]
  rfl

/-- A clause of a loop, which is missing if the closing token follows at once. -/
theorem follows_optionalExpression {closing : Kind} :
    Undisturbed J .around (optionalExpression inner closing) (Option.map (Expr.view .placeless))
      fun o => o.elim [] Expr.seams :=
  .check fun b => .ite (.pure rfl rfl (by simp)) (h.expression.free.bind fun e e' he => .pure he.some rfl (by simp))

/-- The rest of a loop over items. -/
theorem follows_forEachRest {inParens : Bool} {kind : VariableKind} {x x' : Ident} {type type' : Option Ident}
    (hx : Like (Ident.view .placeless) x x')
    (htype : Like (Option.map (Ident.viewBy .placeless View.placeless.type)) type type') :
    Follows J .none [] (forEachRest inner start inParens kind x type) (forEachRest inner start' inParens kind x' type')
      (Like (Stmt.view .placeless)) Stmt.seams := by
  refine h.expression.bind fun e e' he => ?_
  have hrest : Follows J .none ([] ++ e.seams)
      (do let body ← inner.statement; return .forEach kind x type e body (← spanFrom start))
      (do let body ← inner.statement; return .forEach kind x' type' e' body (← spanFrom start'))
      (Like (Stmt.view .placeless)) Stmt.seams := by
    refine h.statement.bind fun s s' hs => .spanFrom fun _ _ => .pure ?_ rfl (by simp)
    rw [Like, Stmt.view, Stmt.view, hx, htype, he, hs]
    rfl
  exact .ite (Follows.expectSymbol.skip fun _ _ _ => hrest) hrest

/-- The rest of a loop with three clauses. The semicolons in it are its own. -/
theorem follows_forLoopRest {inParens : Bool} {init init' : Option ForInit}
    (hinit : Like (Option.map (ForInit.view .placeless)) init init') :
    Follows J g (optForInitSeams init) (forLoopRest inner start inParens init) (forLoopRest inner start' inParens init')
      (Like (Stmt.view .placeless)) Stmt.seams := by
  have := h.reads
  refine Follows.expectSymbol.skip fun _ _ _ => ?_
  refine (follows_optionalExpression h).into (fun _ => inferInstance) fun test test' htest => ?_
  refine Follows.expectSymbol.skip fun _ _ _ => .ite ?_ ?_
  · refine (follows_optionalExpression h).into (fun _ => inferInstance) fun update update' hupdate => ?_
    refine Follows.expectSymbol.skip fun _ _ _ => ?_
    refine h.statement.bind fun s s' hs => .spanFrom fun _ _ => .pure ?_ rfl (by simp)
    rw [Like, Stmt.view, Stmt.view, optForInitView_eq, optForInitView_eq, optExprView_eq, optExprView_eq,
      optExprView_eq, optExprView_eq, hinit, htest, hupdate, hs]
    rfl
  · refine (follows_optionalExpression h).into (fun _ => inferInstance) fun update update' hupdate => ?_
    refine (follows_blockIn h).bind fun b b' hb => ?_
    refine .spanFrom fun _ _ => .pure ?_ rfl (by simp)
    rw [Like, Stmt.view, Stmt.view, Stmt.view, Stmt.view, optForInitView_eq, optForInitView_eq, optExprView_eq,
      optExprView_eq, optExprView_eq, optExprView_eq, hinit, htest, hupdate, hb]
    rfl

/-- A loop of either kind. -/
theorem follows_forStatement : Undisturbed J g (forStatement inner) (Stmt.view .placeless) Stmt.seams := by
  have := h.reads
  refine .position fun start start' => Follows.expectKeyword.skip fun _ _ _ =>
    .acceptThen nofun nofun fun inParens => ?_
  refine .of_progress ?_ (.check fun b => .check fun d => .ite ?_ ?_)
  · refine Forward.bindProgress inferInstance fun b => Forward.bindProgress inferInstance fun d => ?_
    split <;> infer_instance
  · refine .position fun _ _ => follows_variableKind.skip fun k k' hk => Follows.identifier.skip fun x x' hx => ?_
    refine Follows.optionalType.skip fun type type' htype => .acceptThen nofun nofun fun o => ?_
    subst hk
    refine .ite (follows_forEachRest h hx htype)
      ((follows_bindings h hx htype).bind fun bs bs' hbs => .spanFrom fun s s' => ?_)
    refine (follows_forLoopRest h (Like.some ?_)).mono ?_
    · rw [Like, ForInit.view, ForInit.view, Declaration.view, Declaration.view, bindingsView_eq, bindingsView_eq, hbs]
      rfl
    · simp
  · refine (follows_optionalExpression h).into (fun _ => inferInstance) fun init init' hinit => ?_
    refine (follows_forLoopRest h ?_).mono ?_
    · rcases hinit.option_cases with ⟨rfl, rfl⟩ | ⟨e, e', rfl, rfl, he⟩
      · rfl
      · exact congrArg (fun e => some (ForInit.expression e)) he
    · cases init <;> simp

/-- A return. A semicolon ends it, as a line break does, so where one may have been put in there is no value. -/
theorem follows_returnStatement : Undisturbed J g (returnStatement inner) (Stmt.view .placeless) Stmt.seams := by
  have := h.reads
  let ends (k : Kind) : Bool := [Kind.symbol .semicolon, .symbol .rightBrace, .eof].contains k
  let valued (c : Cursor) : Option Unit := if ends c.peek.kind || c.onNewLine then none else some ()
  let rest (start : Position) (value : Option Expr) : Parser Stmt := do
    let _ ← accept (.symbol .semicolon)
    return .ret value (← spanFrom start)
  have heq : returnStatement inner = position >>= fun start => expect [.keyword .retorne] .statement >>= fun _ =>
      choose valued (rest start none) fun _ => inner.expression >>= fun e => rest start (some e) := by
    unfold returnStatement
    congr
    funext start
    congr
    funext t c
    show (if (ends c.peek.kind || c.onNewLine) = true then rest start none
      else inner.expression >>= fun e => rest start (some e) : Parser Stmt) c =
        (valued c).elim (rest start none) (fun _ => inner.expression >>= fun e => rest start (some e)) c
    unfold valued
    cases ends c.peek.kind || c.onNewLine <;> rfl
  have hrest {start start' : Position} {js : List Nat} (value value' : Option Expr)
      (hvalue : Like (Option.map (Expr.view .placeless)) value value') (hjs : ∀ k ∈ optExprSeams value, k ∈ js) :
      Follows J .none js (rest start value) (rest start' value') (Like (Stmt.view .placeless)) Stmt.seams := by
    refine Follows.acceptSemicolon.skip fun _ _ _ => .spanFrom fun s s' => .pure ?_ rfl hjs
    rw [Like, Stmt.view, Stmt.view, optExprView_eq, optExprView_eq, hvalue]
    rfl
  have hread : Progress (expect [.keyword .retorne] .statement) := .expect (by simp)
  rw [heq]
  refine .position fun start start' =>
    .bindChoose Follows.expectKeyword (.expect nofun nofun) (fun c c' hc hs hsettled => ?_)
    (fun c hc => ?_) (fun _ _ c b d _ hb => ?_) (fun _ _ _ => hrest none none rfl (by simp)) fun _ _ _ _ => ?_
  · unfold valued
    rw [← (Near.peek hs).kind]
    by_cases hk : c.peek.kind = .symbol .semicolon
    · rw [hk]
      rfl
    · rw [hc.onNewLine hs hsettled hk]
  · unfold valued
    rw [hc]
    rfl
  · exact Progress.lt (p := inner.expression >>= fun e => rest start (some e)) c b d hb
  · exact h.expression.free.bind fun e e' he => hrest _ _ he.some (by simp)

theorem follows_expressionStatement :
    Undisturbed J g (expressionStatement inner) (Stmt.view .placeless) Stmt.seams := by
  refine .position fun start start' => h.expression.free.bind fun e e' he =>
    Follows.acceptSemicolon.skip fun _ _ _ => ?_
  refine .spanFrom fun s s' => .pure ?_ rfl (by simp)
  rw [Like, Stmt.view, Stmt.view, he]
  rfl

/-- Any statement, by the kind of its first token. -/
theorem follows_statement : Undisturbed J g (statement inner) (Stmt.view .placeless) Stmt.seams := by
  have := h.reads
  refine .of_progress inferInstance (.kind fun k => ?_)
  split
  · exact follows_variablesStatement h
  · exact follows_variablesStatement h
  · exact follows_functionDeclaration h
  · exact follows_classDeclaration h
  · exact follows_ifStatement h
  · exact follows_whileStatement h
  · exact follows_forStatement h
  · exact follows_returnStatement h
  · exact (follows_blockIn h).bind fun _ _ hb => .pure (congrArg Stmt.block hb) rfl (by simp)
  · exact follows_expressionStatement h

end Productions

end Grammar

/-! ## Levels -/

/-- One level around one that is not disturbed. -/
theorem Inner.Follows.around (h : inner.Follows J) : inner.around.Follows J where
  reads := by
    have := h.reads
    infer_instance
  expression := follows_assignment h
  exponent := follows_exponent h
  unary := follows_unary h
  statement := follows_statement h
  start := beginsNext_statement

/-- No level is disturbed. -/
theorem Inner.Follows.level (J : Nat → Prop) (n : Nat) : (level n).Follows J := by
  induction n with
  | zero => exact ⟨inferInstance, .tooDeep, .tooDeep, .tooDeep, .tooDeep, fun _ _ _ h => nomatch h⟩
  | succ n ih => exact ih.around

end Vernacular
