import Vernacular.Proofs.Grammar.Phrase

/-!
# What productions go over

Every production goes over a phrase with the outline of the tree that it gives (`Parser.Outlines`). Most take their
stretch from where they began (`Parser.Outlines.spanned`). Chains of calls and properties, and operators behind their
operand, let the expression that they began with grow; operators between two operands join them.

- `Grammar.outlines_assignment`, `Grammar.outlines_statement`: the productions, one lemma for each;
- `Grammar.outlines_level`: by induction on the levels;
- `parse_outlined`: the tokens of a program are a phrase with its outline, up to the end.
-/

namespace Vernacular

open Grammar Vernacular.Parser Vernacular.Parser.Outlines

variable {context : Context} {id : Ident} {type : Option Ident} {c : Cursor}

/-- The productions one level further in go over phrases with the outlines of their trees. -/
structure Inner.Outlines (inner : Inner) : Prop where
  expression : inner.expression.Outlines fun e => [e.outline]
  exponent : inner.exponent.Outlines fun e => [e.outline]
  unary : inner.unary.Outlines fun e => [e.outline]
  statement : inner.statement.Outlines fun s => [s.outline]

namespace Grammar

variable {α β : Type} {inner : Inner} [inner.Reads] {c₀ : Cursor} {os : List Outline}

/-- A token that is known to leave no trace. -/
theorem advance_mark {k : Kind} {f : Token → Parser β} {Q : β → Cursor → Prop} (hk : k.isContent = false)
    (hf : ∀ t, Ensures (Outlined c₀ os) (f t) Q) :
    Ensures (fun c => Outlined c₀ os c ∧ c.peek.kind = k) (advance >>= f) Q :=
  Ensures.bind (.advance fun c hc => hc.1.skip (.advance_mark (by rw [hc.2, hk]))) hf

/-! ## Blocks and callables -/

/-- A name that began at `c₀`, and perhaps its type, have been read. -/
structure Named (c₀ : Cursor) (id : Ident) (type : Option Ident) (c : Cursor) : Prop where
  start : id.span.start = c₀.peek.start
  outlined : Outlined c₀ (id.outline :: type.toList.map Ident.typeOutline) c
  lt : c.rest.length < c₀.rest.length

/-- A name and the type that may follow it, which only become part of an outline together with what they belong to. -/
theorem outlined_named {K : Ident → Option Ident → Parser β} {Q : β → Cursor → Prop}
    (hK : ∀ c₁ id type, Outlined c₀ os c₁ → Ensures (Named c₁ id type) (K id type) Q) :
    Ensures (Outlined c₀ os)
      (Parser.identifier context >>= fun id => Parser.optionalType >>= fun type => K id type) Q := by
  intro c₁ b d hc hrun
  obtain ⟨id, c₂, hid, hrun⟩ := ok_of_bind hrun
  obtain ⟨type, c₃, htype, hrun⟩ := ok_of_bind hrun
  have hread := (Outlines.identifier c₁ id c₂ hid).append (Outlines.optionalType c₂ type c₃ htype)
  have hlt := Nat.lt_of_le_of_lt (Outlines.optionalType c₂ type c₃ htype).length_le (Progress.lt c₁ id c₂ hid)
  refine hK c₁ id type hc c₃ b d ⟨?_, hread, hlt⟩ hrun
  -- the name begins where its token does
  obtain ⟨t, c', ht, hid⟩ := ok_of_bind hid
  have hpeek := Ensures.expect (P := (· = c₁)) (Q := fun t _ => t = c₁.peek) (fun c' hc _ => by rw [hc]) c₁ t c' rfl ht
  cases hid
  exact congrArg Token.start hpeek

/-- A token that stands for nothing may follow them. -/
theorem named_accept {k : Kind} (hk : k.isContent = false) :
    Ensures (Named c₀ id type) (Parser.accept k) fun _ => Named c₀ id type := by
  refine .accept (fun c hc hc' => ?_) fun c hc _ => hc
  have hmark : Outlined c [] c.advance.2 := .advance_mark (hc' ▸ hk)
  exact ⟨hc.start, hc.outlined.skip hmark, Nat.lt_of_le_of_lt hmark.length_le hc.lt⟩

section Parts

variable (h : inner.Outlines)

include h

omit [inner.Reads] in
/-- A binding takes its stretch from where its name began. -/
theorem whole_bindingRest (hid : id.span.start = c₀.peek.start) :
    Ensures (Outlined c₀ (id.outline :: type.toList.map Ident.typeOutline)) (bindingRest inner id type)
      (Whole c₀ fun b => [b.outline]) := by
  rw [bindingRest, hid]
  exact h.expression.optional rfl fun value => close fun s => by simp [Binding.outline]

/-- What may follow the name of a binding: its value is the last part of its outline. -/
theorem outlined_bindingRest : Ensures (Named c₀ id type) (bindingRest inner id type) fun b d =>
    Outlined c₀ [b.outline] d := by
  intro c b d hc hrun
  have hforward : Forward (bindingRest inner id type) := inferInstance
  exact (whole_bindingRest h hc.start c b d hc.outlined hrun).outlined (Nat.lt_of_le_of_lt (hforward.of_ok hrun) hc.lt)

theorem outlines_binding : Outlines (binding inner context) fun b => [b.outline] :=
  of_ensures fun _ => outlined_named fun _ _ _ hc => (outlined_bindingRest h).mono fun _ _ hd => hc.append hd

/-- Bindings with commas between them, of which the first has been read in part. -/
theorem outlined_bindings :
    Ensures (Named c₀ id type) (bindings inner context id type) fun bs d => Outlined c₀ (bs.map Binding.outline) d :=
  Ensures.bind (outlined_bindingRest h) fun _ => (outlines_binding h).afterCommas.step fun _ => .pure fun _ hc => hc

/-- Parameters in their parentheses. -/
theorem outlines_parameters : Outlines (parameters inner) fun bs => bs.map Binding.outline :=
  of_ensures fun _ => expectSymbol.skip fun _ => (outlines_binding h).commaList.step fun _ => expectSymbol.skip fun _ =>
    .pure fun _ hc => hc

/-- A block: statements in braces. -/
theorem outlines_blockIn : Outlines (blockIn inner context) fun b => [b.outline] :=
  spanned rfl fun _ => expectSymbol.skip fun _ => h.statement.separated.step fun _ => expectSymbol.skip fun _ =>
    close fun s => by simp [Block.outline]

/-- A callable takes its stretch from where it was said to begin, with its name if it has one. -/
theorem whole_callableRest (name : Option Ident) {isAbstract : Bool} :
    Ensures (Outlined c₀ (name.toList.map Ident.outline)) (callableRest inner name c₀.peek.start isAbstract)
      (Whole c₀ fun callable => [callable.outline]) := by
  refine (outlines_parameters h).step fun params => optionalType.step fun result => .still fun b => ?_
  refine .ite (fun _ => (accept rfl).skip fun _ => close fun s => ?_) fun _ => (outlines_blockIn h).step fun b =>
    close fun s => ?_
  · simp [Callable.outline]
  · simp [Callable.outline]

omit [inner.Reads] in
/-- Arguments in their parentheses. -/
theorem outlines_arguments : Outlines (arguments inner) fun es => es.map Expr.outline :=
  of_ensures fun _ => expectSymbol.skip fun _ => h.expression.commaList.step fun _ => expectSymbol.skip fun _ =>
    .pure fun _ hc => hc

omit h [inner.Reads] in
/-- The key of a property stores the text of its token. -/
theorem stored_of_objectKey? {t : Token} {key : ObjectKey} (h : objectKey? t = some key) : t.Stored key.text := by
  unfold objectKey? at h
  split at h
  · rename_i hk
    cases h
    exact .string hk
  · rename_i hk
    cases h
    exact .number hk
  · split at h
    · rename_i hw
      cases h
      exact .word hw
    · cases h

/-- A property goes over its key and its value. -/
theorem outlines_property : Outlines (property inner) fun p => [p.outline] := by
  refine spanned rfl fun c₀ => .bind Ensures.peek fun t => ?_
  cases hkey : objectKey? t with
  | none => exact .fail
  | some key =>
    refine .bind (Q := fun _ => Outlined c₀ [key.outline]) (.advance ?_) fun _ => ?_
    · rintro c ⟨hc, rfl⟩
      exact hc.append (.advance_text (stored_of_objectKey? hkey))
    · exact expectSymbol.skip fun _ => h.expression.step fun value => close fun s => rfl

/-! ## Expressions complete in themselves -/

theorem outlines_arrayLiteral : Outlines (arrayLiteral inner) fun e => [e.outline] :=
  spanned rfl fun _ => expectSymbol.skip fun _ => h.expression.commaList.step fun _ => expectSymbol.skip fun _ =>
    close fun s => by simp [Expr.outline]

theorem outlines_objectLiteral : Outlines (objectLiteral inner) fun e => [e.outline] :=
  spanned rfl fun _ => expectSymbol.skip fun _ => (outlines_property h).commaList.step fun _ =>
    expectSymbol.skip fun _ =>
    close fun s => by simp [Expr.outline]

/-- A function goes over its name, if it has one, its parameters and its body. -/
theorem outlines_functionExpression : Outlines (functionExpression inner) fun e => [e.outline] := by
  refine spanned rfl fun c₀ => (expect_mark (by simp [Kind.isContent])).skip fun _ => .still fun b => ?_
  have hrest (name : Option Ident) : Ensures (Outlined c₀ (name.toList.map Ident.outline))
      (do return Expr.function (← callableRest inner name c₀.peek.start false)) (Whole c₀ fun e => [e.outline]) :=
    Ensures.bind (whole_callableRest h name) fun callable => .pure fun c hc => hc
  exact .ite (fun _ => Outlines.identifier.step fun name => hrest (some name)) fun _ => hrest none

omit [inner.Reads] in
/-- Parentheses leave no trace. -/
theorem outlines_parenthesized :
    Ensures (fun c => Outlined c₀ [] c ∧ c.peek.kind = .symbol .leftParen) (parenthesized inner)
    fun e d => Outlined c₀ [e.outline] d :=
  advance_mark rfl fun _ => h.expression.step fun _ => expectSymbol.skip fun _ => .pure fun _ hc => hc

omit h [inner.Reads] in
/-- An expression that is a single token goes over that token. -/
theorem outlined_simple {e : Expr} (h : simple? c.peek = some e) : Outlined c [e.outline] c.advance.2 := by
  have hne := kind_ne_eof_of_simple? h
  unfold simple? at h
  split at h
  all_goals rename_i hk
  all_goals cases h
  case h_1 => exact .advance_node (.advance_text (.number hk)) hne
  case h_2 => exact .advance_node (.advance_text (.string hk)) hne
  case h_3 => exact .advance_node (.advance_text (.template hk)) hne
  all_goals first
    | exact .advance_node (.advance_mark (by rw [hk]; rfl)) hne
    | exact .advance_node (.advance_text (.word (by rw [hk]; rfl))) hne

/-- An operand without links, by the kind of its first token. -/
theorem outlines_atom : Outlines (atom inner) fun e => [e.outline] := by
  refine of_ensures fun c₀ => .bind Ensures.peek fun t => ?_
  cases hs : simple? t with
  | some e =>
    refine .bind (Q := fun _ => Outlined c₀ [e.outline]) (.advance ?_) fun _ => .pure fun c hc => hc
    rintro c ⟨hc, rfl⟩
    exact hc.append (outlined_simple hs)
  | none =>
    dsimp only
    split
    · exact (outlines_functionExpression h).known
    · rename_i hk
      exact (outlines_parenthesized h).strengthen fun c hc => ⟨hc.1, by rw [hc.2, hk]⟩
    · exact (outlines_arrayLiteral h).known
    · exact (outlines_objectLiteral h).known
    · exact .fail

/-! ## Chains of calls and properties -/

omit [inner.Reads] h in
theorem outlines_propertyName : Outlines (propertyName context) fun n => [n.outline] :=
  of_ensures fun _ => (accept rfl).skip fun _ =>
    .ite (fun _ => Outlines.propertyWord.step fun _ => .pure fun _ hc => hc)
    fun _ => Outlines.propertyWord.step fun _ => .pure fun _ hc => hc

omit [inner.Reads] in
/-- A key in brackets. -/
theorem outlines_computedKey : Outlines (computedKey inner) fun e => [e.outline] :=
  of_ensures fun _ => expectSymbol.skip fun _ => h.expression.step fun _ => expectSymbol.skip fun _ =>
    .pure fun _ hc => hc

end Parts

end Grammar

/-- The outlines of what a link adds to a chain. -/
def Link.parts : Link → List Outline
  | call args _ => args.map Expr.outline
  | member name _ => [name.outline]
  | index key _ => [key.outline]

/-- What was read since `c` is a link that ends here, or nothing. -/
def Linked (c : Cursor) : Option (Link × Position) → Cursor → Prop
  | none, d => Outlined c [] d
  | some (l, stop), d => Outlined c l.parts d ∧ stop = (d.previous.map Token.stop).getD d.peek.start

/-- A link lets an expression grow. -/
theorem Outlined.apply {c₀ d : Cursor} {e : Expr} {x : Link × Position} (he : Outlined c₀ [e.outline] c)
    (hx : Linked c (some x) d) (hlt : d.rest.length < c.rest.length) : Outlined c₀ [(Link.apply e x).outline] d := by
  obtain ⟨l, stop⟩ := x
  obtain ⟨hparts, rfl⟩ := hx
  obtain ⟨parts, houtline⟩ := e.outline_eq
  have ⟨us, hus, _⟩ := hparts
  obtain ⟨-, u, -, hprevious⟩ := hus.exists_last hlt
  have hspan : d.spanFrom e.span.start = ⟨e.span.start, (d.previous.map Token.stop).getD d.peek.start⟩ := by
    rw [Cursor.spanFrom, hprevious]
    rfl
  rw [houtline] at he
  have hgrown := he.grown hparts hlt
  rw [hspan, ← houtline] at hgrown
  cases l with
  | call args optional => simpa [Link.apply, Link.parts, Expr.outline] using hgrown
  | member name optional => exact hgrown
  | index key optional => exact hgrown

/-- An operator joins its operands. -/
theorem Outlined.join {c₀ d : Cursor} {left right : Expr} (hl : Outlined c₀ [left.outline] c)
    (hr : Outlined c [right.outline] d) :
    Outlined c₀ [.node (left.span.merge right.span) [left.outline, right.outline]] d := by
  obtain ⟨ps, hps⟩ := left.outline_eq
  obtain ⟨qs, hqs⟩ := right.outline_eq
  rw [hps] at hl ⊢
  rw [hqs] at hr ⊢
  exact hl.joined hr

namespace Grammar

variable {α β : Type} {inner : Inner} [inner.Reads] {c₀ : Cursor} {os : List Outline}

/-- A link together with the place where it ends. -/
theorem linked_ended {l : Link} (hl : l.parts = os) : Ensures (Outlined c₀ os) (ended l) (Linked c₀) := by
  rintro c _ _ hc ⟨⟩
  exact ⟨hl ▸ hc, rfl⟩

section Chains

variable (h : inner.Outlines)

include h

omit [inner.Reads] in
/-- A link behind a point goes over a name. -/
theorem linked_propertyLink : Ensures (Outlined c₀ []) (propertyLink inner) (Linked c₀) := by
  refine .bind Ensures.kind fun k => ?_
  split
  · exact advance_mark rfl fun _ => outlines_propertyName.step fun name => linked_ended rfl
  · exact ((outlines_computedKey h).step fun key => linked_ended rfl).strengthen fun c hc => hc.1
  · exact .pure fun c hc => hc.1

omit [inner.Reads] in
/-- Any link goes over its arguments, its name or its key. -/
theorem linked_link : Ensures (Outlined c₀ []) (link inner) (Linked c₀) := by
  refine .bind Ensures.kind fun k => ?_
  split
  · exact ((outlines_arguments h).step fun args => linked_ended rfl).strengthen fun c hc => hc.1
  · refine advance_mark rfl fun _ => .still fun k => ?_
    split
    · exact (outlines_arguments h).step fun args => linked_ended rfl
    · exact (outlines_computedKey h).step fun key => linked_ended rfl
    · exact outlines_propertyName.step fun name => linked_ended rfl
  · exact (linked_propertyLink h).strengthen fun c hc => hc.1

omit [inner.Reads] h in
/-- Links one after the other. -/
theorem outlined_links {item : Parser (Option (Link × Position))} [hmoving : Moving item]
    (hitem : ∀ c₀, Ensures (Outlined c₀ []) item (Linked c₀)) (e : Expr) :
    Ensures (Outlined c₀ [e.outline]) (many item) fun links d =>
      Outlined c₀ [(links.foldl Link.apply e).outline] d := by
  refine .many_foldl (I := fun e => Outlined c₀ [e.outline]) (fun e c o d hc hrun => ?_) e
  have hlinked := hitem c c o d .nil hrun
  cases o with
  | none => exact hc.skip hlinked
  | some x => exact hc.apply hlinked (hmoving.lt c x d hrun)

/-- The words that begin constructions lead from `c` to `d`; `starts` are their places, the innermost first. -/
inductive Announced (c : Cursor) : List Position → Cursor → Prop
  | nil : Announced c [] c
  | cons {starts : List Position} {d : Cursor} : Announced c starts d → d.peek.kind = .keyword .novo →
      Announced c (d.peek.start :: starts) d.advance.2

omit h [inner.Reads] in
/-- The words of construction are kept as the places where they stand, the last one first. -/
theorem announced_newWords :
    Ensures (· = c₀) (Parser.many newWord) fun starts d => Announced c₀ starts.reverse d := by
  have hround (starts : List Position) : Ensures (Announced c₀ starts) newWord fun o d =>
      Announced c₀ (o.toList.foldl (fun starts start => start :: starts) starts) d := by
    refine .bind Ensures.check fun b => .ite (fun hb => ?_) fun _ => .pure fun d hd => hd.1
    rintro d o e ⟨hd, hk⟩ hrun
    cases hrun
    exact hd.cons (eq_of_beq (hk.trans hb))
  rintro c starts d rfl hrun
  simpa using Ensures.many_foldl hround [] c starts d .nil hrun

/-- A construction takes its stretch from where its word began. -/
theorem outlined_constructions {starts : List Position} {c₁ : Cursor} (hnew : Announced c₀ starts c₁) (e : Expr) :
    Ensures (Outlined c₁ [e.outline]) (constructions inner starts e) fun e' d => Outlined c₀ [e'.outline] d := by
  induction hnew generalizing e with
  | nil => exact .pure fun c hc => hc
  | @cons starts c₁ hnew hk ih =>
    refine .bind (outlined_links (fun _ => linked_propertyLink h) e) fun links => .still fun b => ?_
    have hrest (args : List Expr) : Ensures
        (Outlined c₁.advance.2 ((links.foldl Link.apply e).outline :: args.map Expr.outline))
        (do constructions inner starts (.new (links.foldl Link.apply e) args (← spanFrom c₁.peek.start)))
        fun e' d => Outlined c₀ [e'.outline] d := by
      intro c e' d hc hrun
      obtain ⟨s, c', hs, hrun⟩ := ok_of_bind hrun
      cases hs
      have hlt : c.rest.length < c₁.rest.length :=
        Nat.lt_of_le_of_lt hc.length_le (Cursor.advance_rest_lt (by rw [hk]; decide))
      have hnode := (Outlined.advance_mark (by rw [hk]; rfl) |>.append hc).node hlt
      exact ih _ c e' d (by simpa [Expr.outline] using hnode) hrun
    exact .ite (fun _ => (outlines_arguments h).step hrest) fun _ => hrest []

/-- An operand with all words of construction in front of it. Each construction goes back to where its word stands. -/
theorem outlines_primary : Outlines (primary inner) fun e => [e.outline] := by
  intro c e d hrun
  obtain ⟨starts, c₁, hstarts, hrun⟩ := ok_of_bind hrun
  obtain ⟨e₁, c₂, hatom, hrun⟩ := ok_of_bind hrun
  exact outlined_constructions h (announced_newWords c starts c₁ rfl hstarts) e₁ c₂ e d
    (outlines_atom h c₁ e₁ c₂ hatom) hrun

/-- A chain of links: with each of them the expression grows. -/
theorem outlines_call : Outlines (call inner) fun e => [e.outline] :=
  of_ensures fun _ => (outlines_primary h).step fun e => .bind (outlined_links (fun _ => linked_link h) e) fun _ =>
    .pure fun _ hc => hc

/-! ## Operators -/

/-- A chain that may be stepped. -/
theorem outlines_postfixed : Outlines (postfixed inner) fun e => [e.outline] := by
  refine of_ensures fun c₀ => (outlines_call h).step fun e => .bind Ensures.kind fun k => ?_
  cases hop : updateOp? k with
  | none => exact .pure fun c hc => hc.1
  | some op =>
    refine .still fun b => .ite (fun _ => .pure fun c hc => hc.1) fun _ => .still fun _ => ?_
    rintro c _ _ ⟨hc, rfl⟩ ⟨⟩
    have hne : c.peek.kind ≠ .eof := fun heof => by rw [heof] at hop; cases hop
    have hmark := Kind.not_isContent_of_some hop rfl
    obtain ⟨parts, houtline⟩ := e.outline_eq
    rw [List.nil_append, houtline] at hc
    have hgrown := hc.grown (.advance_mark hmark) (Cursor.advance_rest_lt hne)
    rwa [← houtline] at hgrown

/-- Operators in front of an operand. -/
theorem outlines_unary : Outlines (unary inner) fun e => [e.outline] := by
  refine mayspan rfl fun c₀ => .bind Ensures.kind fun k => .bind Ensures.kind fun k' => ?_
  split
  · rename_i hop
    have hmark := Kind.not_isContent_of_some hop rfl
    refine .mono (Q := Whole c₀ fun e => [e.outline]) ?_ fun _ _ => .inl
    exact (advance_mark hmark fun _ => h.unary.step fun e => .still fun _ => close fun s => rfl).strengthen
      fun c hc => hc.1
  · rename_i hop
    have hmark := Kind.not_isContent_of_some hop rfl
    refine .mono (Q := Whole c₀ fun e => [e.outline]) ?_ fun _ _ => .inl
    exact (advance_mark hmark fun _ => h.unary.step fun e => close fun s => rfl).strengthen fun c hc => ⟨hc.1.1, hc.2⟩
  · exact (outlines_postfixed h).known.strengthen (fun c hc => hc.1) |>.mono fun _ _ => .inr

omit h [inner.Reads] in
/-- The right operand of an operator is read after the left one has been, and the two are joined. -/
theorem outlined_operand {left : Expr} {operand : Parser Expr} (hoperand : Outlines operand fun e => [e.outline])
    {K : Expr → β} {Q : β → Cursor → Prop}
    (hK : ∀ right d, Outlined c₀ [.node (left.span.merge right.span) [left.outline, right.outline]] d → Q (K right) d) :
    Ensures (Outlined c₀ [left.outline]) (operand >>= fun right => pure (K right)) Q :=
  Ensures.bind (Q := fun right d => Outlined c₀ [.node (left.span.merge right.span) [left.outline, right.outline]] d)
    (fun c right d hc hrun => hc.join (hoperand c right d hrun)) fun right => .pure (hK right)

/-- Powers group to the right: the right operand is a power itself. -/
theorem outlines_exponent : Outlines (Grammar.exponent inner) fun e => [e.outline] := by
  refine of_ensures fun c₀ => (outlines_unary h).step fun base => (accept rfl).skip fun b =>
    .ite (fun _ => ?_) fun _ => ?_
  · exact outlined_operand h.exponent fun right d hd => hd
  · exact .pure fun c hc => hc

omit h [inner.Reads] in
/-- Operators that group to the left join one operand after the other. -/
theorem outlines_leftChain {op? : Kind → Option BinaryOp} (hop : contentKinds.all (fun k => (op? k).isNone) = true)
    {operand : Parser Expr} (hoperand : Outlines operand fun e => [e.outline]) :
    Outlines (leftChain op? operand) fun e => [e.outline] := by
  refine of_ensures fun c₀ => hoperand.step fun first => .bind
    (.many_foldl (I := fun left : Expr => Outlined c₀ [left.outline]) (g := Expr.join)
      (fun left => ?_) first) fun others => ?_
  · refine .bind Ensures.kind fun k => ?_
    cases hk : op? k with
    | none => exact .pure fun c hc => hc.1
    | some op => exact advance_mark (Kind.not_isContent_of_some hk hop) fun _ =>
      outlined_operand hoperand fun right d hd => hd
  · exact .pure fun c hc => hc

/-- All levels from products to disjunctions. -/
theorem outlines_logicalOr : Outlines (logicalOr inner) fun e => [e.outline] :=
  outlines_leftChain rfl <| outlines_leftChain rfl <| outlines_leftChain rfl <| outlines_leftChain rfl <|
    outlines_leftChain rfl <| outlines_leftChain rfl <| outlines_leftChain rfl <| outlines_leftChain rfl <|
    outlines_leftChain rfl (outlines_exponent h)

/-- An assignment goes over its target and its value. -/
theorem outlines_assignment : Outlines (assignment inner) fun e => [e.outline] := by
  refine of_ensures fun c₀ => (outlines_logicalOr h).step fun target => .bind Ensures.kind fun k => ?_
  cases hk : assignOp? k with
  | none => exact .pure fun c hc => hc.1
  | some op =>
    have hmark := Kind.not_isContent_of_some hk rfl
    exact .still fun _ => advance_mark hmark fun _ => outlined_operand h.expression fun value d hd => hd

end Chains

/-! ## Classes -/

/-- The base of a class: a path of names. -/
theorem outlines_qualifiedName : Outlines qualifiedName fun e => [e.outline] := by
  refine of_ensures fun c₀ => (expect_node (by simp [classKinds, Kind.isWord])).step fun t => ?_
  refine .bind (outlined_links (fun c₁ => ?_) (.ident t.text t.span)) fun links => .pure fun c hc => hc
  refine (accept rfl).skip fun b => .ite (fun _ => Outlines.propertyWord.step fun name => linked_ended rfl) fun _ => ?_
  exact .pure fun c hc => hc

/-- A decorator goes from its sign to its name. -/
theorem outlines_decorator : Outlines decorator fun o => o.toList.map Ident.outline := by
  intro c o d hrun
  obtain ⟨b, c', hb, hrun⟩ := ok_of_bind hrun
  cases hb
  split at hrun
  · rename_i hk
    have hkind : c.peek.kind = .symbol .atSign := eq_of_beq hk
    obtain ⟨sign, c₁, hsign, hrun⟩ := ok_of_bind hrun
    rw [show (advance : Parser Token) c = .ok c.advance.1 c.advance.2 from rfl, Cursor.advance_fst] at hsign
    cases hsign
    obtain ⟨name, c₂, hname, hrun⟩ := ok_of_bind hrun
    cases hrun
    have hlast := Ensures.propertyWord (P := fun _ => True) (Q := fun t d => d.previous = some t)
      (fun c _ hw => by
        obtain ⟨previous, _ | ⟨t, ts⟩⟩ := c
        · cases hw
        · rfl) c.advance.2 name d trivial hname
    have hword := Outlines.propertyWord c.advance.2 name d hname
    have hlt := Nat.lt_of_le_of_lt hword.length_le (Cursor.advance_rest_lt (by rw [hkind]; decide))
    have hnode := ((Outlined.advance_mark (by rw [hkind]; rfl)).append hword).node hlt
    rwa [Cursor.spanFrom, hlast] at hnode
  · cases hrun
    exact .nil

theorem outlines_modifier : Outlines modifier fun _ => [] := by
  refine of_ensures fun c₀ => .bind Ensures.kind fun k => .ite (fun hk => ?_) fun _ => .pure fun c hc => hc.1
  obtain ⟨m, hm⟩ := Option.isSome_iff_exists.mp hk
  exact advance_mark (Kind.not_isContent_of_some hm rfl) fun _ => .pure fun c hc => hc

theorem outlines_interfaces : Outlines interfaces fun ids => ids.map Ident.outline := by
  have hname : Outlines (do let t ← expect classKinds .classDeclaration; return (⟨t.text, t.span⟩ : Ident))
      fun id => [id.outline] :=
    of_ensures fun _ => (expect_node (by simp [classKinds, Kind.isWord])).step fun _ => .pure fun _ hc => hc
  refine of_ensures fun c₀ => (accept rfl).skip fun b => .ite (fun _ => ?_) fun _ => .pure fun c hc => hc
  exact hname.step fun first => hname.afterCommas.step fun others => .pure fun c hc => hc

section Statements

variable (h : inner.Outlines)

include h

/-- The function of a method takes its stretch from where its parameters begin. -/
theorem outlines_function {isAbstract : Bool} :
    Outlines (do callableRest inner none (← position) isAbstract) fun callable => [callable.outline] :=
  spanned rfl fun _ => whole_callableRest h none

/-- A method behind its name, which the decorators stand before. -/
theorem whole_method (name : PropertyName) {kind : MethodKind} {modifiers : Modifiers} {decorators : List Ident} :
    Ensures (Outlined c₀ (decorators.map Ident.outline ++ [name.outline]))
      (method inner name kind modifiers decorators c₀.peek.start) (Whole c₀ fun m => [m.outline]) :=
  (outlines_function h).step fun callable => close fun s => by simp [Member.outline]

omit [inner.Reads] in
/-- A field behind its name. -/
theorem whole_field {name : PropertyName} {modifiers : Modifiers} {decorators : List Ident} :
    Ensures (Outlined c₀ (decorators.map Ident.outline ++ [name.outline]))
      (field inner name modifiers decorators c₀.peek.start) (Whole c₀ fun m => [m.outline]) :=
  Outlines.optionalType.step fun type => h.expression.optional rfl fun value => (accept rfl).skip fun _ =>
    close fun s => by
    simp [Member.outline]

/-- A member with its decorators and modifiers. Modifiers stand for nothing in an outline. -/
theorem outlines_member : Outlines (member inner) fun m => [m.outline] := by
  refine spanned rfl fun c₀ => (many_map outlines_decorator).step fun decorators =>
    (many_marks outlines_modifier).skip fun _ => ?_
  refine .bind (Q := fun b => Outlined c₀ (decorators.map Ident.outline ++ if b then [.text "constructor"] else []))
    (.accept (fun c hc hk => ?_) fun c hc _ => ?_) fun b => .ite (fun hb => ?_) fun hb => .still fun c => ?_
  · exact hc.append (.advance_text (.constructor hk))
  · simpa using hc
  · rw [hb]
    exact whole_method h (.plain "constructor")
  · rw [if_neg hb, List.append_nil]
    refine .bind Ensures.kind fun k => ?_
    split
    · rename_i hk _
      exact advance_mark (Kind.not_isContent_of_some hk rfl) fun _ => outlines_propertyName.step fun name =>
        whole_method h name
    · refine .strengthen ?_ fun c hc => hc.1
      exact outlines_propertyName.step fun name => .still fun b =>
        .ite (fun _ => whole_method h name) fun _ => whole_field h

/-- A class goes over its name, its base, its interfaces and its members. -/
theorem outlines_classDeclaration : Outlines (classDeclaration inner) fun s => [s.outline] :=
  spanned rfl fun _ => (expect_mark (by simp [Kind.isContent])).skip fun _ => Outlines.identifier.step fun name =>
    outlines_qualifiedName.optional rfl fun base => outlines_interfaces.step fun interfaces =>
      expectSymbol.skip fun _ =>
    (outlines_member h).separated.step fun members => expectSymbol.skip fun _ => close fun s => by simp [Stmt.outline]

/-! ## Statements -/

omit h [inner.Reads] in
theorem outlines_variableKind : Outlines variableKind fun _ => [] :=
  of_ensures fun _ => (expect_mark (by simp [Kind.isContent])).skip fun _ => .pure fun _ hc => hc

/-- A declaration goes over its bindings. -/
theorem outlines_variableDeclaration : Outlines (variableDeclaration inner) fun d => [d.outline] :=
  spanned rfl fun _ => outlines_variableKind.skip fun _ => outlined_named fun _ _ _ hc =>
    Ensures.bind ((outlined_bindings h).mono fun _ _ hd => hc.append hd) fun bs => close fun s => by
      simp [Declaration.outline]

theorem outlines_variablesStatement : Outlines (variablesStatement inner) fun s => [s.outline] :=
  of_ensures fun _ => (outlines_variableDeclaration h).step fun _ => (accept rfl).skip fun _ => .pure fun _ hc => hc

theorem outlines_functionDeclaration : Outlines (functionDeclaration inner) fun s => [s.outline] :=
  spanned rfl fun _ => (expect_mark (by simp [Kind.isContent])).skip fun _ => Outlines.identifier.step fun name =>
    Ensures.bind (whole_callableRest h (some name)) fun _ => .pure fun _ hc => hc

omit [inner.Reads] in
theorem outlines_condition : Outlines (condition inner context) fun e => [e.outline] :=
  of_ensures fun _ => (accept rfl).skip fun _ => .ite
    (fun _ => h.expression.step fun _ => expectSymbol.skip fun _ => .pure fun _ hc => hc) fun _ => h.expression.ensures

theorem outlines_ifStatement : Outlines (ifStatement inner) fun s => [s.outline] :=
  spanned rfl fun _ => (expect_mark (by simp [Kind.isContent])).skip fun _ => (outlines_condition h).step fun _ =>
    h.statement.step fun _ => h.statement.optional rfl fun _ => close fun s => by simp [Stmt.outline]

theorem outlines_whileStatement : Outlines (whileStatement inner) fun s => [s.outline] :=
  spanned rfl fun _ => (expect_mark (by simp [Kind.isContent])).skip fun _ => (outlines_condition h).step fun _ =>
    h.statement.step fun _ => close fun s => rfl

omit [inner.Reads] in
/-- A clause of a loop, which is missing if the closing token follows at once. -/
theorem outlines_optionalExpression {closing : Kind} :
    Outlines (optionalExpression inner closing) fun o => o.toList.map Expr.outline :=
  of_ensures fun _ => .still fun _ => .ite (fun _ => absent) fun _ => h.expression.present

omit [inner.Reads] in
/-- The rest of a loop over items, behind the name that it declares. -/
theorem whole_forEachRest {inParens : Bool} {kind : VariableKind} :
    Ensures (Outlined c₀ (id.outline :: type.toList.map Ident.typeOutline))
      (forEachRest inner c₀.peek.start inParens kind id type) (Whole c₀ fun s => [s.outline]) := by
  refine h.expression.step fun iterable => ?_
  have hrest : Ensures (Outlined c₀ (id.outline :: type.toList.map Ident.typeOutline ++ [iterable.outline])) (do
      let body ← inner.statement
      return Stmt.forEach kind id type iterable body (← spanFrom c₀.peek.start)) (Whole c₀ fun s => [s.outline]) :=
    h.statement.step fun body => close fun s => by simp [Stmt.outline]
  exact .ite (fun _ => expectSymbol.skip fun _ => hrest) fun _ => hrest

/-- The rest of a loop with three clauses, behind the first of them. -/
theorem whole_forLoopRest {inParens : Bool} (init : Option ForInit) :
    Ensures (Outlined c₀ (init.toList.map ForInit.outline)) (forLoopRest inner c₀.peek.start inParens init)
      (Whole c₀ fun s => [s.outline]) := by
  refine expectSymbol.skip fun _ => (outlines_optionalExpression h).step fun test =>
    expectSymbol.skip fun _ => .ite ?_ ?_
  · refine fun _ => (outlines_optionalExpression h).step fun update => expectSymbol.skip fun _ =>
      h.statement.step fun body => ?_
    exact close fun s => by simp [Stmt.outline]
  · refine fun _ => (outlines_optionalExpression h).step fun update => (outlines_blockIn h).step fun body => ?_
    exact close fun s => by simp [Stmt.outline]

/-- A loop of either kind. The first name is read before it is known which one it is. -/
theorem outlines_forStatement : Outlines (forStatement inner) fun s => [s.outline] := by
  refine spanned rfl fun c₀ => (expect_mark (by simp [Kind.isContent])).skip fun _ =>
    (accept rfl).skip fun inParens => ?_
  refine .still fun b => .still fun b' => .ite (fun _ => ?_) fun _ => ?_
  · -- the declaration takes its stretch from here
    intro c s d hc hrun
    obtain ⟨declStart, c', hstart, hrun⟩ := ok_of_bind hrun
    cases hstart
    refine (show Ensures (Outlined c []) _ (Whole c₀ fun s => [s.outline]) from outlines_variableKind.skip fun kind =>
      outlined_named fun c₁ id type hc₁ => ?_) c s d .nil hrun
    refine .bind (named_accept rfl) fun b => .ite (fun _ => ?_) fun _ => ?_
    · exact (whole_forEachRest h).strengthen fun c hc' => (hc.append hc₁).append hc'.outlined
    · refine .bind (Q := fun bs d => Outlined c₁ (bs.map Binding.outline) d ∧ d.rest.length < c₁.rest.length)
        ?_ fun bs => ?_
      · have hforward : Forward (bindings inner .forStatement id type) := inferInstance
        exact fun c bs d hc hrun => ⟨outlined_bindings h c bs d hc hrun, Nat.lt_of_le_of_lt (hforward.of_ok hrun) hc.lt⟩
      · rintro c₂ s d ⟨hbs, hlt⟩ hrun
        obtain ⟨span, c', hspan, hrun⟩ := ok_of_bind hrun
        cases hspan
        have hnode := (hc₁.append hbs).node (Nat.lt_of_lt_of_le hlt hc₁.length_le)
        refine whole_forLoopRest h (some (.declaration ⟨kind, bs, c₂.spanFrom c.peek.start⟩)) c₂ s d ?_ hrun
        simpa [ForInit.outline, Declaration.outline] using hc.append hnode
  · refine (outlines_optionalExpression h).step fun init => (whole_forLoopRest h _).strengthen fun c hc => ?_
    cases init <;> exact hc

/-- A return goes over its value, if it has one. -/
theorem outlines_returnStatement : Outlines (returnStatement inner) fun s => [s.outline] := by
  refine spanned rfl fun c₀ => (expect_mark (by simp [Kind.isContent])).skip fun _ => .still fun k =>
    .still fun b => .ite ?_ ?_
  · exact fun _ => (accept rfl).skip fun _ => close fun s => rfl
  · exact fun _ => h.expression.step fun e => (accept rfl).skip fun _ => close fun s => rfl

theorem outlines_expressionStatement : Outlines (expressionStatement inner) fun s => [s.outline] :=
  spanned rfl fun _ => h.expression.step fun _ => (accept rfl).skip fun _ => close fun _ => rfl

/-- Any statement, by the kind of its first token. -/
theorem outlines_statement : Outlines (statement inner) fun s => [s.outline] := by
  refine of_ensures fun c₀ => .still fun k => ?_
  split
  · exact (outlines_variablesStatement h).ensures
  · exact (outlines_variablesStatement h).ensures
  · exact (outlines_functionDeclaration h).ensures
  · exact (outlines_classDeclaration h).ensures
  · exact (outlines_ifStatement h).ensures
  · exact (outlines_whileStatement h).ensures
  · exact (outlines_forStatement h).ensures
  · exact (outlines_returnStatement h).ensures
  · exact (outlines_blockIn h).step fun block => .pure fun c hc => hc
  · exact (outlines_expressionStatement h).ensures

end Statements

/-! ## Levels -/

/-- However deep they may nest, the productions go over phrases. -/
theorem outlines_level (n : Nat) : (level n).Outlines := by
  induction n with
  | zero => exact ⟨.tooDeep, .tooDeep, .tooDeep, .tooDeep⟩
  | succ n ih => exact ⟨outlines_assignment ih, outlines_exponent ih, outlines_unary ih, outlines_statement ih⟩

/-! ## Programs -/

section Program

variable (h : inner.Outlines)

include h

omit [inner.Reads] in
/-- A statement of a program, or the end. -/
theorem outlines_programItem : Outlines (programItem inner) fun o => o.toList.map Stmt.outline := by
  refine of_ensures fun c₀ => .still fun b => .ite (fun _ => absent) fun _ => .still fun b => .still fun b' => ?_
  have hrest : Ensures (Outlined c₀ []) (do let s ← inner.statement; skipSemicolons; return some s) fun o d =>
      Outlined c₀ (o.toList.map Stmt.outline) d :=
    h.statement.step fun s => Outlines.skipSemicolons.skip fun _ => .pure fun c hc => hc
  exact .ite (fun _ => .bind Ensures.fail fun _ => hrest) fun _ => hrest

omit h in
/-- Statements are read up to the end. -/
theorem many_programItem_end : Ensures (fun _ => True) (Parser.many (programItem inner)) fun _ d =>
    d.peek.kind = .eof := by
  refine (Ensures.many_end (P := fun _ => True) (D := fun d => d.peek.kind = .eof) ?_ ?_).mono fun _ _ hd => hd.2
  · refine Ensures.bind Ensures.check fun b => .ite (fun hb => .pure fun c hc => ⟨trivial, fun _ => ?_⟩) fun _ => ?_
    · exact eq_of_beq (hc.2.trans hb)
    · have hrest {P : Cursor → Prop} : Ensures P (do let s ← inner.statement; skipSemicolons; return some s) fun o d =>
          True ∧ (o = none → d.peek.kind = .eof) :=
        Ensures.bind (Q := fun _ _ => True) (fun _ _ _ _ _ => trivial) fun s =>
          Ensures.bind (Q := fun _ _ => True) (fun _ _ _ _ _ => trivial) fun _ => .pure fun c _ => ⟨trivial, nofun⟩
      exact .still fun b => .still fun b' => .ite (fun _ => .bind (Q := fun _ _ => True) Ensures.fail fun _ => hrest)
        fun _ => hrest
  · rintro n c (_ | s) d ⟨-, rfl⟩ hrun hne
    · exact absurd rfl hne
    · exact Moving.lt c s d hrun

/-- A program takes its stretch from the first token on, and ends at the end. -/
theorem whole_statements {d : Cursor} {p : Program} (hrun : statements inner c = .ok p d) :
    Whole c (fun p => [p.outline]) p d ∧ d.peek.kind = .eof := by
  obtain ⟨start, c', hstart, hrun⟩ := ok_of_bind hrun
  cases hstart
  have hmany : Ensures (Outlined c []) (Parser.many (programItem inner)) fun body d =>
      Outlined c (body.map Stmt.outline) d ∧ d.peek.kind = .eof := fun e body d he hrun =>
    ⟨(many_map (outlines_programItem h)).ensures e body d he hrun, many_programItem_end e body d trivial hrun⟩
  refine Outlines.skipSemicolons.skip (Q := fun p d => Whole c (fun p => [p.outline]) p d ∧ d.peek.kind = .eof)
    (fun _ => Ensures.bind hmany fun body => ?_) c p d .nil hrun
  rintro e _ _ ⟨he, hend⟩ ⟨⟩
  exact ⟨⟨_, he, by simp [Program.outline]⟩, hend⟩

end Program

end Grammar

/-- The tokens of a program up to the end are the phrase that its outline says. -/
theorem parse_outlined {ts : List Token} {p : Program} (h : parse ts = .ok p) :
    ∃ d : Cursor, Whole (.ofTokens ts) (fun p => [p.outline]) p d ∧ d.peek.kind = .eof := by
  rw [parse] at h
  cases hrun : program (.ofTokens ts) with
  | error e d =>
    rw [hrun] at h
    cases h
  | ok p' d =>
    rw [hrun] at h
    cases h
    exact ⟨d, whole_statements (outlines_level maxDepth) hrun⟩

end Vernacular
