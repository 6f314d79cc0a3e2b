import Vernacular.Proofs.Grammar.Extension

/-!
# Whole expressions before more tokens

A whole expression that ends with its tokens is read in the same way before what closes or separates the parts of a
header, and before the brace of a body (`closers`). So are declarations. Nor does it matter what stands before them.

- `extends_expression`, `extends_bindings`: what is read alone is read before any of the `closers`;
- `Grammar.fresh_expression`: whatever stands before it;
- `TokenRun`: tokens that a reader reads to the last one, here expressions and blocks.
-/

namespace Vernacular

open Grammar Vernacular.Parser

variable {α β : Type}
variable {k : Kind} {c : Cursor}

/-! ## Whole expressions before more tokens -/

/-- The kinds that may stand behind an expression in a header, and the end. -/
def closers : List Kind := [.eof, .symbol .rightParen, .symbol .semicolon, .symbol .leftBrace]

theorem power_of_mem_closers (h : k ∈ closers) : k.power = 0 := by
  revert k
  decide

theorem fences_of_mem_closers (h : k ∈ closers) : k.Fences := by
  refine ⟨by rw [power_of_mem_closers h]; decide, ?_, ?_⟩
  · rintro rfl
    exact absurd h (by decide)
  · rintro rfl
    exact absurd h (by decide)

section Whole

variable {more : List Token} (hmore : firstKind more ∈ closers)

include hmore

namespace Extends

/-- A kind that closes nothing is ahead in both runs or in none. -/
theorem accept (hk : k ∉ closers) (c : Cursor) : Extends more (accept k) (accept k) c := by
  obtain ⟨previous, rest⟩ := c
  cases rest with
  | nil =>
    have hno (c : Cursor) (hc : c.peek.kind ∈ closers) : (Parser.accept k : Parser Bool) c = .ok false c := by
      rw [accept_eq, if_neg]
      rintro rfl
      exact hk hc
    exact .stops (F := (· ∈ closers)) (by decide) hmore hno hno
  | cons t ts =>
    show Extends more (if (t.kind == k) = true then _ else _) (if (t.kind == k) = true then _ else _) _
    exact .ite (fun _ => Extends.advance.bind fun _ _ _ => .pure) fun _ => .pure

end Extends

namespace Grammar

variable {inner inner' : Inner}

theorem extends_leftChain {op? : Kind → Option BinaryOp} (hop : ∀ k ∈ closers, op? k = none)
    {operand operand' : Parser Expr} [Progress operand] (h : ∀ c, Extends more operand operand' c) (c : Cursor) :
    Extends more (leftChain op? operand) (leftChain op? operand') c := by
  have hnone (operand : Parser Expr) (c : Cursor) (hc : c.peek.kind ∈ closers) :
      chainItem op? operand c = .ok none c := by
    rw [chainItem, kind_bind, hop _ hc]
    rfl
  have hitem (c : Cursor) : Extends more (chainItem op? operand) (chainItem op? operand') c := by
    obtain ⟨previous, rest⟩ := c
    cases rest with
    | nil => exact .stops (F := (· ∈ closers)) (by decide) hmore (hnone operand) (hnone operand')
    | cons t ts =>
      refine .kind ?_
      split
      · exact .pure
      · exact Extends.advance.bind fun _ _ _ => (h _).bind fun _ _ _ => .pure
  rw [leftChain_eq, leftChain_eq]
  exact (h c).bind fun _ _ _ => (Extends.many hitem).bind fun _ _ _ => .pure

/-- The operators that group to the left, from the loosest to the tightest. -/
theorem extends_logicalOr [inner.Reads] (h : ∀ c, Extends more (exponent inner) (exponent inner') c) (c : Cursor) :
    Extends more (logicalOr inner) (logicalOr inner') c := by
  have hop (L : Nat) (hL : L ≠ 0) (k : Kind) (hk : k ∈ closers) : opAt L k = none := by
    cases hsome : opAt L k with
    | none => rfl
    | some op => exact absurd ((power_of_opAt hsome).symm.trans (power_of_mem_closers hk)) hL
  unfold logicalOr logicalAnd bitwiseOr bitwiseAnd equality relational shift additive multiplicative
  refine extends_leftChain hmore (hop 3 (by decide)) (fun c => ?_) c
  refine extends_leftChain hmore (hop 4 (by decide)) (fun c => ?_) c
  refine extends_leftChain hmore (hop 5 (by decide)) (fun c => ?_) c
  refine extends_leftChain hmore (hop 7 (by decide)) (fun c => ?_) c
  refine extends_leftChain hmore (hop 8 (by decide)) (fun c => ?_) c
  refine extends_leftChain hmore (hop 9 (by decide)) (fun c => ?_) c
  refine extends_leftChain hmore (hop 10 (by decide)) (fun c => ?_) c
  refine extends_leftChain hmore (hop 11 (by decide)) (fun c => ?_) c
  exact extends_leftChain hmore (hop 12 (by decide)) h c

theorem extends_exponent (hunary : ∀ c, Extends more (unary inner) (unary inner') c)
    (h : ∀ c, Extends more inner.exponent inner'.exponent c) (c : Cursor) :
    Extends more (exponent inner) (exponent inner') c := by
  refine (hunary c).bind fun base d _ => (Extends.accept hmore (by decide) d).bind fun b d _ => ?_
  exact .ite (fun _ => (h d).bind fun _ _ _ => .pure) fun _ => .pure

theorem extends_assignment (hor : ∀ c, Extends more (logicalOr inner) (logicalOr inner') c)
    (h : ∀ c, Extends more inner.expression inner'.expression c) (c : Cursor) :
    Extends more (assignment inner) (assignment inner') c := by
  refine (hor c).bind fun target d _ => ?_
  obtain ⟨previous, rest⟩ := d
  cases rest with
  | nil =>
    have hno {c : Cursor} (hc : c.peek.kind ∈ closers) : assignOp? c.peek.kind = none := by
      cases hop : assignOp? c.peek.kind with
      | none => rfl
      | some op =>
        have hzero := power_of_mem_closers hc
        rw [power_of_assignOp? hop] at hzero
        cases hzero
    refine .stops (F := (· ∈ closers)) (a := target) (by decide) hmore (fun c hc => ?_) (fun c hc => ?_)
    · rw [kind_bind, hno hc]
      rfl
    · rw [kind_bind, hno hc]
      rfl
  | cons t ts =>
    refine .kind ?_
    split
    · exact .pure
    · refine extends_assignable.bind fun _ d hd => ?_
      obtain rfl := cursor_of_assignable hd
      exact Extends.advance.bind fun _ _ _ => (h _).bind fun _ _ _ => .pure

end Grammar

/-- A power is read before what closes a header as it is read alone, however many levels there are in either run. -/
theorem extends_power (n m : Nat) (c : Cursor) :
    Extends more (Grammar.exponent (level n)) (Grammar.exponent (level m)) c := by
  have hfence := fences_of_mem_closers hmore
  refine extends_exponent hmore (extends_operand hfence n m) (fun c => ?_) c
  induction n generalizing m c with
  | zero => rintro a d ⟨⟩
  | succ n ih =>
    cases m with
    | zero => exact fun _ _ _ => .tooDeep
    | succ m => exact extends_exponent hmore (extends_operand hfence n m) (ih m) c

/-- A whole expression is. -/
theorem extends_expression (n m : Nat) (c : Cursor) : Extends more (level n).expression (level m).expression c := by
  induction n generalizing m c with
  | zero => rintro a d ⟨⟩
  | succ n ih =>
    cases m with
    | zero => exact fun _ _ _ => .tooDeep
    | succ m =>
      have := reads_level n
      exact extends_assignment hmore (extends_logicalOr hmore (extends_power hmore n m)) (ih m) c

/-! ## Declarations before more tokens -/

/-- One pair of brackets. What closes a header is neither of the two. -/
theorem extends_brackets (c : Cursor) : Extends more brackets brackets c := by
  have hno (c : Cursor) (hc : c.peek.kind ≠ .symbol .leftBracket ∨ (c.peekNth 1).kind ≠ .symbol .rightBracket) :
      brackets c = .ok none c := by
    show (if c.peek.kind = .symbol .leftBracket ∧ (c.peekNth 1).kind = .symbol .rightBracket then _ else _ :
      Parser (Option String)) c = _
    rw [if_neg fun h => hc.elim (absurd h.1) (absurd h.2)]
    rfl
  have hne {k : Kind} {s : Symbol} (hk : k ∈ closers) (hs : .symbol s ∉ closers) : k ≠ .symbol s := by
    rintro rfl
    exact hs hk
  obtain ⟨previous, rest⟩ := c
  match rest with
  | [] =>
    have hstop (c : Cursor) (hc : c.peek.kind ∈ closers) := hno c (.inl (hne hc (by decide)))
    exact .stops (F := (· ∈ closers)) (by decide) hmore hstop hstop
  | [t] =>
    have hnext : (Cursor.extend ⟨previous, [t]⟩ more).peekNth 1 = more.headD .pastEnd := by
      cases more <;> rfl
    intro a d ha
    rw [hno ⟨previous, [t]⟩ (.inr (show Kind.eof ≠ _ from nofun))] at ha
    cases ha
    rw [Meets, hno _ (.inr (by rw [hnext]; exact hne hmore (by decide)))]
    exact ⟨rfl, rfl⟩
  | t :: u :: ts =>
    show Extends more (if t.kind = .symbol .leftBracket ∧ u.kind = .symbol .rightBracket then _ else _)
      (if t.kind = .symbol .leftBracket ∧ u.kind = .symbol .rightBracket then _ else _) _
    refine .ite (fun _ => Extends.advance.bind fun _ d hd => ?_) fun _ => .pure
    cases hd
    exact Extends.advance.bind fun _ _ _ => .pure

theorem extends_optionalType (c : Cursor) : Extends more optionalType optionalType c := by
  have htype (c : Cursor) : Extends more typeName typeName c := by
    refine Extends.of_progress fun t ts hrest => ?_
    obtain ⟨previous, rest⟩ := c
    subst hrest
    rw [typeName_eq]
    refine Extends.position ((Extends.expect (by decide)).bind fun _ _ _ => ?_)
    exact (Extends.many (extends_brackets hmore)).bind fun _ _ _ => Extends.spanFrom.bind fun _ _ _ => .pure
  refine (Extends.accept hmore (by decide) c).bind fun b d _ => ?_
  exact .ite (fun _ => (htype d).bind fun _ _ _ => .pure) fun _ => .pure

omit hmore in
theorem extends_identifier {context context' : Context} (c : Cursor) :
    Extends more (identifier context) (identifier context') c :=
  (Extends.expect (by decide)).bind fun _ _ _ => .pure

theorem extends_bindingRest (n m : Nat) (id : Ident) (type : Option Ident) (c : Cursor) :
    Extends more (bindingRest (level n) id type) (bindingRest (level m) id type) c := by
  have hrest (value : Option Expr) (c : Cursor) : Extends more
      (do return ⟨id, type, value, ← spanFrom id.span.start⟩ : Parser Binding)
      (do return ⟨id, type, value, ← spanFrom id.span.start⟩) c := Extends.spanFrom.bind fun _ _ _ => .pure
  refine (Extends.accept hmore (by decide) c).bind fun b d _ => ?_
  exact .ite (fun _ => (extends_expression hmore n m d).bind fun e d _ => hrest (some e) d) fun _ => hrest none d

/-- The rest of a declaration. -/
theorem extends_bindings (n m : Nat) {context context' : Context} (id : Ident) (type : Option Ident) (c : Cursor) :
    Extends more (bindings (level n) context id type) (bindings (level m) context' id type) c := by
  have := reads_level n
  have hbinding (c : Cursor) : Extends more (binding (level n) context) (binding (level m) context') c := by
    refine (extends_identifier c).bind fun id d _ => (extends_optionalType hmore d).bind fun type d _ => ?_
    exact extends_bindingRest hmore n m id type d
  have hnext (c : Cursor) : Extends more
      (do if ← accept (.symbol .comma) then return some (← binding (level n) context) else return none)
      (do if ← accept (.symbol .comma) then return some (← binding (level m) context') else return none) c := by
    refine (Extends.accept hmore (by decide) c).bind fun b d _ => ?_
    exact .ite (fun _ => (hbinding d).bind fun _ _ _ => .pure) fun _ => .pure
  refine (extends_bindingRest hmore n m id type c).bind fun first d _ => ?_
  exact (Extends.many hnext).bind fun _ _ _ => .pure

end Whole

/-! ## Whatever stands before -/

/-- The reader fails from the place. -/
def Parser.Refuses (p : Parser α) (c : Cursor) : Prop := ∀ a d, p c ≠ .ok a d

theorem Parser.Refuses.bind {p : Parser α} (h : p.Refuses c) {f : α → Parser β} : (p >>= f).Refuses c := by
  intro b d hb
  obtain ⟨a, d', ha, -⟩ := ok_of_bind hb
  exact h a d' ha

namespace Grammar

theorem fresh_expression (n : Nat) : Fresh (level n).expression := by
  have hchain {op? : Kind → Option BinaryOp} {operand : Parser Expr} (h : Fresh operand) :
      Fresh (leftChain op? operand) :=
    h.bind
  cases n with
  | zero => rintro previous previous' t ts e d ⟨⟩
  | succ n =>
    have hpower : Fresh (exponent (level n)) := fresh_unary.bind
    have hsum : Fresh (shift (level n)) := hchain (hchain (hchain hpower))
    have hbits : Fresh (bitwiseOr (level n)) := hchain (hchain (hchain (hchain hsum)))
    have hor : Fresh (logicalOr (level n)) := hchain (hchain hbits)
    exact hor.bind

variable {inner : Inner} {context : Context}

theorem fresh_blockIn : Fresh (blockIn inner context) := .position fun _ => .bind .expect

/-- The context of a block shows in errors only. -/
theorem blockIn_context {context' : Context} {d : Cursor} {b : Block} (h : blockIn inner context c = .ok b d) :
    blockIn inner context' c = .ok b d := by
  obtain ⟨start, c', hstart, h⟩ := ok_of_bind h
  obtain ⟨t, c'', ht, h⟩ := ok_of_bind h
  have ht : (expectSymbol .leftBrace context' : Parser Token) c' = .ok t c'' := by
    change (if _ then _ else _ : Parser Token) c' = _ at ht
    show (if _ then _ else _ : Parser Token) c' = _
    split at ht
    · rw [if_pos ‹_›]
      exact ht
    · cases ht
  exact (bind_ok hstart _).trans ((bind_ok ht _).trans h)

theorem opensOperand_of_simple? {t : Token} {e : Expr} (h : simple? t = some e) : t.kind.opensOperand = true := by
  unfold simple? at h
  split at h <;> simp_all [Kind.opensOperand]

/-- An operand begins with an operator or with what begins operands. -/
theorem refuses_unary (hk : c.peek.kind.opensExpr = false) : (unary inner).Refuses c := by
  obtain ⟨⟨hopens, hunary⟩, hupdate⟩ : (c.peek.kind.opensOperand = false ∧ unaryOp? c.peek.kind = none) ∧
      updateOp? c.peek.kind = none := by simpa [Kind.opensExpr] using hk
  have hnew : c.peek.kind ≠ .keyword .novo := fun h => by
    rw [h] at hopens
    cases hopens
  intro e d h
  have hpost : postfixed inner c = .ok e d := by
    obtain ⟨start, c', hstart, h⟩ := ok_of_bind h
    cases hstart
    rwa [kind_bind, kind_bind, hupdate, hunary] at h
  obtain ⟨_, _, hcall, -⟩ := ok_of_bind hpost
  obtain ⟨_, _, hprimary, -⟩ := ok_of_bind hcall
  obtain ⟨starts, c', hstarts, hatom⟩ := ok_of_bind hprimary
  have hnone : Meets (many newWord) c fun starts c' => c' = c :=
    Meets.many_none (.ite_neg (fun h => hnew (beq_iff_eq.mp h)) (.pure ⟨rfl, rfl⟩))
  rw [Meets, hstarts] at hnone
  subst hnone
  obtain ⟨_, _, hatom, -⟩ := ok_of_bind hatom
  obtain ⟨t, d, hpeek, hatom⟩ := ok_of_bind hatom
  cases hpeek
  cases hsimple : simple? c'.peek with
  | some e =>
    rw [opensOperand_of_simple? hsimple] at hopens
    cases hopens
  | none =>
    simp only [hsimple] at hatom
    generalize c'.peek.kind = k at hatom hopens
    split at hatom
    · cases hopens
    · cases hopens
    · cases hopens
    · cases hopens
    · cases hatom

theorem refuses_expression (n : Nat) (hk : c.peek.kind.opensExpr = false) : (level n).expression.Refuses c := by
  have hchain {op? : Kind → Option BinaryOp} {operand : Parser Expr} (h : operand.Refuses c) :
      (leftChain op? operand).Refuses c := h.bind
  cases n with
  | zero => rintro e d ⟨⟩
  | succ n =>
    have hpower : (exponent (level n)).Refuses c := (refuses_unary hk).bind
    have hsum : (shift (level n)).Refuses c := hchain (hchain (hchain hpower))
    have hbits : (bitwiseOr (level n)).Refuses c := hchain (hchain (hchain (hchain hsum)))
    have hor : (logicalOr (level n)).Refuses c := hchain (hchain hbits)
    exact hor.bind

end Grammar

/-! ## Runs of tokens -/

/-- Tokens that a reader reads to the last one. -/
structure TokenRun (p : Parser α) where
  tokens : List Token
  value : α
  reads : ∃ c, p (.ofTokens tokens) = .ok value c ∧ c.rest = []

/-- The run of some tokens, if they are one. -/
def TokenRun.of? (p : Parser α) (tokens : List Token) : Option (TokenRun p) :=
  match h : p (.ofTokens tokens) with
  | .ok value c => if hc : c.rest = [] then some ⟨tokens, value, c, h, hc⟩ else none
  | .error .. => none

/-- Before more tokens that leave it as it is, and behind any others, a run is read to the same value. -/
theorem TokenRun.meets {p p' : Parser α} [hp : Progress p] (r : TokenRun p) (hfresh : p.Fresh) {more : List Token}
    (hext : ∀ c, Extends more p p' c) {previous : Option Token} {Q : α → Cursor → Prop}
    (hq : ∀ previous, Q r.value ⟨previous, more⟩) : Meets p' ⟨previous, r.tokens ++ more⟩ Q := by
  obtain ⟨tokens, value, c, hrun, hrest⟩ := r
  have hlt := hp.lt _ _ _ hrun
  cases tokens with
  | nil => exact absurd hlt (Nat.not_lt_zero _)
  | cons t ts =>
    refine (hext ⟨previous, t :: ts⟩ value c (hfresh none previous t ts value c hrun)).mono fun a d h => ?_
    rw [h.1, h.2, Cursor.extend, hrest, List.nil_append]
    exact hq c.previous

theorem firstKind_append {ts : List Token} (h : firstKind ts ≠ .eof) (more : List Token) :
    firstKind (ts ++ more) = firstKind ts := by
  cases ts with
  | nil => exact absurd rfl h
  | cons => rfl

/-- A run of an expression. -/
abbrev ExprRun : Type := TokenRun outermost.expression

/-- A run of a block. -/
abbrev BlockRun : Type := TokenRun (block outermost)

/-- A token of a kind. -/
abbrev TokenOf (k : Kind) : Type := { t : Token // t.kind = k }

theorem TokenOf.firstKind (t : TokenOf k) (ts : List Token) : firstKind (t.1 :: ts) = k := t.2

namespace ExprRun

variable (e : ExprRun) {more : List Token} {previous : Option Token}

theorem meets (hmore : firstKind more ∈ closers) (n : Nat) {Q : Expr → Cursor → Prop}
    (hq : ∀ previous, Q e.value ⟨previous, more⟩) : Meets (level n).expression ⟨previous, e.tokens ++ more⟩ Q := by
  have : Progress outermost.expression := (reads_level maxDepth).expression
  exact TokenRun.meets e (fresh_expression maxDepth) (extends_expression hmore maxDepth n) hq

theorem opensExpr : (firstKind e.tokens).opensExpr = true := by
  obtain ⟨c, hrun, -⟩ := e.reads
  cases hk : (firstKind e.tokens).opensExpr with
  | true => rfl
  | false => exact absurd hrun (refuses_expression maxDepth (c := .ofTokens e.tokens) hk e.value c)

theorem kind_ne (hk : k.opensExpr = false) : firstKind e.tokens ≠ k := by
  rintro rfl
  rw [e.opensExpr] at hk
  cases hk

theorem kind_append (more : List Token) : firstKind (e.tokens ++ more) = firstKind e.tokens :=
  firstKind_append (e.kind_ne (by decide)) more

end ExprRun

namespace BlockRun

variable (b : BlockRun) {more : List Token} {previous : Option Token}

theorem kind : firstKind b.tokens = .symbol .leftBrace := by
  obtain ⟨c, hrun, -⟩ := b.reads
  obtain ⟨start, c', hstart, hrun⟩ := ok_of_bind hrun
  obtain ⟨t, c'', ht, -⟩ := ok_of_bind hrun
  cases hstart
  change (if _ then _ else _ : Parser Token) _ = _ at ht
  split at ht
  · rename_i hk
    exact List.mem_singleton.mp (List.contains_iff_mem.mp hk)
  · cases ht

theorem kind_append (more : List Token) : firstKind (b.tokens ++ more) = .symbol .leftBrace :=
  (firstKind_append (by rw [b.kind]; nofun) more).trans b.kind

theorem meets (hmore : firstKind more ∈ closers) (n : Nat) (context : Context) {Q : Block → Cursor → Prop}
    (hq : ∀ previous, Q b.value ⟨previous, more⟩) :
    Meets (blockIn (level n) context) ⟨previous, b.tokens ++ more⟩ Q := by
  have := reads_level maxDepth
  obtain ⟨tokens, value, c, hrun, hrest⟩ := b
  let b' : TokenRun (blockIn outermost context) := ⟨tokens, value, c, blockIn_context hrun, hrest⟩
  have hp : Progress (blockIn outermost context) := inferInstanceAs (Progress (blockIn (level maxDepth) context))
  refine TokenRun.meets b' fresh_blockIn (fun c => ?_) hq
  exact extends_blockIn (fences_of_mem_closers hmore) (agree_extension (fences_of_mem_closers hmore) maxDepth n)

/-- A block is a statement. -/
theorem meets_statement (hmore : firstKind more ∈ closers) (n : Nat) {Q : Stmt → Cursor → Prop}
    (hq : ∀ previous, Q (.block b.value) ⟨previous, more⟩) :
    Meets (level n).statement ⟨previous, b.tokens ++ more⟩ Q := by
  cases n with
  | zero => exact .tooDeep
  | succ n =>
    refine .kindAhead ?_
    rw [show (Cursor.peek ⟨previous, b.tokens ++ more⟩).kind = _ from b.kind_append more]
    exact .bind (b.meets hmore n .block fun previous => .pure (hq previous))

end BlockRun

end Vernacular
