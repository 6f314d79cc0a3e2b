import Vernacular.Proofs.Grammar.Classes

/-!
# Readers move forward

No reader goes back (`Parser.Forward`), and the readers of whole parts of a program read at least one token where they
succeed (`Parser.Progress`). The item of a repetition may read nothing only to end it (`Parser.Moving`). The three are
classes, so that they are found from the way in which readers are put together; only where a reader branches on what it
has seen does the proof follow the branches.

- `Parser.Forward.bind`, `Parser.Progress.bind`, `Parser.Forward.bindProgress`: steps that follow one another;
- `Grammar.reads_level`: the productions, however deep they may nest.
-/

namespace Vernacular

open Grammar

variable {α β : Type}
variable {c d : Cursor}

namespace Parser

/-- Where a run of a reader ended. -/
def endOf : EStateM.Result SyntaxError Cursor α → Cursor
  | .ok _ c | .error _ c => c

/-- Whether it succeeds or fails, the reader leaves no more tokens than there were. -/
class Forward (p : Parser α) : Prop where
  le : ∀ c, (endOf (p c)).rest.length ≤ c.rest.length

/-- Where it succeeds, the reader has read a token. -/
class Progress (p : Parser α) : Prop extends Forward p where
  lt : ∀ c a d, p c = .ok a d → d.rest.length < c.rest.length

/-- Where it finds an item, the reader has read a token. -/
class Moving (item : Parser (Option α)) : Prop where
  lt : ∀ c a d, item c = .ok (some a) d → d.rest.length < c.rest.length

theorem Forward.of_ok {p : Parser α} (h : Forward p) {a : α} (hp : p c = .ok a d) : d.rest.length ≤ c.rest.length := by
  have hle := h.le c
  rw [hp] at hle
  exact hle

/-! ## Steps -/

/-- A step that succeeds hands its result and its place on. -/
theorem bind_ok {p : Parser α} {a : α} (h : p c = .ok a d) (f : α → Parser β) : (p >>= f) c = f a d := by
  simp only [Bind.bind, EStateM.bind, h]

/-- A step that fails is the last. -/
theorem bind_error {p : Parser α} {e : SyntaxError} (h : p c = .error e d) (f : α → Parser β) :
    (p >>= f) c = .error e d := by
  simp only [Bind.bind, EStateM.bind, h]

/-- Where two steps succeed, both do. -/
theorem ok_of_bind {p : Parser α} {f : α → Parser β} {b : β} (h : (p >>= f) c = .ok b d) :
    ∃ a c', p c = .ok a c' ∧ f a c' = .ok b d := by
  cases hp : p c with
  | ok a c' => exact ⟨a, c', rfl, (bind_ok hp f).symm.trans h⟩
  | error e c' => rw [bind_error hp f] at h; cases h

section Steps

variable {p : Parser α} {f : α → Parser β}

theorem Forward.bind (hp : Forward p) (hf : ∀ a, Forward (f a)) : Forward (p >>= f) := by
  refine ⟨fun c => ?_⟩
  have hle := hp.le c
  cases h : p c with
  | ok a d =>
    rw [h] at hle
    rw [bind_ok h]
    exact Nat.le_trans ((hf a).le d) hle
  | error e d =>
    rw [h] at hle
    rw [bind_error h]
    exact hle

theorem Progress.bind (hp : Progress p) (hf : ∀ a, Forward (f a)) :
    Progress (p >>= f) where
  toForward := hp.toForward.bind hf
  lt c b d h := by
    obtain ⟨a, c', h, h'⟩ := ok_of_bind h
    exact Nat.lt_of_le_of_lt ((hf a).of_ok h') (hp.lt c a c' h)

theorem Forward.bindProgress (hp : Forward p) (hf : ∀ a, Progress (f a)) :
    Progress (p >>= f) where
  toForward := hp.bind fun a => (hf a).toForward
  lt c b d h := by
    obtain ⟨a, c', h, h'⟩ := ok_of_bind h
    exact Nat.lt_of_lt_of_le ((hf a).lt c' b d h') (hp.of_ok h)

theorem Forward.bindMoving {f : α → Parser (Option β)} (hp : Forward p) (hf : ∀ a, Moving (f a)) :
    Moving (p >>= f) where
  lt c b d h := by
    obtain ⟨a, c', h, h'⟩ := ok_of_bind h
    exact Nat.lt_of_lt_of_le ((hf a).lt c' b d h') (hp.of_ok h)

instance [hp : Forward p] [hf : ∀ a, Forward (f a)] : Forward (p >>= f) := hp.bind hf

instance [hp : Progress p] [hf : ∀ a, Forward (f a)] : Progress (p >>= f) := hp.bind hf

instance [hp : Forward p] [hf : ∀ a, Progress (f a)] : Progress (p >>= f) := hp.bindProgress hf

instance {f : α → Parser (Option β)} [hp : Forward p] [hf : ∀ a, Moving (f a)] : Moving (p >>= f) := hp.bindMoving hf

instance {a : α} : Forward (pure a) := ⟨fun _ => Nat.le_refl _⟩

instance : Moving (pure none : Parser (Option α)) := ⟨by rintro c a d ⟨⟩⟩

instance {item : Parser (Option α)} [h : Progress item] : Moving item := ⟨fun c a d => h.lt c (some a) d⟩

instance {e : SyntaxError} : Progress (throw e : Parser α) where
  le _ := Nat.le_refl _
  lt := by rintro c a d ⟨⟩

instance {b : Prop} [Decidable b] {p q : Parser α} [hp : Forward p] [hq : Forward q] :
    Forward (if b then p else q) := by
  split
  · exact hp
  · exact hq

instance {b : Prop} [Decidable b] {p q : Parser α} [hp : Progress p] [hq : Progress q] :
    Progress (if b then p else q) := by
  split
  · exact hp
  · exact hq

instance {b : Prop} [Decidable b] {p q : Parser (Option α)} [hp : Moving p] [hq : Moving q] :
    Moving (if b then p else q) := by
  split
  · exact hp
  · exact hq

end Steps

/-! ## Readers of single tokens -/

instance : Forward get := ⟨fun _ => Nat.le_refl _⟩

instance : Forward peek := inferInstanceAs (Forward (get >>= fun c => pure c.peek))

instance : Forward kind := inferInstanceAs (Forward (get >>= fun c => pure c.peek.kind))

instance : Forward position := inferInstanceAs (Forward (get >>= fun c => pure c.peek.start))

instance {k : Kind} : Forward (check k) := inferInstanceAs (Forward (kind >>= fun k' => pure (k' == k)))

instance : Forward atEnd := inferInstanceAs (Forward (check .eof))

instance : Forward onNewLine := inferInstanceAs (Forward (get >>= fun c => pure c.onNewLine))

instance {start : Position} : Forward (spanFrom start) :=
  inferInstanceAs (Forward (get >>= fun c => pure (c.spanFrom start)))

instance : Forward advance where
  le c := by
    show c.advance.2.rest.length ≤ c.rest.length
    rw [Cursor.advance_rest, List.length_tail]
    exact Nat.sub_le _ _

instance {k : Kind} : Forward (accept k) := by
  unfold accept
  infer_instance

instance {expected : List String} {context : Context} : Progress (fail expected context : Parser α) := by
  unfold fail
  infer_instance

instance {context : Context} : Progress (tooDeep context : Parser α) := by
  unfold tooDeep
  infer_instance

instance {allowed : List Kind} {context : Context} : Forward (expect allowed context) := by
  unfold expect
  infer_instance

theorem Progress.expect {allowed : List Kind} {context : Context} (h : .eof ∉ allowed) :
    Progress (expect allowed context) where
  lt c t d hr := by
    refine Ensures.expect (P := (· = c)) (Q := fun _ d => d.rest.length < c.rest.length) ?_ c t d rfl hr
    rintro _ rfl hk
    exact Cursor.advance_rest_lt fun he => h (he ▸ hk)

instance {k : Keyword} {context : Context} : Progress (expect [.keyword k] context) := .expect (by simp)

instance {s : Symbol} {context : Context} : Progress (expectSymbol s context) := .expect (by simp)

instance {context : Context} : Progress (expect classKinds context) := .expect (by simp [classKinds])

instance {context : Context} : Progress (identifier context) := by
  have : Progress (expect [.identifier] context) := .expect (by simp)
  unfold identifier
  infer_instance

instance {context : Context} : Progress (propertyWord context) where
  toForward := by
    unfold propertyWord
    infer_instance
  lt c t d hr := by
    refine Ensures.propertyWord (P := (· = c)) (Q := fun _ d => d.rest.length < c.rest.length) ?_ c t d rfl hr
    rintro _ rfl hk
    exact Cursor.advance_rest_lt fun he => by rw [he] at hk; cases hk

/-! ## Repetition -/

instance {item : Parser (Option α)} [h : Forward item] {budget : List Token} : Forward (manyWithin item budget) := by
  induction budget with
  | nil => exact h.bind fun o => by cases o <;> infer_instance
  | cons t budget ih => exact h.bind fun o => by cases o <;> infer_instance

instance {item : Parser (Option α)} [Forward item] : Forward (many item) := by
  unfold many
  infer_instance

/-- What follows an accepted token is an item; else there is none. -/
instance {s : Symbol} {p : Parser (Option α)} [hp : Forward p] :
    Moving (accept (.symbol s) >>= fun b => if b = true then p else pure none) where
  lt c a d h := by
    obtain ⟨b, c', hb, h⟩ := ok_of_bind h
    have hread : b = true → c'.rest.length < c.rest.length := by
      refine Ensures.accept (P := (· = c))
        (Q := fun b d => b = true → d.rest.length < c.rest.length) ?_ ?_ c b c' rfl hb
      · rintro _ rfl hk -
        exact Cursor.advance_rest_lt (by rw [hk]; nofun)
      · rintro _ rfl - ⟨⟩
    cases b with
    | true => exact Nat.lt_of_le_of_lt (hp.of_ok h) (hread rfl)
    | false => cases h

instance {closing : Symbol} {item : Parser α} [Forward item] : Forward (commaList closing item) := by
  unfold commaList
  infer_instance

instance {item : Parser α} [Forward item] : Forward (afterCommas item) := by
  unfold afterCommas
  infer_instance

instance : Forward skipSemicolons := by
  unfold skipSemicolons
  infer_instance

/-- One pair of brackets behind the name of a type. -/
def brackets : Parser (Option String) := do
  let c ← get
  if c.peek.kind = .symbol .leftBracket ∧ (c.peekNth 1).kind = .symbol .rightBracket then
    let _ ← advance
    let _ ← advance
    return some "[]"
  else return none

theorem typeName_eq : typeName = (do
    let start ← position
    let t ← expect typeKinds .typeName
    let lists ← many brackets
    return ⟨lists.foldl (· ++ ·) t.text, ← spanFrom start⟩) := rfl

instance : Forward brackets := by
  unfold brackets
  infer_instance

instance : Moving brackets where
  lt c a d h := by
    obtain ⟨c', d', hget, h⟩ := ok_of_bind h
    cases hget
    split at h
    · rename_i hk
      obtain ⟨t, d', hadvance, h⟩ := ok_of_bind h
      cases hadvance
      have hlt := Cursor.advance_rest_lt (c := c) (by rw [hk.1]; nofun)
      have hle : Forward (advance >>= fun _ => pure (some "[]")) := inferInstance
      exact Nat.lt_of_le_of_lt (hle.of_ok h) hlt
    · cases h

instance : Progress typeName := by
  have : Progress (expect typeKinds .typeName) := .expect (by simp [typeKinds])
  rw [typeName_eq]
  infer_instance

instance : Forward optionalType := by
  unfold optionalType
  infer_instance

end Parser

open Vernacular.Parser

/-- The productions one level further in read at least one token. -/
class Inner.Reads (inner : Inner) : Prop where
  expression : Progress inner.expression
  exponent : Progress inner.exponent
  unary : Progress inner.unary
  statement : Progress inner.statement

namespace Grammar

section Productions

-- a production is one instance problem, of as many steps as it has
set_option synthInstance.maxSize 1000

variable {inner : Inner}

instance [h : inner.Reads] : Progress inner.expression := h.expression

instance [h : inner.Reads] : Progress inner.exponent := h.exponent

instance [h : inner.Reads] : Progress inner.unary := h.unary

instance [h : inner.Reads] : Progress inner.statement := h.statement

variable [inner.Reads]

/-! ## Blocks and callables -/

instance {id : Ident} {type : Option Ident} : Forward (bindingRest inner id type) := by
  unfold bindingRest
  infer_instance

instance {context : Context} : Progress (binding inner context) := by
  unfold binding
  infer_instance

instance {context : Context} {id : Ident} {type : Option Ident} : Forward (bindings inner context id type) := by
  unfold bindings
  infer_instance

instance : Progress (parameters inner) := by
  unfold parameters
  infer_instance

/-- An item of a list that a brace ends. -/
def separatedItem (item : Parser α) : Parser (Option α) := do
  if (← check (.symbol .rightBrace)) || (← atEnd) then return none
  let a ← item
  skipSemicolons
  return some a

instance {item : Parser α} [Forward item] : Forward (separatedItem item) := by
  unfold separatedItem
  infer_instance

instance {item : Parser α} [Progress item] : Moving (separatedItem item) := by
  unfold separatedItem
  infer_instance

instance {item : Parser α} [Forward item] : Forward (separated item) :=
  inferInstanceAs (Forward (skipSemicolons >>= fun _ => many (separatedItem item)))

instance {context : Context} : Progress (blockIn inner context) := by
  unfold blockIn
  infer_instance

instance : Progress (block inner) := by
  unfold block
  infer_instance

instance {name : Option Ident} {start : Position} {isAbstract : Bool} :
    Progress (callableRest inner name start isAbstract) := by
  unfold callableRest
  infer_instance

/-! ## Expressions -/

instance {e : Expr} : Forward (assignable e) := by
  unfold assignable
  infer_instance

instance : Progress (arguments inner) := by
  unfold arguments
  infer_instance

instance : Progress (arrayLiteral inner) := by
  unfold arrayLiteral
  infer_instance

instance : Progress (property inner) := by
  unfold property
  refine Forward.bindProgress inferInstance fun start => Forward.bindProgress inferInstance fun t => ?_
  split <;> infer_instance

instance : Progress (objectLiteral inner) := by
  unfold objectLiteral
  infer_instance

instance : Progress (functionExpression inner) := by
  unfold functionExpression
  infer_instance

instance : Progress (parenthesized inner) := by
  unfold parenthesized
  infer_instance

/-- A token that stands for an expression is not the end. -/
theorem kind_ne_eof_of_simple? {t : Token} {e : Expr} (h : simple? t = some e) : t.kind ≠ .eof := by
  intro hk
  rw [simple?, hk] at h
  cases h

instance : Progress (atom inner) where
  toForward := by
    unfold atom
    refine Forward.bind inferInstance fun t => ?_
    split
    · infer_instance
    · split <;> infer_instance
  lt c e d h := by
    obtain ⟨t, c', ht, h⟩ := ok_of_bind h
    cases ht
    cases hsimple : simple? c.peek with
    | some e' =>
      simp only [hsimple] at h
      cases h
      exact Cursor.advance_rest_lt (kind_ne_eof_of_simple? hsimple)
    | none =>
      simp only [hsimple] at h
      generalize c.peek.kind = k at h
      split at h <;> exact Progress.lt c e d h

instance {context : Context} : Progress (propertyName context) := by
  unfold propertyName
  infer_instance

instance : Progress (computedKey inner) := by
  unfold computedKey
  infer_instance

instance {l : Link} : Forward (ended l) := by
  unfold ended
  infer_instance

instance : Forward (propertyLink inner) := by
  unfold propertyLink
  refine Forward.bind inferInstance fun k => ?_
  split <;> infer_instance

instance : Moving (propertyLink inner) := by
  unfold propertyLink
  refine Forward.bindMoving inferInstance fun k => ?_
  split <;> infer_instance

instance : Forward (link inner) := by
  unfold link
  refine Forward.bind inferInstance fun k => ?_
  split
  · infer_instance
  · refine Forward.bind inferInstance fun _ => Forward.bind inferInstance fun k => ?_
    split <;> infer_instance
  · infer_instance

instance : Moving (link inner) := by
  unfold link
  refine Forward.bindMoving inferInstance fun k => ?_
  split
  · infer_instance
  · refine Forward.bindMoving inferInstance fun _ => Forward.bindMoving inferInstance fun k => ?_
    split <;> infer_instance
  · infer_instance

instance : Forward newWord := by
  unfold newWord
  infer_instance

instance : Moving newWord where
  lt c a d h := by
    obtain ⟨b, c', hb, h⟩ := ok_of_bind h
    cases hb
    split at h
    · rename_i hk
      cases h
      exact Cursor.advance_rest_lt (by rw [eq_of_beq hk]; nofun)
    · cases h

instance {starts : List Position} {e : Expr} : Forward (constructions inner starts e) := by
  induction starts generalizing e with
  | nil =>
    unfold constructions
    infer_instance
  | cons start starts ih =>
    unfold constructions
    infer_instance

instance : Progress (primary inner) := by
  unfold primary
  infer_instance

instance : Progress (call inner) := by
  unfold call
  infer_instance

instance : Progress (postfixed inner) := by
  unfold postfixed
  refine .bind inferInstance fun e => Forward.bind inferInstance fun k => ?_
  split <;> infer_instance

instance : Progress (unary inner) := by
  unfold unary
  refine Forward.bindProgress inferInstance fun start => Forward.bindProgress inferInstance fun k =>
    Forward.bindProgress inferInstance fun k' => ?_
  split <;> infer_instance

instance : Progress (exponent inner) := by
  unfold exponent
  infer_instance

instance {op? : Kind → Option BinaryOp} {operand : Parser Expr} [Progress operand] :
    Forward (chainItem op? operand) := by
  unfold chainItem
  refine Forward.bind inferInstance fun k => ?_
  split <;> infer_instance

instance {op? : Kind → Option BinaryOp} {operand : Parser Expr} [Progress operand] :
    Moving (chainItem op? operand) := by
  unfold chainItem
  refine Forward.bindMoving inferInstance fun k => ?_
  split <;> infer_instance

theorem leftChain_eq (op? : Kind → Option BinaryOp) (operand : Parser Expr) : leftChain op? operand = (do
    let first ← operand
    let others ← many (chainItem op? operand)
    return others.foldl Expr.join first) := rfl

instance {op? : Kind → Option BinaryOp} {operand : Parser Expr} [Progress operand] :
    Progress (leftChain op? operand) := by
  rw [leftChain_eq]
  infer_instance

instance : Progress (logicalOr inner) := by
  unfold logicalOr logicalAnd bitwiseOr bitwiseAnd equality relational shift additive multiplicative
  infer_instance

instance : Progress (assignment inner) := by
  unfold assignment
  refine .bind inferInstance fun e => Forward.bind inferInstance fun k => ?_
  split <;> infer_instance

/-! ## Classes -/

theorem qualifiedName_eq : qualifiedName = (do
    let t ← expect classKinds .classDeclaration
    let links ← many qualifier
    return links.foldl Link.apply (.ident t.text t.span)) := rfl

instance : Forward qualifier := by
  unfold qualifier
  infer_instance

instance : Moving qualifier := by
  unfold qualifier
  infer_instance

instance : Progress qualifiedName := by
  rw [qualifiedName_eq]
  infer_instance

instance : Forward decorator := by
  unfold decorator
  infer_instance

instance : Moving decorator := by
  unfold decorator
  infer_instance

instance : Forward modifier := by
  unfold modifier
  infer_instance

instance : Moving modifier where
  lt c a d h := by
    obtain ⟨k, c', hk, h⟩ := ok_of_bind h
    cases hk
    split at h
    · rename_i hk
      cases h
      exact Cursor.advance_rest_lt fun he => by rw [he] at hk; cases hk
    · cases h

instance {name : PropertyName} {kind : MethodKind} {modifiers : Modifiers} {decorators : List Ident}
    {start : Position} : Progress (method inner name kind modifiers decorators start) := by
  unfold method
  infer_instance

instance {name : PropertyName} {modifiers : Modifiers} {decorators : List Ident} {start : Position} :
    Forward (field inner name modifiers decorators start) := by
  unfold field
  infer_instance

instance : Progress (member inner) := by
  unfold member
  refine Forward.bindProgress inferInstance fun start => Forward.bindProgress inferInstance fun decorators =>
    Forward.bindProgress inferInstance fun modifiers => Forward.bindProgress inferInstance fun b => ?_
  dsimp only
  split
  · infer_instance
  · refine Forward.bindProgress inferInstance fun c => Forward.bindProgress inferInstance fun k => ?_
    split <;> infer_instance

instance : Forward interfaces := by
  unfold interfaces
  infer_instance

instance : Progress (classDeclaration inner) := by
  unfold classDeclaration
  infer_instance

/-! ## Statements -/

instance : Progress variableKind := by
  have : Progress (expect [.keyword .variavel, .keyword .constante] .variableDeclaration) := .expect (by simp)
  unfold variableKind
  infer_instance

instance : Progress (variableDeclaration inner) := by
  unfold variableDeclaration
  infer_instance

instance : Progress (variablesStatement inner) := by
  unfold variablesStatement
  infer_instance

instance : Progress (functionDeclaration inner) := by
  unfold functionDeclaration
  infer_instance

instance {context : Context} : Progress (condition inner context) := by
  unfold condition
  infer_instance

instance : Progress (ifStatement inner) := by
  unfold ifStatement
  infer_instance

instance : Progress (whileStatement inner) := by
  unfold whileStatement
  infer_instance

instance {closing : Kind} : Forward (optionalExpression inner closing) := by
  unfold optionalExpression
  infer_instance

instance {start : Position} {inParens : Bool} {kind : VariableKind} {id : Ident} {type : Option Ident} :
    Progress (forEachRest inner start inParens kind id type) := by
  unfold forEachRest
  infer_instance

instance {start : Position} {inParens : Bool} {init : Option ForInit} :
    Progress (forLoopRest inner start inParens init) := by
  unfold forLoopRest
  infer_instance

instance : Progress (forStatement inner) := by
  unfold forStatement
  infer_instance

instance : Progress (returnStatement inner) := by
  unfold returnStatement
  infer_instance

instance : Progress (expressionStatement inner) := by
  unfold expressionStatement
  infer_instance

instance : Progress (statement inner) := by
  unfold statement
  refine Forward.bindProgress inferInstance fun k => ?_
  split <;> infer_instance

end Productions

/-! ## Levels -/

instance : Inner.none.Reads where
  expression := inferInstanceAs (Progress (tooDeep .expression))
  exponent := inferInstanceAs (Progress (tooDeep .expression))
  unary := inferInstanceAs (Progress (tooDeep .expression))
  statement := inferInstanceAs (Progress (tooDeep .statement))

instance {inner : Inner} [inner.Reads] : inner.around.Reads where
  expression := inferInstanceAs (Progress (assignment inner))
  exponent := inferInstanceAs (Progress (exponent inner))
  unary := inferInstanceAs (Progress (unary inner))
  statement := inferInstanceAs (Progress (statement inner))

/-- However deep they may nest, the productions read at least one token. -/
instance reads_level (n : Nat) : (level n).Reads := by
  induction n with
  | zero => exact inferInstanceAs Inner.none.Reads
  | succ n ih => exact inferInstanceAs (level n).around.Reads

/-- A statement of a program, with what separates it from the next. -/
def programItem (inner : Inner) : Parser (Option Stmt) := do
  if ← atEnd then return none
  if (← check (.symbol .rightBrace)) || (← check (.symbol .rightParen)) then fail ["statement"] .topLevel
  let s ← inner.statement
  skipSemicolons
  return some s

instance {inner : Inner} [inner.Reads] : Moving (programItem inner) := by
  unfold programItem
  infer_instance

end Grammar

end Vernacular
