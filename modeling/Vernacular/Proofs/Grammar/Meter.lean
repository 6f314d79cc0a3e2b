import Vernacular.Proofs.Grammar.Forward
import Mathlib.Logic.Relation

/-!
# Counting the open levels

A `Metered` reader keeps account of how many levels are open and of the most that ever were. It reads by the same
productions as a `Parser`, but what stands one level further in is no table of levels to go: a level is opened around it
where the account allows (`Metered.nested`), and closed however the reading ends.

The two come to the same (`Metered.Tracks`): from the same place they end at the same place with the same result, and
the account then shows as many open levels as before. As in `Vernacular.Proofs.Grammar.Forward` this is a class, found
from the way in which readers are put together.

- `Metered.Tracks.nested`, `Metered.Tracks.full`: a level that may be opened, and one that may not;
- `Grammar.tracks_level`: the productions, however deep in they begin.
-/

namespace Vernacular

open Grammar Vernacular.Parser

variable {α β : Type}

/-- A place in a list of tokens, and an account of the levels around it. -/
structure Gauge where
  cursor : Cursor
  /-- How many levels are open. -/
  depth : Nat
  /-- The most levels that were ever open. -/
  peak : Nat

namespace Gauge

/-- The place before the first token, with no level open. -/
def start (ts : List Token) : Gauge := ⟨.ofTokens ts, 0, 0⟩

/-- One level further in. -/
def deeper (g : Gauge) : Gauge := ⟨g.cursor, g.depth + 1, max g.peak (g.depth + 1)⟩

/-- One level further out. -/
def shallower (g : Gauge) : Gauge := { g with depth := g.depth - 1 }

end Gauge

/-- A reader of tokens that keeps account of levels. -/
def Metered (α : Type) : Type := EStateM SyntaxError Gauge α

namespace Metered

instance : Monad Metered := inferInstanceAs (Monad (EStateM SyntaxError Gauge))

instance : MonadExceptOf SyntaxError Metered := inferInstanceAs (MonadExceptOf SyntaxError (EStateM SyntaxError Gauge))

/-- What looks at the place or moves it leaves the account alone. -/
instance : MonadStateOf Cursor Metered where
  get g := .ok g.cursor g
  set c g := .ok ⟨⟩ { g with cursor := c }
  modifyGet f g := .ok (f g.cursor).1 { g with cursor := (f g.cursor).2 }

/-- Opens a level around what `p` reads, if one may be opened, and closes it however `p` ends. -/
def nested (context : Context) (p : Metered α) : Metered α := fun g =>
  if maxDepth ≤ g.depth then (tooDeep context : Metered α) g
  else
    match p g.deeper with
    | .ok a g' => .ok a g'.shallower
    | .error e g' => .error e g'.shallower

/-- The productions with the knot tied `n` times, where only the account limits the levels. -/
def productions : Nat → Productions Metered
  | 0 => ⟨tooDeep .expression, tooDeep .expression, tooDeep .expression, tooDeep .statement⟩
  | n + 1 =>
    let inner := productions n
    { expression := nested .expression (assignment inner)
      exponent := nested .expression (Grammar.exponent inner)
      unary := nested .expression (unary inner)
      statement := nested .statement (statement inner) }

end Metered

/-! ## Places further on -/

/-- The second place is reached from the first by reading tokens. -/
def Cursor.Reaches : Cursor → Cursor → Prop := Relation.ReflTransGen fun c d => d = c.advance.2

namespace Metered

/-- The outcome of a run with `d` levels open and at most `k` ever. -/
def outcome (d k : Nat) : EStateM.Result SyntaxError Cursor α → EStateM.Result SyntaxError Gauge α
  | .ok a c => .ok a ⟨c, d, k⟩
  | .error e c => .error e ⟨c, d, k⟩

/-- With `d` levels open, `q` does what `p` does and closes what it opens, and no more than `maxDepth` are ever open. -/
class Tracks (d : Nat) (p : Parser α) (q : Metered α) : Prop where
  reaches : ∀ c : Cursor, c.Reaches (endOf (p c))
  run : ∀ c k, k ≤ maxDepth → ∃ k', k ≤ k' ∧ k' ≤ maxDepth ∧ q ⟨c, d, k⟩ = outcome d k' (p c)

variable {d : Nat}

/-! ## Steps -/

section Steps

variable {p : Parser α} {q : Metered α} {f : α → Parser β} {f' : α → Metered β}

theorem next_of_ok {g g' : Gauge} {a : α} (h : q g = .ok a g') (f' : α → Metered β) : (q >>= f') g = f' a g' := by
  show EStateM.bind q f' g = _
  simp only [EStateM.bind, h]

theorem next_of_error {g g' : Gauge} {e : SyntaxError} (h : q g = .error e g') (f' : α → Metered β) :
    (q >>= f') g = .error e g' := by
  show EStateM.bind q f' g = _
  simp only [EStateM.bind, h]

/-- A step that leaves the account alone. -/
theorem Tracks.of_eq (hr : ∀ c : Cursor, c.Reaches (endOf (p c))) (hq : ∀ c k, q ⟨c, d, k⟩ = outcome d k (p c)) :
    Tracks d p q where
  reaches := hr
  run c k hk := ⟨k, Nat.le_refl k, hk, hq c k⟩

theorem Tracks.bind (h : Tracks d p q) (hf : ∀ a, Tracks d (f a) (f' a)) : Tracks d (p >>= f) (q >>= f') where
  reaches c := by
    have hreach := h.reaches c
    cases hp : p c with
    | ok a c' =>
      rw [hp] at hreach
      rw [bind_ok hp]
      exact hreach.trans ((hf a).reaches c')
    | error e c' =>
      rw [hp] at hreach
      rw [bind_error hp]
      exact hreach
  run c k hk := by
    obtain ⟨k', hle, hk', hq⟩ := h.run c k hk
    cases hp : p c with
    | ok a c' =>
      obtain ⟨k'', hle', hk'', hf⟩ := (hf a).run c' k' hk'
      refine ⟨k'', Nat.le_trans hle hle', hk'', ?_⟩
      rw [bind_ok hp, ← hf]
      exact next_of_ok (hq.trans (by rw [hp]; rfl)) f'
    | error e c' =>
      refine ⟨k', hle, hk', ?_⟩
      rw [bind_error hp]
      exact next_of_error (hq.trans (by rw [hp]; rfl)) f'

instance [h : Tracks d p q] [hf : ∀ a, Tracks d (f a) (f' a)] : Tracks d (p >>= f) (q >>= f') := h.bind hf

instance {a : α} : Tracks d (pure a) (pure a) := .of_eq (fun _ => .refl) fun _ _ => rfl

instance {e : SyntaxError} : Tracks d (throw e : Parser α) (throw e) := .of_eq (fun _ => .refl) fun _ _ => rfl

instance {b : Prop} [Decidable b] {p p' : Parser α} {q q' : Metered α} [h : Tracks d p q] [h' : Tracks d p' q'] :
    Tracks d (if b then p else p') (if b then q else q') := by
  split
  · exact h
  · exact h'

end Steps

/-! ## Levels that are opened -/

/-- Where a level may be opened, what is read inside it counts one level more. -/
theorem Tracks.nested {p : Parser α} {q : Metered α} {context : Context} (hd : d < maxDepth) (h : Tracks (d + 1) p q) :
    Tracks d p (nested context q) where
  reaches := h.reaches
  run c k hk := by
    have hmax : max k (d + 1) ≤ maxDepth := Nat.max_le.mpr ⟨hk, hd⟩
    obtain ⟨k', hle, hk', hq⟩ := h.run c (max k (d + 1)) hmax
    refine ⟨k', Nat.le_trans (Nat.le_max_left ..) hle, hk', ?_⟩
    have hopen : ¬ maxDepth ≤ d := Nat.not_le.mpr hd
    simp only [Metered.nested, hopen, if_false, Gauge.deeper, hq]
    cases p c <;> rfl

/-- Where no further level may be opened, the reading ends. -/
theorem Tracks.full {q : Metered α} {context : Context} :
    Tracks maxDepth (tooDeep context) (Metered.nested context q) :=
  .of_eq (fun _ => .refl) fun c k => by
    simp only [Metered.nested, Nat.le_refl, if_true]
    rfl

/-! ## Readers of single tokens -/

instance : Tracks d (get : Parser Cursor) (get : Metered Cursor) := .of_eq (fun _ => .refl) fun _ _ => rfl

instance : Tracks d (peek : Parser Token) peek := by
  unfold peek
  infer_instance

instance : Tracks d (kind : Parser Kind) kind := by
  unfold kind
  infer_instance

instance : Tracks d (position : Parser Position) position := by
  unfold position
  infer_instance

instance {k : Kind} : Tracks d (check k : Parser Bool) (check k) := by
  unfold check
  infer_instance

instance : Tracks d (atEnd : Parser Bool) atEnd := by
  unfold atEnd
  infer_instance

instance : Tracks d (onNewLine : Parser Bool) onNewLine := by
  unfold onNewLine
  infer_instance

instance {start : Position} : Tracks d (spanFrom start : Parser Span) (spanFrom start) := by
  unfold spanFrom
  infer_instance

instance : Tracks d (advance : Parser Token) advance := .of_eq (fun _ => .single rfl) fun _ _ => rfl

instance {k : Kind} : Tracks d (accept k : Parser Bool) (accept k) := by
  unfold accept
  infer_instance

instance {expected : List String} {context : Context} :
    Tracks d (fail expected context : Parser α) (fail expected context) := by
  unfold fail
  infer_instance

instance {context : Context} : Tracks d (tooDeep context : Parser α) (tooDeep context) := by
  unfold tooDeep
  infer_instance

instance {allowed : List Kind} {context : Context} :
    Tracks d (expect allowed context : Parser Token) (expect allowed context) := by
  unfold expect
  infer_instance

instance {s : Symbol} {context : Context} :
    Tracks d (expectSymbol s context : Parser Token) (expectSymbol s context) := by
  unfold expectSymbol
  infer_instance

instance {context : Context} : Tracks d (identifier context : Parser Ident) (identifier context) := by
  unfold identifier
  infer_instance

instance {context : Context} : Tracks d (propertyWord context : Parser Token) (propertyWord context) := by
  unfold propertyWord
  infer_instance

/-! ## Repetition -/

section Repetition

variable {item : Parser (Option α)} {item' : Metered (Option α)}

instance [h : Tracks d item item'] {budget : List Token} :
    Tracks d (manyWithin item budget) (manyWithin item' budget) := by
  induction budget with
  | nil => exact h.bind fun o => by cases o <;> infer_instance
  | cons t budget ih => exact h.bind fun o => by cases o <;> infer_instance

theorem Tracks.many (h : Tracks d item item') : Tracks d (many item) (many item') := by
  unfold Parser.many
  infer_instance

instance [h : Tracks d item item'] : Tracks d (many item) (many item') := h.many

variable {one : Parser α} {one' : Metered α}

instance {closing : Symbol} [Tracks d one one'] : Tracks d (commaList closing one) (commaList closing one') := by
  unfold commaList
  infer_instance

instance [Tracks d one one'] : Tracks d (afterCommas one) (afterCommas one') := by
  unfold afterCommas
  infer_instance

instance : Tracks d (skipSemicolons : Parser Unit) skipSemicolons := by
  unfold skipSemicolons
  infer_instance

instance [Tracks d one one'] : Tracks d (separated one) (separated one') := by
  unfold separated
  infer_instance

end Repetition

instance : Tracks d (typeName : Parser Ident) typeName := by
  unfold typeName
  infer_instance

instance : Tracks d (optionalType : Parser (Option Ident)) optionalType := by
  unfold optionalType
  infer_instance

end Metered

open Metered

/-- With `d` levels open, what stands one level further in is the same for both. -/
class Productions.Tracks (d : Nat) (inner : Inner) (inner' : Productions Metered) : Prop where
  expression : Metered.Tracks d inner.expression inner'.expression
  exponent : Metered.Tracks d inner.exponent inner'.exponent
  unary : Metered.Tracks d inner.unary inner'.unary
  statement : Metered.Tracks d inner.statement inner'.statement

namespace Grammar

section Productions

-- a production is one instance problem, of as many steps as it has
set_option synthInstance.maxSize 1000

variable {d : Nat} {inner : Inner} {inner' : Productions Metered}

instance [h : Productions.Tracks d inner inner'] : Tracks d inner.expression inner'.expression := h.expression

instance [h : Productions.Tracks d inner inner'] : Tracks d inner.exponent inner'.exponent := h.exponent

instance [h : Productions.Tracks d inner inner'] : Tracks d inner.unary inner'.unary := h.unary

instance [h : Productions.Tracks d inner inner'] : Tracks d inner.statement inner'.statement := h.statement

variable [Productions.Tracks d inner inner']

/-! ## Blocks and callables -/

instance {id : Ident} {type : Option Ident} : Tracks d (bindingRest inner id type) (bindingRest inner' id type) := by
  unfold bindingRest
  infer_instance

instance {context : Context} : Tracks d (binding inner context) (binding inner' context) := by
  unfold binding
  infer_instance

instance {context : Context} {id : Ident} {type : Option Ident} :
    Tracks d (bindings inner context id type) (bindings inner' context id type) := by
  unfold bindings
  infer_instance

instance : Tracks d (parameters inner) (parameters inner') := by
  unfold parameters
  infer_instance

instance {context : Context} : Tracks d (blockIn inner context) (blockIn inner' context) := by
  unfold blockIn
  infer_instance

instance : Tracks d (block inner) (block inner') := by
  unfold block
  infer_instance

instance {name : Option Ident} {start : Position} {isAbstract : Bool} :
    Tracks d (callableRest inner name start isAbstract) (callableRest inner' name start isAbstract) := by
  unfold callableRest
  infer_instance

/-! ## Expressions -/

instance {e : Expr} : Tracks d (assignable e : Parser Unit) (assignable e) := by
  unfold assignable
  infer_instance

instance : Tracks d (arguments inner) (arguments inner') := by
  unfold arguments
  infer_instance

instance : Tracks d (arrayLiteral inner) (arrayLiteral inner') := by
  unfold arrayLiteral
  infer_instance

instance : Tracks d (property inner) (property inner') := by
  unfold property
  refine .bind inferInstance fun start => .bind inferInstance fun t => ?_
  cases objectKey? t <;> infer_instance

instance : Tracks d (objectLiteral inner) (objectLiteral inner') := by
  unfold objectLiteral
  infer_instance

instance : Tracks d (functionExpression inner) (functionExpression inner') := by
  unfold functionExpression
  infer_instance

instance : Tracks d (parenthesized inner) (parenthesized inner') := by
  unfold parenthesized
  infer_instance

instance : Tracks d (atom inner) (atom inner') := by
  unfold atom
  refine .bind inferInstance fun t => ?_
  cases simple? t with
  | some e => infer_instance
  | none =>
    dsimp only
    split <;> infer_instance

instance {context : Context} : Tracks d (propertyName context : Parser PropertyName) (propertyName context) := by
  unfold propertyName
  infer_instance

instance : Tracks d (computedKey inner) (computedKey inner') := by
  unfold computedKey
  infer_instance

instance {l : Link} : Tracks d (ended l : Parser (Option (Link × Position))) (ended l) := by
  unfold ended
  infer_instance

instance : Tracks d (propertyLink inner) (propertyLink inner') := by
  unfold propertyLink
  refine .bind inferInstance fun k => ?_
  split <;> infer_instance

instance : Tracks d (link inner) (link inner') := by
  unfold link
  refine .bind inferInstance fun k => ?_
  split
  · infer_instance
  · refine .bind inferInstance fun _ => .bind inferInstance fun k => ?_
    split <;> infer_instance
  · infer_instance

instance : Tracks d (newWord : Parser (Option Position)) newWord := by
  unfold newWord
  infer_instance

instance {starts : List Position} {e : Expr} :
    Tracks d (constructions inner starts e) (constructions inner' starts e) := by
  induction starts generalizing e with
  | nil =>
    unfold constructions
    infer_instance
  | cons start starts ih =>
    unfold constructions
    infer_instance

instance : Tracks d (primary inner) (primary inner') := by
  unfold primary
  infer_instance

instance : Tracks d (call inner) (call inner') := by
  unfold call
  infer_instance

instance : Tracks d (postfixed inner) (postfixed inner') := by
  unfold postfixed
  refine .bind inferInstance fun e => .bind inferInstance fun k => ?_
  cases updateOp? k <;> infer_instance

instance : Tracks d (unary inner) (unary inner') := by
  unfold unary
  refine .bind inferInstance fun start => .bind inferInstance fun k => .bind inferInstance fun k' => ?_
  split <;> infer_instance

instance : Tracks d (Grammar.exponent inner) (Grammar.exponent inner') := by
  unfold Grammar.exponent
  infer_instance

instance {op? : Kind → Option BinaryOp} {operand : Parser Expr} {operand' : Metered Expr} [Tracks d operand operand'] :
    Tracks d (leftChain op? operand) (leftChain op? operand') := by
  unfold leftChain
  refine .bind inferInstance fun first => .bind (.many (.bind inferInstance fun k => ?_)) fun others => inferInstance
  cases op? k <;> infer_instance

instance : Tracks d (logicalOr inner) (logicalOr inner') := by
  unfold logicalOr logicalAnd bitwiseOr bitwiseAnd equality relational shift additive multiplicative
  infer_instance

instance : Tracks d (assignment inner) (assignment inner') := by
  unfold assignment
  refine .bind inferInstance fun e => .bind inferInstance fun k => ?_
  cases assignOp? k <;> infer_instance

/-! ## Classes -/

instance : Tracks d (qualifiedName : Parser Expr) qualifiedName := by
  unfold qualifiedName
  infer_instance

instance : Tracks d (decorator : Parser (Option Ident)) decorator := by
  unfold decorator
  infer_instance

instance : Tracks d (modifier : Parser (Option Kind)) modifier := by
  unfold modifier
  infer_instance

instance {name : PropertyName} {kind : MethodKind} {modifiers : Modifiers} {decorators : List Ident}
    {start : Position} :
    Tracks d (method inner name kind modifiers decorators start)
      (method inner' name kind modifiers decorators start) := by
  unfold method
  infer_instance

instance {name : PropertyName} {modifiers : Modifiers} {decorators : List Ident} {start : Position} :
    Tracks d (field inner name modifiers decorators start) (field inner' name modifiers decorators start) := by
  unfold field
  infer_instance

instance : Tracks d (member inner) (member inner') := by
  unfold member
  refine .bind inferInstance fun start => .bind inferInstance fun decorators => .bind inferInstance fun modifiers =>
    .bind inferInstance fun b => ?_
  dsimp only
  split
  · infer_instance
  · refine .bind inferInstance fun c => .bind inferInstance fun k => ?_
    split <;> infer_instance

instance : Tracks d (interfaces : Parser (List Ident)) interfaces := by
  unfold interfaces
  infer_instance

instance : Tracks d (classDeclaration inner) (classDeclaration inner') := by
  unfold classDeclaration
  infer_instance

/-! ## Statements -/

instance : Tracks d (variableKind : Parser VariableKind) variableKind := by
  unfold variableKind
  infer_instance

instance : Tracks d (variableDeclaration inner) (variableDeclaration inner') := by
  unfold variableDeclaration
  infer_instance

instance : Tracks d (variablesStatement inner) (variablesStatement inner') := by
  unfold variablesStatement
  infer_instance

instance : Tracks d (functionDeclaration inner) (functionDeclaration inner') := by
  unfold functionDeclaration
  infer_instance

instance {context : Context} : Tracks d (condition inner context) (condition inner' context) := by
  unfold condition
  infer_instance

instance : Tracks d (ifStatement inner) (ifStatement inner') := by
  unfold ifStatement
  infer_instance

instance : Tracks d (whileStatement inner) (whileStatement inner') := by
  unfold whileStatement
  infer_instance

instance {closing : Kind} : Tracks d (optionalExpression inner closing) (optionalExpression inner' closing) := by
  unfold optionalExpression
  infer_instance

instance {start : Position} {inParens : Bool} {kind : VariableKind} {id : Ident} {type : Option Ident} :
    Tracks d (forEachRest inner start inParens kind id type) (forEachRest inner' start inParens kind id type) := by
  unfold forEachRest
  infer_instance

instance {start : Position} {inParens : Bool} {init : Option ForInit} :
    Tracks d (forLoopRest inner start inParens init) (forLoopRest inner' start inParens init) := by
  unfold forLoopRest
  infer_instance

instance : Tracks d (forStatement inner) (forStatement inner') := by
  unfold forStatement
  infer_instance

instance : Tracks d (returnStatement inner) (returnStatement inner') := by
  unfold returnStatement
  infer_instance

instance : Tracks d (expressionStatement inner) (expressionStatement inner') := by
  unfold expressionStatement
  infer_instance

instance : Tracks d (statement inner) (statement inner') := by
  unfold statement
  refine .bind inferInstance fun k => ?_
  split <;> infer_instance

instance : Tracks d (statements inner) (statements inner') := by
  unfold statements
  infer_instance

end Productions

/-! ## Levels -/

/-- With `n` levels to go, the table of levels and the account allow the same. -/
theorem tracks_level {n : Nat} (hn : n ≤ maxDepth) {ties : Nat} (hties : n ≤ ties) :
    Productions.Tracks (maxDepth - n) (level n) (productions ties) := by
  induction n generalizing ties with
  | zero =>
    -- here the account allows nothing, whether or not the knot is tied further
    cases ties with
    | zero => exact ⟨inferInstanceAs (Tracks _ (tooDeep _) (tooDeep _)),
        inferInstanceAs (Tracks _ (tooDeep _) (tooDeep _)), inferInstanceAs (Tracks _ (tooDeep _) (tooDeep _)),
        inferInstanceAs (Tracks _ (tooDeep _) (tooDeep _))⟩
    | succ ties => exact ⟨.full, .full, .full, .full⟩
  | succ n ih =>
    obtain ⟨ties, rfl⟩ : ∃ k, ties = k + 1 := ⟨ties - 1, by omega⟩
    have hlt : maxDepth - (n + 1) < maxDepth := by omega
    have hnext : maxDepth - n = maxDepth - (n + 1) + 1 := by omega
    have hinner := ih (Nat.le_of_succ_le hn) (Nat.le_of_succ_le_succ hties)
    rw [hnext] at hinner
    exact {
      expression := .nested hlt (inferInstanceAs (Tracks _ (assignment (level n)) (assignment (productions ties))))
      exponent := .nested hlt (inferInstanceAs (Tracks _ (Grammar.exponent (level n))
        (Grammar.exponent (productions ties))))
      unary := .nested hlt (inferInstanceAs (Tracks _ (unary (level n)) (unary (productions ties))))
      statement := .nested hlt (inferInstanceAs (Tracks _ (statement (level n)) (statement (productions ties)))) }

end Grammar

end Vernacular
