import Vernacular.Proofs.Grammar.Meter
import Vernacular.Proofs.Grammar.Respelling

/-!
# Sessions with one parser

A parser can be used from outside, one `Operation` after another, also after some of them failed, and operations can be
performed one level further in (`Action`). Whatever is done in a session, and whatever tokens there are, the place only
moves on and stays within the tokens, every level that is opened is closed again, no more than `Grammar.maxDepth` are
ever open, and a part of a program that has been read had a token (`Action.Lawful`).

- `Action.keeps`: what one action does to the account, and what a list of them does;
- `rounds_many`: a loop whose items have tokens ends by itself;
- `session_lawful`: all actions of all sessions, and all loops.
-/

namespace Vernacular

open Grammar Vernacular.Parser Metered

variable {α : Type}

/-! ## Operations -/

/-- A part of a program that cannot be empty. -/
inductive Part where
  | typeName
  | arguments
  | block
  | callableRest (name : Option Ident) (start : Position) (isAbstract : Bool)
  | expression
  | logicalOr
  | logicalAnd
  | bitwiseOr
  | bitwiseAnd
  | equality
  | relational
  | shift
  | additive
  | multiplicative
  | exponent
  | unary
  | postfixed
  | call
  | primary
  | variableDeclaration
  | classDeclaration
  | statement

/-- What can be asked of a parser. -/
inductive Operation where
  | peek
  | peekNth (n : Nat)
  | previous
  | position
  | atEnd
  | onNewLine
  | check (k : Kind)
  | spanFrom (start : Position)
  | errorHere (expected : List String) (context : Context)
  | advance
  | accept (k : Kind)
  | expect (allowed : List Kind) (context : Context)
  | identifier (context : Context)
  | propertyWord (context : Context)
  | skipSemicolons
  | optionalType
  | part (part : Part)
  | program

/-- What reading a part gives. -/
abbrev Part.Answer : Part → Type
  | typeName => Ident
  | arguments => List Expr
  | block => Block
  | callableRest .. => Callable
  | variableDeclaration => Declaration
  | classDeclaration | statement => Stmt
  | _ => Expr

/-- What an operation gives. -/
abbrev Operation.Answer : Operation → Type
  | peek | peekNth _ | advance | expect .. | propertyWord _ => Token
  | previous => Option Token
  | position => Position
  | atEnd | onNewLine | check _ | accept _ => Bool
  | spanFrom _ => Span
  | errorHere .. => SyntaxError
  | identifier _ => Ident
  | skipSemicolons => Unit
  | optionalType => Option Ident
  | part p => p.Answer
  | program => Program

section Readers

variable {m : Type → Type} [Monad m] [MonadStateOf Cursor m] [MonadExceptOf SyntaxError m] (inner : Productions m)

def Part.read : (part : Part) → m part.Answer
  | typeName => Parser.typeName
  | arguments => Grammar.arguments inner
  | block => Grammar.block inner
  | callableRest name start isAbstract => Grammar.callableRest inner name start isAbstract
  | expression => inner.expression
  | logicalOr => Grammar.logicalOr inner
  | logicalAnd => Grammar.logicalAnd inner
  | bitwiseOr => Grammar.bitwiseOr inner
  | bitwiseAnd => Grammar.bitwiseAnd inner
  | equality => Grammar.equality inner
  | relational => Grammar.relational inner
  | shift => Grammar.shift inner
  | additive => Grammar.additive inner
  | multiplicative => Grammar.multiplicative inner
  | exponent => Grammar.exponent inner
  | unary => Grammar.unary inner
  | postfixed => Grammar.postfixed inner
  | call => Grammar.call inner
  | primary => Grammar.primary inner
  | variableDeclaration => Grammar.variableDeclaration inner
  | classDeclaration => Grammar.classDeclaration inner
  | statement => inner.statement

def Operation.read : (o : Operation) → m o.Answer
  | peek => Parser.peek
  | peekNth n => return (← get).peekNth n
  | previous => return (← get).previous
  | position => Parser.position
  | atEnd => Parser.atEnd
  | onNewLine => Parser.onNewLine
  | check k => Parser.check k
  | spanFrom start => Parser.spanFrom start
  | errorHere expected context => return (← get).errorHere expected context
  | advance => Parser.advance
  | accept k => Parser.accept k
  | expect allowed context => Parser.expect allowed context
  | identifier context => Parser.identifier context
  | propertyWord context => Parser.propertyWord context
  | skipSemicolons => Parser.skipSemicolons
  | optionalType => Parser.optionalType
  | part p => p.read inner
  | program => Grammar.statements inner

end Readers

section

variable {d : Nat} {inner : Inner} {inner' : Productions Metered}

instance [inner.Reads] (p : Part) : Progress (p.read inner) := by
  cases p <;> (dsimp only [Part.read, Grammar.logicalOr, Grammar.logicalAnd, Grammar.bitwiseOr, Grammar.bitwiseAnd,
    Grammar.equality, Grammar.relational, Grammar.shift, Grammar.additive, Grammar.multiplicative]; infer_instance)

instance [Productions.Tracks d inner inner'] (p : Part) : Tracks d (p.read inner) (p.read inner') := by
  cases p <;> (dsimp only [Part.read, Grammar.logicalOr, Grammar.logicalAnd, Grammar.bitwiseOr, Grammar.bitwiseAnd,
    Grammar.equality, Grammar.relational, Grammar.shift, Grammar.additive, Grammar.multiplicative]; infer_instance)

instance [Productions.Tracks d inner inner'] (o : Operation) : Tracks d (o.read inner) (o.read inner') := by
  cases o <;> (dsimp only [Operation.read]; infer_instance)

end

/-! ## Sessions -/

/-- What can be done with a parser: an operation, or further actions one level further in, which may fail in the end.
What is made of their outcomes in between shows only in which actions follow. -/
inductive Action where
  | operation (o : Operation)
  | nested (context : Context) (body : List Action) (failure : Option SyntaxError)

/-- The account after a run. -/
def Metered.gaugeOf : EStateM.Result SyntaxError Gauge α → Gauge
  | .ok _ g | .error _ g => g

/-- Whether a run succeeded. -/
def Metered.succeeded : EStateM.Result SyntaxError Gauge α → Bool
  | .ok .. => true
  | .error .. => false

/-- Fails if there is an error to fail with. -/
def Metered.ending : Option SyntaxError → Metered Unit
  | none => pure ()
  | some e => throw e

/-- Goes on whether `p` succeeds or fails. -/
def Metered.attempt (p : Metered α) : Metered Unit := fun g => .ok () (gaugeOf (p g))

section Runs

variable (inner : Productions Metered)

mutual

/-- Performs an action. -/
def Action.run : Action → Metered Unit
  | .operation o => do
    let _ ← o.read inner
  | .nested context body failure => Metered.nested context do
    runAll body
    ending failure

/-- Performs actions one after another, also after failures. -/
def runAll : List Action → Metered Unit
  | [] => pure ()
  | a :: as => do
    attempt a.run
    runAll as

end

/-- The action `a` is begun at `g'` in the course of actions that are begun at `g`. -/
inductive Begins : List Action → Gauge → Action → Gauge → Prop
  | here {a : Action} {as : List Action} {g : Gauge} : Begins (a :: as) g a g
  | later {a b : Action} {as : List Action} {g g' : Gauge} :
      Begins as (gaugeOf (a.run inner g)) b g' → Begins (a :: as) g b g'
  | inside {context : Context} {body as : List Action} {failure : Option SyntaxError} {b : Action} {g g' : Gauge} :
      g.depth < maxDepth → Begins body g.deeper b g' → Begins (.nested context body failure :: as) g b g'

/-- What the laws of sessions say of an action that is begun at `g`, in a session over `ts`. -/
structure Action.Lawful (ts : List Token) (a : Action) (g : Gauge) : Prop where
  /-- The place moves on within the tokens, and a part that was read had a token. -/
  place : ∃ i j, i ≤ j ∧ j ≤ ts.length ∧ g.cursor = .after ts i ∧ (gaugeOf (a.run inner g)).cursor = .after ts j ∧
    ∀ p, a = .operation (.part p) → succeeded (a.run inner g) = true → i < j
  /-- Every level that was opened is closed. -/
  depth : (gaugeOf (a.run inner g)).depth = g.depth
  /-- Never were more levels open than may be. -/
  peak : g.depth ≤ g.peak ∧ g.peak ≤ (gaugeOf (a.run inner g)).peak ∧ (gaugeOf (a.run inner g)).peak ≤ maxDepth
  /-- An operation gives what the parser with the remaining levels to go gives. -/
  answer : ∀ o, a = .operation o →
    ∃ k, o.read inner g = outcome g.depth k (o.read (level (maxDepth - g.depth)) g.cursor)

end Runs

/-! ## What an action does to the account -/

/-- With `d` levels open, `q` moves on, closes what it opens, and opens no more than may be open. -/
def Metered.Keeps (d : Nat) (q : Metered α) : Prop :=
  ∀ c k, k ≤ maxDepth → ∃ c' k', c.Reaches c' ∧ k ≤ k' ∧ k' ≤ maxDepth ∧ gaugeOf (q ⟨c, d, k⟩) = ⟨c', d, k'⟩

namespace Metered

variable {d : Nat} {β : Type} {p : Parser α} {q : Metered α}

theorem Tracks.keeps (h : Tracks d p q) : Keeps d q := by
  intro c k hk
  obtain ⟨k', hle, hk', hq⟩ := h.run c k hk
  refine ⟨endOf (p c), k', h.reaches c, hle, hk', ?_⟩
  rw [hq]
  cases p c <;> rfl

theorem Keeps.bind {f : α → Metered β} (h : Keeps d q) (hf : ∀ a, Keeps d (f a)) : Keeps d (q >>= f) := by
  intro c k hk
  obtain ⟨c', k', hreach, hle, hk', hq⟩ := h c k hk
  cases hrun : q ⟨c, d, k⟩ with
  | ok a g =>
    rw [hrun] at hq
    obtain ⟨c'', k'', hreach', hle', hk'', hf⟩ := hf a c' k' hk'
    refine ⟨c'', k'', hreach.trans hreach', Nat.le_trans hle hle', hk'', ?_⟩
    rw [next_of_ok hrun, show g = ⟨c', d, k'⟩ from hq, hf]
  | error e g =>
    rw [hrun] at hq
    refine ⟨c', k', hreach, hle, hk', ?_⟩
    rw [next_of_error hrun]
    exact hq

theorem Keeps.pure {a : α} : Keeps d (Pure.pure a) := Tracks.keeps (p := Pure.pure a) inferInstance

theorem Keeps.ending : ∀ {failure : Option SyntaxError}, Keeps d (ending failure)
  | none => .pure
  | some e => (inferInstance : Tracks d (throw e : Parser Unit) (throw e)).keeps

theorem Keeps.attempt (h : Keeps d q) : Keeps d (attempt q) := h

/-- A level is opened only if it may be. -/
theorem Keeps.nested {context : Context} (h : d < maxDepth → Keeps (d + 1) q) : Keeps d (nested context q) := by
  intro c k hk
  by_cases hd : d < maxDepth
  · obtain ⟨c', k', hreach, hle, hk', hq⟩ := h hd c (max k (d + 1)) (Nat.max_le.mpr ⟨hk, hd⟩)
    refine ⟨c', k', hreach, Nat.le_trans (Nat.le_max_left ..) hle, hk', ?_⟩
    have hopen : ¬ maxDepth ≤ d := Nat.not_le.mpr hd
    simp only [Metered.nested, hopen, if_false, Gauge.deeper]
    cases hrun : q ⟨c, d + 1, max k (d + 1)⟩ <;> rw [hrun] at hq <;> cases hq <;> rfl
  · refine ⟨c, k, .refl, Nat.le_refl k, hk, ?_⟩
    simp only [Metered.nested, Nat.not_lt.mp hd, if_true]
    rfl

end Metered

section Laws

variable {n : Nat}

/-- With `d` levels open, the productions are those with the remaining levels to go. -/
theorem tracks_productions {d : Nat} (hd : d ≤ maxDepth) :
    Productions.Tracks d (level (maxDepth - d)) (productions (maxDepth + n)) := by
  have hties : maxDepth - d ≤ maxDepth + n := by omega
  have h := tracks_level (Nat.sub_le maxDepth d) hties
  rwa [Nat.sub_sub_self hd] at h

mutual

theorem Action.keeps {d : Nat} (hd : d ≤ maxDepth) : ∀ a : Action, Keeps d (a.run (productions (maxDepth + n)))
  | .operation o => by
    have := tracks_productions (n := n) hd
    have htracks : Tracks d (o.read (level (maxDepth - d))) (o.read (productions (maxDepth + n))) := inferInstance
    rw [Action.run]
    exact htracks.keeps.bind fun _ => .pure
  | .nested context body failure => by
    rw [Action.run]
    exact .nested fun hlt => (keeps_runAll hlt body).bind fun _ => .ending

theorem keeps_runAll {d : Nat} (hd : d ≤ maxDepth) :
    ∀ as : List Action, Keeps d (runAll (productions (maxDepth + n)) as)
  | [] => by
    rw [runAll]
    exact .pure
  | a :: as => by
    rw [runAll]
    exact (a.keeps hd).attempt.bind fun _ => keeps_runAll hd as

end

/-- What holds of the account at every moment of a session over `ts`. -/
structure Gauge.Valid (ts : List Token) (g : Gauge) : Prop where
  place : ∃ i ≤ ts.length, g.cursor = .after ts i
  depth : g.depth ≤ g.peak
  peak : g.peak ≤ maxDepth

variable {ts : List Token} {g g' : Gauge} {a : Action}

/-- Reading on from a place within the tokens leads to one further on. -/
theorem Cursor.Reaches.after {i : Nat} {c : Cursor} (h : (Cursor.after ts i).Reaches c) (hi : i ≤ ts.length) :
    ∃ j, i ≤ j ∧ j ≤ ts.length ∧ c = .after ts j := by
  induction h with
  | refl => exact ⟨i, Nat.le_refl i, hi, rfl⟩
  | tail _ hstep ih =>
    obtain ⟨j, hij, hj, rfl⟩ := ih
    by_cases hlt : j < ts.length
    · exact ⟨j + 1, Nat.le_succ_of_le hij, hlt, by rw [hstep, advance_after hlt]⟩
    · obtain rfl : j = ts.length := by omega
      exact ⟨_, hij, hj, by rw [hstep, advance_after_length]⟩

namespace Gauge.Valid

theorem start (ts : List Token) : (Gauge.start ts).Valid ts :=
  ⟨⟨0, Nat.zero_le _, rfl⟩, Nat.le_refl 0, Nat.zero_le _⟩

theorem deeper (h : g.Valid ts) (hd : g.depth < maxDepth) : g.deeper.Valid ts :=
  ⟨h.place, Nat.le_max_right .., Nat.max_le.mpr ⟨h.peak, hd⟩⟩

/-- An action moves on and leaves the account as it is, but for the most levels that were ever open. -/
theorem run (h : g.Valid ts) (a : Action) : ∃ i j k, i ≤ j ∧ j ≤ ts.length ∧ g.peak ≤ k ∧ k ≤ maxDepth ∧
    g.cursor = .after ts i ∧ gaugeOf (a.run (productions (maxDepth + n)) g) = ⟨.after ts j, g.depth, k⟩ := by
  obtain ⟨i, hi, hc⟩ := h.place
  obtain ⟨c', k, hreach, hle, hk, hrun⟩ := a.keeps (n := n) (Nat.le_trans h.depth h.peak) g.cursor g.peak h.peak
  rw [hc] at hreach
  obtain ⟨j, hij, hj, rfl⟩ := hreach.after hi
  exact ⟨i, j, k, hij, hj, hle, hk, hc, hrun⟩

end Gauge.Valid

/-- Every action of a session is begun with a valid account. -/
theorem Begins.valid {as : List Action} (h : Begins (productions (maxDepth + n)) as g a g') (hg : g.Valid ts) :
    g'.Valid ts := by
  induction h with
  | here => exact hg
  | @later a _ _ g _ _ ih =>
    obtain ⟨i, j, k, -, hj, hle, hk, -, hrun⟩ := hg.run (n := n) a
    rw [hrun] at ih
    exact ih ⟨⟨j, hj, rfl⟩, Nat.le_trans hg.depth hle, hk⟩
  | inside hd _ ih => exact ih (hg.deeper hd)

/-- An operation gives what the parser gives with the remaining levels to go. -/
theorem Operation.read_productions (o : Operation) (hd : g.depth ≤ maxDepth) (hk : g.peak ≤ maxDepth) :
    ∃ k, o.read (productions (maxDepth + n)) g = outcome g.depth k (o.read (level (maxDepth - g.depth)) g.cursor) := by
  have := tracks_productions (n := n) hd
  have htracks : Tracks g.depth (o.read (level (maxDepth - g.depth))) (o.read (productions (maxDepth + n))) :=
    inferInstance
  obtain ⟨k, -, -, hrun⟩ := htracks.run g.cursor g.peak hk
  exact ⟨k, hrun⟩

/-- A part that was read had a token. -/
theorem Part.rest_lt (p : Part) (hd : g.depth ≤ maxDepth) (hk : g.peak ≤ maxDepth)
    (h : succeeded ((Action.operation (.part p)).run (productions (maxDepth + n)) g) = true) :
    (gaugeOf ((Action.operation (.part p)).run (productions (maxDepth + n)) g)).cursor.rest.length <
      g.cursor.rest.length := by
  obtain ⟨k, hread⟩ := (Operation.part p).read_productions (n := n) hd hk
  rw [Action.run] at h ⊢
  cases hrun : (Operation.part p).read (level (maxDepth - g.depth)) g.cursor with
  | error e c =>
    rw [hrun] at hread
    rw [next_of_error hread] at h
    cases h
  | ok answer c =>
    rw [hrun] at hread
    rw [next_of_ok hread]
    have hprogress : Progress (p.read (level (maxDepth - g.depth))) := inferInstance
    exact hprogress.lt g.cursor answer c hrun

/-- What is begun with a valid account is lawful. -/
theorem Action.lawful (h : g.Valid ts) (a : Action) : a.Lawful (productions (maxDepth + n)) ts g := by
  have hd : g.depth ≤ maxDepth := Nat.le_trans h.depth h.peak
  obtain ⟨i, j, k, hij, hj, hle, hk, hc, hrun⟩ := h.run (n := n) a
  refine ⟨⟨i, j, hij, hj, hc, by rw [hrun], ?_⟩, by rw [hrun],
    ⟨h.depth, by rw [hrun]; exact hle, by rw [hrun]; exact hk⟩, ?_⟩
  · rintro p rfl hp
    have hlt := p.rest_lt (n := n) hd h.peak hp
    rw [hrun, hc] at hlt
    simp only [Cursor.after, List.length_drop] at hlt
    omega
  · rintro o rfl
    exact o.read_productions hd h.peak

end Laws

/-! ## Loops -/

/-- The rounds of a loop without a bound, from a place to the end of the loop: it goes on as long as there is an
item. -/
inductive Rounds (item : Parser (Option α)) : Cursor → EStateM.Result SyntaxError Cursor (List α) → Prop
  | done {c d : Cursor} : item c = .ok none d → Rounds item c (.ok [] d)
  | fails {c d : Cursor} {e : SyntaxError} : item c = .error e d → Rounds item c (.error e d)
  | next {c d d' : Cursor} {a : α} {as : List α} :
      item c = .ok (some a) d → Rounds item d (.ok as d') → Rounds item c (.ok (a :: as) d')
  | nextFails {c d d' : Cursor} {a : α} {e : SyntaxError} :
      item c = .ok (some a) d → Rounds item d (.error e d') → Rounds item c (.error e d')

/-- As many rounds as there are tokens are enough. -/
theorem rounds_manyWithin {item : Parser (Option α)} [h : Moving item] (budget : List Token) (c : Cursor)
    (hc : c.rest.length ≤ budget.length) : Rounds item c (manyWithin item budget c) := by
  induction budget generalizing c with
  | nil =>
    rw [manyWithin]
    cases hitem : item c with
    | error e d =>
      rw [bind_error hitem]
      exact .fails hitem
    | ok o d =>
      rw [bind_ok hitem]
      cases o with
      | none => exact .done hitem
      | some a => exact absurd (Nat.lt_of_lt_of_le (h.lt c a d hitem) hc) (Nat.not_lt_zero _)
  | cons t budget ih =>
    rw [manyWithin]
    cases hitem : item c with
    | error e d =>
      rw [bind_error hitem]
      exact .fails hitem
    | ok o d =>
      rw [bind_ok hitem]
      cases o with
      | none => exact .done hitem
      | some a =>
        have hd : d.rest.length ≤ budget.length := Nat.le_of_lt_succ (Nat.lt_of_lt_of_le (h.lt c a d hitem) hc)
        have hrest := ih d hd
        dsimp only
        cases hmany : manyWithin item budget d with
        | ok as d' =>
          rw [hmany] at hrest
          rw [bind_ok hmany]
          exact .next hitem hrest
        | error e d' =>
          rw [hmany] at hrest
          rw [bind_error hmany]
          exact .nextFails hitem hrest

/-- A loop whose items have tokens ends by itself, with what `many` gives. -/
theorem rounds_many {item : Parser (Option α)} [Moving item] (c : Cursor) : Rounds item c (many item c) :=
  rounds_manyWithin c.rest c (Nat.le_refl _)

/-- What stands behind a comma in a list that ends with `closing`. -/
def commaItem (closing : Symbol) (item : Parser α) : Parser (Option α) := do
  if ← accept (.symbol .comma) then
    if ← check (.symbol closing) then return none else return some (← item)
  else return none

example (closing : Symbol) (item : Parser α) : commaList closing item = (do
    if ← check (.symbol closing) then return []
    let first ← item
    let others ← many (commaItem closing item)
    return first :: others) := rfl

/-- What stands behind a comma in a list that ends where there is none. -/
def nextItem (item : Parser α) : Parser (Option α) := do
  if ← accept (.symbol .comma) then return some (← item) else return none

example (item : Parser α) : afterCommas item = many (nextItem item) := rfl

/-- The items that productions repeat. -/
inductive Repeated (inner : Inner) : {α : Type} → Parser (Option α) → Prop
  | semicolon : Repeated inner (do if ← accept (.symbol .semicolon) then return some () else return none)
  | statementOfProgram : Repeated inner (programItem inner)
  | statementOfBlock : Repeated inner (separatedItem inner.statement)
  | memberOfClass : Repeated inner (separatedItem (member inner))
  | argument : Repeated inner (commaItem .rightParen inner.expression)
  | itemOfArray : Repeated inner (commaItem .rightBracket inner.expression)
  | propertyOfObject : Repeated inner (commaItem .rightBrace (property inner))
  | parameter : Repeated inner (commaItem .rightParen (binding inner .functionParameters))
  | declared (context : Context) : Repeated inner (nextItem (binding inner context))
  | interface : Repeated inner (nextItem (do
      let t ← expect classKinds .classDeclaration
      return (⟨t.text, t.span⟩ : Ident)))
  | decorator : Repeated inner decorator
  | modifier : Repeated inner modifier
  | qualifier : Repeated inner qualifier
  | brackets : Repeated inner brackets
  | link : Repeated inner (link inner)
  | propertyLink : Repeated inner (propertyLink inner)
  | newWord : Repeated inner newWord
  | operand (L : Nat) : Repeated inner (chainItem (opAt L) (parserAt inner (L + 1)))

instance {inner : Inner} [inner.Reads] (L : Nat) : Progress (parserAt inner L) := by
  unfold parserAt Grammar.logicalOr Grammar.logicalAnd Grammar.bitwiseOr Grammar.bitwiseAnd Grammar.equality
    Grammar.relational Grammar.shift Grammar.additive Grammar.multiplicative
  split <;> infer_instance

theorem Repeated.moving {inner : Inner} [inner.Reads] {item : Parser (Option α)} (h : Repeated inner item) :
    Moving item := by
  cases h with
  | semicolon | statementOfProgram | statementOfBlock | memberOfClass => infer_instance
  | argument | itemOfArray | propertyOfObject | parameter =>
    unfold commaItem
    infer_instance
  | declared | interface =>
    unfold nextItem
    infer_instance
  | decorator | modifier | qualifier | brackets | link | propertyLink | newWord | operand => infer_instance

/-! ## All sessions -/

/-- In every session with one parser, whatever the tokens, every action is lawful: the place moves on within the tokens,
as many levels are open behind it as before it, never more than `maxDepth` were, and a part that was read had a token.
So every loop ends by itself. -/
theorem session_lawful (n : Nat) (ts : List Token) :
    (∀ as a g, Begins (productions (maxDepth + n)) as (.start ts) a g → a.Lawful (productions (maxDepth + n)) ts g) ∧
      ∀ (k : Nat) (α : Type) (item : Parser (Option α)), Repeated (level k) item →
      ∀ c, Rounds item c (many item c) := by
  refine ⟨fun as a g h => a.lawful (h.valid (.start ts)), fun k α item h c => ?_⟩
  have := h.moving
  exact rounds_many c

/-- A parenthesis that closes nothing, a name, and no end. -/
def strayTokens : List Token :=
  [⟨.symbol .rightParen, ")", .start, .start⟩, ⟨.identifier, "a", .start, .start⟩]

/-- One level further in, reading an expression fails, the token in its way is passed over, and a statement is read. -/
def straySession : List Action :=
  [.nested .block [.operation (.part .expression), .operation .advance, .operation (.part .statement)] none]

theorem session_lawful_stray : ∃ g, g.depth = 1 ∧
    succeeded ((Action.operation (.part .statement)).run (productions (maxDepth + 1)) g) = true ∧
    Begins (productions (maxDepth + 1)) straySession (.start strayTokens) (.operation (.part .statement)) g ∧
    (Action.operation (.part .statement)).Lawful (productions (maxDepth + 1)) strayTokens g ∧
    Rounds (separatedItem (level 3).statement) g.cursor (many (separatedItem (level 3).statement) g.cursor) := by
  let inner := productions (maxDepth + 1)
  let g₁ := gaugeOf ((Action.operation (.part .expression)).run inner (Gauge.start strayTokens).deeper)
  let g₂ := gaugeOf ((Action.operation .advance).run inner g₁)
  have hbegins : Begins inner straySession (.start strayTokens) (.operation (.part .statement)) g₂ :=
    .inside (by decide) (.later (.later .here))
  refine ⟨g₂, by decide +kernel, by decide +kernel, hbegins, ?_, ?_⟩
  · exact (session_lawful 1 strayTokens).1 straySession _ g₂ hbegins
  · exact (session_lawful 1 strayTokens).2 3 Stmt _ .statementOfBlock g₂.cursor

end Vernacular
