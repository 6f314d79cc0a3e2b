import Vernacular.Proofs.Grammar.Ladder
import Vernacular.Proofs.Grammar.Productions

/-!
# Operands before more tokens

An operand that ends with its tokens is read in the same way before more tokens, if they begin with a kind that cannot
go on an operand (`Kind.Fences`): an operator between operands or the end.

While there are tokens of the operand left, the two runs see the same; this is a comparison (`extension`), and by it
everything agrees that is read inside of brackets, up to the bracket that closes it. What ends an operand is read in
view of the end: `Extends more p p' c` says that from `c` and before `more`, `p'` reads what `p` reads, up to its last
token.

- `agree_extension`: the productions agree as long as tokens are left, whatever their levels;
- `extends_operand`: operands are read before more tokens as they are read alone;
- `Grammar.fresh_unary`: nor does it matter what stands before them.
-/

namespace Vernacular

open Grammar Vernacular.Parser

variable {α β : Type}
variable {context : Context} {previous : Option Token} {t : Token} {ts : List Token} {s : Symbol} {e : Expr}

/-! ## Equal things -/

/-- In a view that shows things as they are, only equal things are alike. -/
theorem Like.eq_of {f : α → α} (hf : ∀ a, f a = a) {a a' : α} (h : Like f a a') : a = a' :=
  (hf a).symm.trans (h.trans (hf a'))

/-- Lists of things that are shown as they are. -/
theorem Like.list_eq_of {f : α → α} (hf : ∀ a, f a = a) {as as' : List α} (h : Like (List.map f) as as') : as = as' :=
  h.eq_of (List.map_id'' hf)

theorem Like.option_eq_of {f : α → α} (hf : ∀ a, f a = a) {o o' : Option α} (h : Like (Option.map f) o o') : o = o' :=
  h.eq_of fun o => by cases o <;> simp [hf]

/-! ## More tokens -/

/-- Kinds that cannot go on an operand, other than a closing bracket and the word that begins a construction. -/
structure Kind.Fences (k : Kind) : Prop where
  power : k.power < 14
  bracket : k ≠ .symbol .rightBracket
  new : k ≠ .keyword .novo

/-- A kind that fences is none that binds as tightly as operators behind their operand. -/
theorem Kind.Fences.ne {k : Kind} (h : k.Fences) (hs : 14 ≤ (Kind.symbol s).power) : k ≠ .symbol s := by
  rintro rfl
  have := h.power
  omega

/-- A kind that fences steps nothing. -/
theorem Kind.Fences.updateOp? {k : Kind} (h : k.Fences) : updateOp? k = none := by
  cases hop : Grammar.updateOp? k with
  | none => rfl
  | some op =>
    have := h.power
    have := power_of_updateOp? hop
    omega

/-- The end cannot go on an operand. -/
theorem Kind.fences_eof : Kind.Fences .eof := ⟨by decide, nofun, nofun⟩

/-- The kind of the first token. -/
def firstKind (ts : List Token) : Kind := (ts.headD .pastEnd).kind

/-- The place with more tokens behind those that are left. -/
def Cursor.extend (c : Cursor) (more : List Token) : Cursor := ⟨c.previous, c.rest ++ more⟩

section Extension

variable {more : List Token} (hfence : (firstKind more).Fences)

/-- The run before the end and the run before more tokens. They see the same while tokens are left. -/
def extension : Comparison where
  view := .exact
  near c c' := c' = c.extend more
  bound := 1
  lenient := True
  merge := @Span.merge_exact
  length := by
    rintro c _ rfl
    simp only [Cursor.extend, List.length_append]
    omega
  peek := by
    rintro ⟨previous, _ | ⟨t, ts⟩⟩ _ rfl hb
    · exact absurd hb (by simp)
    · exact .refl _ _
  advance := by
    rintro ⟨previous, _ | ⟨t, ts⟩⟩ _ rfl hb -
    · exact absurd hb (by simp)
    · rfl
  stop := by
    rintro c _ rfl
    rfl
  second := by
    rintro ⟨previous, _ | ⟨t, _ | ⟨u, ts⟩⟩⟩ _ rfl hb
    · exact absurd hb (by simp)
    · refine .inr ⟨trivial, rfl, rfl, ?_⟩
      have hnext : (Cursor.extend ⟨previous, [t]⟩ more).peekNth 1 = more.headD .pastEnd := by
        cases more <;> rfl
      rw [hnext]
      exact hfence.bracket
    · exact .inl rfl
  updateLine := by
    rintro ⟨previous, _ | ⟨t, ts⟩⟩ _ rfl hb -
    · exact absurd hb (by simp)
    · rfl
  returnLine := by
    rintro ⟨previous, _ | ⟨t, ts⟩⟩ _ rfl hb - -
    · exact absurd hb (by simp)
    · rfl

variable {X : Comparison}

/-- Where only successes are compared, finding the nesting too deep agrees with everything. -/
theorem Agree.of_tooDeep {p' : Parser α} {S : α → α → Prop} (h : X.lenient) :
    Agree X (Grammar.tooDeep context) p' S where
  le c _ := Forward.le c
  self := by rintro c a d - ⟨⟩
  run c c' _ _ := by
    refine .inr ?_
    show X.Fits S (.error _ _) (p' c')
    cases p' c' with
    | ok => exact h
    | error => exact .inl h

/-- A reader that is given up agrees with every other if runs may be given up. -/
theorem Agree.to_tooDeep {p : Parser α} [Forward p] {S : α → α → Prop} (h : X.lenient) (hself : ∀ a, S a a) :
    Agree X p (Grammar.tooDeep context) S where
  le c _ := Forward.le c
  self _ a _ _ _ := hself a
  run c c' _ _ := by
    refine .inr ?_
    show X.Fits S (p c) (.error _ _)
    cases p c with
    | ok => exact ⟨h, _, _, rfl⟩
    | error => exact .inl h

/-- Where only successes are compared, the productions agree, however many levels there are on either side. -/
theorem Inner.Agree.levels (h : X.lenient) (n m : Nat) : (Grammar.level n).Agree X (Grammar.level m) := by
  induction n generalizing m with
  | zero => exact ⟨inferInstance, .of_tooDeep h, .of_tooDeep h, .of_tooDeep h, .of_tooDeep h⟩
  | succ n ih =>
    cases m with
    | zero =>
      have := reads_level (n + 1)
      exact ⟨this, .to_tooDeep h fun _ => rfl, .to_tooDeep h fun _ => rfl, .to_tooDeep h fun _ => rfl,
        .to_tooDeep h fun _ => rfl⟩
    | succ m => exact (ih m).around

/-- As long as tokens are left, the productions agree. -/
theorem agree_extension (n m : Nat) : (level n).Agree (extension hfence) (level m) :=
  .levels (X := extension hfence) trivial n m

/-! ## What ends an operand -/

/-- Reads what is between two symbols. -/
def Parser.bracketed (s s' : Symbol) (context : Context) (p : Parser α) : Parser α := do
  let _ ← Parser.expectSymbol s context
  let a ← p
  let _ ← Parser.expectSymbol s' context
  return a

/-- From `c` and before more tokens, `p'` reads what `p` reads before the end. -/
def Extends (more : List Token) (p p' : Parser α) (c : Cursor) : Prop :=
  ∀ a d, p c = .ok a d → Meets p' (c.extend more) fun a' d' => a' = a ∧ d' = d.extend more

namespace Extends

variable {p p' : Parser α} {f f' : α → Parser β} {c : Cursor}

/-- Nothing is read. -/
protected theorem pure {a : α} : Extends more (pure a) (pure a) c := by
  rintro _ _ ⟨⟩
  exact ⟨rfl, rfl⟩

/-- One reader after another, the second from where the first one stopped. -/
protected theorem bind (hp : Extends more p p' c) (hf : ∀ a d, p c = .ok a d → Extends more (f a) (f' a) d) :
    Extends more (p >>= f) (p' >>= f') c := by
  intro b e h
  obtain ⟨a, d, ha, hb⟩ := ok_of_bind h
  refine .bind ((hp a d ha).mono fun a' d' h => ?_)
  rw [h.1, h.2]
  exact hf a d ha b e hb

/-- By cases on a test that both runs make. -/
theorem ite {b : Prop} [Decidable b] {q q' : Parser α} (hp : b → Extends more p p' c) (hq : ¬ b → Extends more q q' c) :
    Extends more (if b then p else q) (if b then p' else q') c := by
  split
  · exact hp ‹_›
  · exact hq ‹_›

/-- A reader that fails has nothing to be compared. -/
theorem of_fail {expected : List String} : Extends more (Parser.fail expected context) p' c := by
  rintro a d ⟨⟩

/-- A reader of at least one token begins at a token. -/
theorem of_progress [hread : Progress p] (h : ∀ t ts, c.rest = t :: ts → Extends more p p' c) :
    Extends more p p' c := by
  intro a d hp
  have hlt := hread.lt c a d hp
  cases hrest : c.rest with
  | nil =>
    rw [hrest] at hlt
    exact absurd hlt (Nat.not_lt_zero _)
  | cons t ts => exact h t ts hrest a d hp

/-- What is followed by a further token has not met the end. -/
theorem after {S : α → α → Prop} (hp : Agree (extension hfence) p p' S) [hread : ∀ a, Progress (f a)]
    (hf : ∀ a a', S a a' → ∀ d, Extends more (f a) (f' a') d) : Extends more (p >>= f) (p' >>= f') c := by
  intro b e h
  obtain ⟨a, d, ha, hb⟩ := ok_of_bind h
  have hlt := (hread a).lt d b e hb
  have hrun := hp.run c (c.extend more) trivial rfl
  rw [ha] at hrun
  rcases hrun with hlost | hfit
  · exact absurd (Nat.lt_of_lt_of_le hlt (Nat.le_of_lt_succ hlost)) (Nat.not_lt_zero _)
  cases hp' : p' (c.extend more) with
  | ok a' d' =>
    rw [hp'] at hfit
    obtain ⟨ha', rfl⟩ := hfit
    rw [Meets, bind_ok hp']
    exact hf a a' ha' d b e hb
  | error e d' =>
    rw [hp'] at hfit
    rw [Meets, bind_error hp']
    exact hfit.2

/-! ### Looking and reading -/

theorem spanFrom {start : Position} : Extends more (spanFrom start) (spanFrom start) c := by
  rintro _ _ ⟨⟩
  exact ⟨rfl, rfl⟩

/-- A token of the operand is the same before more tokens. -/
theorem advance : Extends more advance advance ⟨previous, t :: ts⟩ := by
  rintro _ _ ⟨⟩
  exact ⟨rfl, rfl⟩

/-- While tokens are left, both runs see the next one. -/
theorem peek {f f' : Token → Parser β} (h : Extends more (f t) (f' t) ⟨previous, t :: ts⟩) :
    Extends more (Parser.peek >>= f) (Parser.peek >>= f') ⟨previous, t :: ts⟩ := h

/-- Both runs look at the same kind while a token is left. -/
theorem kind {f f' : Kind → Parser β} (h : Extends more (f t.kind) (f' t.kind) ⟨previous, t :: ts⟩) :
    Extends more (Parser.kind >>= f) (Parser.kind >>= f') ⟨previous, t :: ts⟩ := h

theorem position {f f' : Position → Parser β} (h : Extends more (f t.start) (f' t.start) ⟨previous, t :: ts⟩) :
    Extends more (Parser.position >>= f) (Parser.position >>= f') ⟨previous, t :: ts⟩ := h

/-- A test for a line break is made in front of a token that is there. -/
theorem onNewLine {f f' : Bool → Parser β} (h : ∀ b, Extends more (f b) (f' b) ⟨previous, t :: ts⟩) :
    Extends more (Parser.onNewLine >>= f) (Parser.onNewLine >>= f') ⟨previous, t :: ts⟩ := h _

/-- Where no tokens are left, a reader that does not go on at kinds with `F` stops in both runs. -/
theorem stops {F : Kind → Prop} (heof : F .eof) (hmore : F (firstKind more)) {a : α}
    (h : ∀ c : Cursor, F c.peek.kind → p c = .ok a c) (h' : ∀ c : Cursor, F c.peek.kind → p' c = .ok a c) :
    Extends more p p' ⟨previous, []⟩ := by
  intro b d hb
  rw [h ⟨previous, []⟩ heof] at hb
  cases hb
  rw [Meets, h' (Cursor.extend ⟨previous, []⟩ more) hmore]
  exact ⟨rfl, rfl⟩

include hfence in
/-- A reader that does nothing in front of what fences does nothing at the end of the operand and before more tokens. -/
theorem spent {a : α} (h : ∀ c : Cursor, c.peek.kind.Fences → p c = .ok a c)
    (h' : ∀ c : Cursor, c.peek.kind.Fences → p' c = .ok a c) : Extends more p p' ⟨previous, []⟩ :=
  stops Kind.fences_eof hfence h h'

/-- The context shows in errors only. -/
theorem expect {allowed : List Kind} {context' : Context} (h : .eof ∉ allowed) :
    Extends more (expect allowed context) (expect allowed context') c := by
  have : Progress (Parser.expect allowed context) := .expect h
  refine of_progress fun t ts hrest => ?_
  obtain ⟨previous, rest⟩ := c
  subst hrest
  exact ite (fun _ => advance) fun _ => of_fail

/-- A symbol that closes something. -/
theorem expectSymbol {context' : Context} :
    Extends more (expectSymbol s context) (expectSymbol s context') c := expect (by simp)

/-- Whatever is in brackets is followed by a further token. -/
theorem bracketed {S : α → α → Prop} {s' : Symbol} (hp : Agree (extension hfence) p p' S)
    (hS : ∀ {a a'}, S a a' → a = a') : Extends more (bracketed s s' context p) (bracketed s s' context p') c := by
  have := hp.forward
  refine after hfence Agree.expectSymbol fun _ _ _ d => after hfence hp fun a a' ha d => ?_
  obtain rfl := hS ha
  exact expectSymbol.bind fun _ _ _ => .pure

/-- What stands between two symbols, with the place of the whole. -/
theorem enclosed {S : α → α → Prop} {s' : Symbol} {context' : Context} {build : α → Span → β}
    (hp : Agree (extension hfence) p p' S) (hS : ∀ {a a'}, S a a' → a = a') :
    Extends more
      (do let start ← Parser.position
          let _ ← Parser.expectSymbol s context
          let a ← p
          let _ ← Parser.expectSymbol s' context'
          return build a (← Parser.spanFrom start))
      (do let start ← Parser.position
          let _ ← Parser.expectSymbol s context
          let a ← p'
          let _ ← Parser.expectSymbol s' context'
          return build a (← Parser.spanFrom start)) c := by
  have := hp.forward
  refine .after hfence Agree.position fun start start' hstart d => ?_
  obtain rfl : start = start' := hstart
  refine .after hfence Agree.expectSymbol fun _ _ _ d => .after hfence hp fun a a' ha d => ?_
  obtain rfl := hS ha
  exact Extends.expectSymbol.bind fun _ _ _ => Extends.spanFrom.bind fun _ _ _ => .pure

/-- A word that names a property. -/
theorem propertyWord : Extends more (propertyWord context) (propertyWord context) c := by
  refine of_progress fun t ts hrest => ?_
  obtain ⟨previous, rest⟩ := c
  subst hrest
  exact ite (fun _ => advance) fun _ => of_fail

include hfence in
/-- A symbol that goes on an operand is ahead in both runs or in none. -/
theorem check (hs : 14 ≤ (Kind.symbol s).power) : Extends more (check (.symbol s)) (check (.symbol s)) c := by
  rintro _ _ ⟨⟩
  obtain ⟨previous, rest⟩ := c
  refine ⟨?_, rfl⟩
  cases rest with
  | nil =>
    show (firstKind more == .symbol s) = false
    exact beq_eq_false_iff_ne.mpr (hfence.ne hs)
  | cons t ts => rfl

/-- The rounds of both runs are bounded by the tokens that are left, and each item has read one. -/
theorem manyWithin {item item' : Parser (Option α)} [hm : Moving item] (h : ∀ c, Extends more item item' c)
    (budget : List Token) {budget' : List Token} (hle : budget.length ≤ budget'.length) {c : Cursor}
    (hb : c.rest.length ≤ budget.length) : Extends more (manyWithin item budget) (manyWithin item' budget') c := by
  induction budget generalizing budget' c with
  | nil =>
    rw [Agree.manyWithin_eq, Agree.manyWithin_eq]
    refine (h c).bind fun o d hitem => ?_
    cases o with
    | none => cases budget' <;> exact .pure
    | some a =>
      have := hm.lt c a d hitem
      rw [List.length_nil] at hb
      omega
  | cons t budget ih =>
    rw [Agree.manyWithin_eq, Agree.manyWithin_eq]
    refine (h c).bind fun o d hitem => ?_
    cases budget' with
    | nil => exact absurd hle (by simp)
    | cons t' budget' =>
      cases o with
      | none => exact .pure
      | some a =>
        have hlt := hm.lt c a d hitem
        rw [List.length_cons] at hb
        exact (ih (Nat.le_of_succ_le_succ hle) (by omega)).bind fun _ _ _ => .pure

/-- Repetition: each item is read in the same way, and so is its end. -/
theorem many {item item' : Parser (Option α)} [Moving item] (h : ∀ c, Extends more item item' c) :
    Extends more (many item) (many item') c :=
  manyWithin h c.rest (by simp [Cursor.extend]) (Nat.le_refl _)

end Extends

/-! ## Brackets -/

namespace Grammar

variable {inner inner' : Inner} (h : inner.Agree (extension hfence) inner') {c : Cursor}

include h

/-- Arguments end with their parenthesis, so that they agree as a whole. -/
theorem extends_arguments : Extends more (arguments inner) (arguments inner') c :=
  .bracketed hfence (Agree.commaList h.expression) (Like.list_eq_of Expr.view_exact)

theorem extends_computedKey : Extends more (computedKey inner) (computedKey inner') c :=
  .bracketed hfence h.expression (Like.eq_of Expr.view_exact)

theorem extends_parenthesized : Extends more (parenthesized inner) (parenthesized inner') ⟨previous, t :: ts⟩ := by
  have := h.reads
  refine Extends.advance.bind fun _ _ _ => Extends.after hfence h.expression fun e e' he d => ?_
  obtain rfl := he.eq_of Expr.view_exact
  exact Extends.expectSymbol.bind fun _ _ _ => .pure

theorem extends_arrayLiteral : Extends more (arrayLiteral inner) (arrayLiteral inner') c :=
  .enclosed hfence (Agree.commaList h.expression) (Like.list_eq_of Expr.view_exact)

theorem extends_objectLiteral : Extends more (objectLiteral inner) (objectLiteral inner') c :=
  .enclosed hfence (Agree.commaList (agree_property h)) (Like.list_eq_of Property.view_exact)

/-- A block ends with its brace. -/
theorem extends_blockIn : Extends more (blockIn inner context) (blockIn inner' context) c :=
  have := h.reads
  .enclosed hfence (agree_separated h.statement) (Like.list_eq_of Stmt.view_exact)

omit h in
/-- A callable that is not abstract ends with its body. -/
theorem callableRest_false (name : Option Ident) (start : Position) : callableRest inner name start false = (do
    let params ← parameters inner
    let result ← optionalType
    let body ← blockIn inner .functionDeclaration
    return ⟨name, params, result, some body, ← spanFrom start⟩) := rfl

/-- The rest of a callable, which has a body. -/
theorem extends_callableRest {name : Option Ident} {start : Position} :
    Extends more (callableRest inner name start false) (callableRest inner' name start false) c := by
  have := h.reads
  rw [callableRest_false, callableRest_false]
  refine .after hfence (agree_parameters h) fun params params' hparams d => ?_
  obtain rfl := hparams.list_eq_of Binding.view_exact
  refine .after hfence Agree.optionalType fun type type' htype d => ?_
  obtain rfl := htype.option_eq_of fun _ => rfl
  exact (extends_blockIn hfence h).bind fun _ _ _ => Extends.spanFrom.bind fun _ _ _ => .pure

theorem extends_functionExpression : Extends more (functionExpression inner) (functionExpression inner') c := by
  have := h.reads
  refine .after hfence Agree.position fun start start' hstart d => ?_
  obtain rfl : start = start' := hstart
  refine .after hfence (Agree.expect (by simp)) fun _ _ _ d => .after hfence Agree.check fun b b' hb d => ?_
  subst hb
  refine .ite (fun _ => ?_) fun _ => (extends_callableRest hfence h).bind fun _ _ _ => .pure
  refine .after hfence Agree.identifier fun x x' hx d => ?_
  obtain rfl : x = x' := hx
  exact (extends_callableRest hfence h).bind fun _ _ _ => .pure

/-- An operand without links, by the kind of its first token. -/
theorem extends_atom : Extends more (atom inner) (atom inner') c := by
  have := h.reads
  refine .of_progress fun t ts hrest => ?_
  obtain ⟨previous, rest⟩ := c
  subst hrest
  refine .peek ?_
  cases simple? t with
  | some e => exact Extends.advance.bind fun _ _ _ => .pure
  | none =>
    dsimp only
    split
    · exact extends_functionExpression hfence h
    · exact extends_parenthesized hfence h
    · exact extends_arrayLiteral hfence h
    · exact extends_objectLiteral hfence h
    · exact .of_fail

/-! ## Calls and properties -/

omit h in
/-- The end of a link is the end of a token. -/
theorem extends_ended {l : Link} (hprevious : c.previous.isSome) : Extends more (ended l) (ended l) c := by
  obtain ⟨previous, rest⟩ := c
  cases previous with
  | none => cases hprevious
  | some t =>
    rintro _ _ ⟨⟩
    exact ⟨rfl, rfl⟩

omit h in
include hfence in
theorem extends_propertyName : Extends more (propertyName context) (propertyName context) c := by
  refine .after hfence (Agree.accept nofun) fun b b' hb d => ?_
  subst hb
  exact .ite (fun _ => Extends.propertyWord.bind fun _ _ _ => .pure) fun _ =>
    Extends.propertyWord.bind fun _ _ _ => .pure

omit h in
/-- What is in brackets ends with a token. -/
theorem previous_of_bracketed {p : Parser α} {s' : Symbol} : Ensures (fun _ => True)
    (bracketed s s' context p) fun _ d => d.previous.isSome := by
  have hclose : Ensures (fun _ => True) (expectSymbol s' context) fun _ d => d.previous.isSome := by
    refine .expect fun c _ hk => ?_
    obtain ⟨previous, rest⟩ := c
    cases rest with
    | nil => cases List.mem_singleton.mp hk
    | cons t ts => rfl
  refine .bind (Q := fun _ _ => True) (fun _ _ _ _ _ => trivial) fun _ => ?_
  refine .bind (Q := fun _ _ => True) (fun _ _ _ _ _ => trivial) fun a => ?_
  exact .bind hclose fun _ => .pure fun _ hd => hd

omit h in
/-- Behind a name there is a token before the place. -/
theorem previous_of_propertyName : Ensures (fun _ => True) (propertyName context) fun _ d => d.previous.isSome := by
  have hword : Ensures (fun _ => True) (propertyWord context) fun _ d => d.previous.isSome := by
    refine .propertyWord fun c _ hk => ?_
    obtain ⟨previous, rest⟩ := c
    cases rest with
    | nil => cases hk
    | cons t ts => rfl
  refine .bind (Q := fun _ _ => True) (fun _ _ _ _ _ => trivial) fun b => .ite (fun _ => ?_) fun _ => ?_
  · exact .bind hword fun _ => .pure fun _ hd => hd
  · exact .bind hword fun _ => .pure fun _ hd => hd

omit h in
/-- What fences is no link, so a chain of links ends there. -/
theorem propertyLink_of_fences (hk : c.peek.kind.Fences) : propertyLink inner c = .ok none c := by
  rw [propertyLink, kind_bind]
  generalize c.peek.kind = k at hk
  split
  · exact absurd rfl (hk.ne (by decide))
  · exact absurd rfl (hk.ne (by decide))
  · rfl

omit h in
theorem link_of_fences (hk : c.peek.kind.Fences) : link inner c = .ok none c := by
  rw [link, kind_bind]
  have hproperty : propertyLink inner c = .ok none c := propertyLink_of_fences hk
  generalize c.peek.kind = k at hk
  split
  · exact absurd rfl (hk.ne (by decide))
  · exact absurd rfl (hk.ne (by decide))
  · exact hproperty

/-- A link behind a point. -/
theorem extends_propertyLink : Extends more (propertyLink inner) (propertyLink inner') c := by
  obtain ⟨previous, rest⟩ := c
  cases rest with
  | nil => exact .spent hfence (fun _ => propertyLink_of_fences) fun _ => propertyLink_of_fences
  | cons t ts =>
    refine Extends.kind ?_
    split
    · refine Extends.advance.bind fun _ d _ => (extends_propertyName hfence).bind fun name d' hname => ?_
      exact extends_ended (previous_of_propertyName d name d' trivial hname)
    · refine (extends_computedKey hfence h).bind fun key d hkey => ?_
      exact extends_ended (previous_of_bracketed _ key d trivial hkey)
    · exact .pure

/-- Any link. Whether another one follows is decided by a kind that fences or by a token of the operand. -/
theorem extends_link : Extends more (link inner) (link inner') c := by
  have := h.reads
  have hcall (optional : Bool) (c : Cursor) : Extends more (arguments inner >>= fun args => ended (.call args optional))
      (arguments inner' >>= fun args => ended (.call args optional)) c :=
    (extends_arguments hfence h).bind fun args d hargs => extends_ended (previous_of_bracketed c args d trivial hargs)
  obtain ⟨previous, rest⟩ := c
  cases rest with
  | nil => exact .spent hfence (fun _ => link_of_fences) fun _ => link_of_fences
  | cons t ts =>
    refine Extends.kind ?_
    split
    · exact hcall false _
    · refine Extends.advance.bind fun _ d _ => ?_
      -- behind the mark of an optional link there is at least one more token
      refine @Extends.of_progress _ _ _ _ _ (Forward.bindProgress inferInstance fun k => ?_) fun t ts hrest => ?_
      · split <;> infer_instance
      obtain ⟨previous, rest⟩ := d
      subst hrest
      refine Extends.kind ?_
      split
      · exact hcall true _
      · refine (extends_computedKey hfence h).bind fun key d hkey => ?_
        exact extends_ended (previous_of_bracketed _ key d trivial hkey)
      · refine (extends_propertyName hfence).bind fun name d hname => ?_
        exact extends_ended (previous_of_propertyName _ name d trivial hname)
    · exact extends_propertyLink hfence h

/-! ## Operands -/

omit h in
include hfence in
/-- One word of construction, or none. -/
theorem extends_newWord : Extends more newWord newWord c := by
  obtain ⟨previous, rest⟩ := c
  cases rest with
  | nil =>
    have hnone (c : Cursor) (hk : c.peek.kind.Fences) : (newWord : Parser (Option Position)) c = .ok none c := by
      show (if (c.peek.kind == .keyword .novo) = true then _ else pure none : Parser (Option Position)) c = _
      rw [if_neg (by simpa using hk.new)]
      rfl
    exact .spent hfence hnone hnone
  | cons t ts =>
    show Extends more (if (t.kind == .keyword .novo) = true then _ else _)
        (if (t.kind == .keyword .novo) = true then _ else _) _
    exact .ite (fun _ => Extends.position (Extends.advance.bind fun _ _ _ => .pure)) fun _ => .pure

/-- Constructions whose words have been read. The last one may end the operand without arguments. -/
theorem extends_constructions {starts : List Position} :
    Extends more (constructions inner starts e) (constructions inner' starts e) c := by
  have := h.reads
  induction starts generalizing e c with
  | nil => exact .pure
  | cons start starts ih =>
    have hrest (xs : List (Link × Position)) (args : List Expr) (c : Cursor) :
        Extends more (do constructions inner starts (.new (xs.foldl Link.apply e) args (← spanFrom start)))
          (do constructions inner' starts (.new (xs.foldl Link.apply e) args (← spanFrom start))) c :=
      Extends.spanFrom.bind fun _ _ _ => ih
    refine (Extends.many fun _ => extends_propertyLink hfence h).bind fun xs d _ => ?_
    refine (Extends.check hfence (by decide)).bind fun b d _ => .ite (fun _ => ?_) fun _ => hrest xs [] d
    exact (extends_arguments hfence h).bind fun args d _ => hrest xs args d

theorem extends_primary : Extends more (primary inner) (primary inner') c := by
  refine (Extends.many fun _ => extends_newWord hfence).bind fun starts d _ => ?_
  exact (extends_atom hfence h).bind fun e d _ => extends_constructions hfence h

/-- A chain of links. -/
theorem extends_call : Extends more (call inner) (call inner') c := by
  have := h.reads
  exact (extends_primary hfence h).bind fun e d _ =>
    (Extends.many fun _ => extends_link hfence h).bind fun _ _ _ => .pure

omit h in
theorem extends_assignable : Extends more (assignable e) (assignable e) c :=
  .ite (fun _ => .pure) fun _ => by rintro a d ⟨⟩

omit h in
/-- A test of a target reads nothing. -/
theorem cursor_of_assignable {u : Unit} {d : Cursor} (hrun : (assignable e : Parser Unit) c = .ok u d) : d = c := by
  unfold assignable at hrun
  split at hrun <;> cases hrun
  rfl

/-- Reads an operator behind an operand, on the same line. -/
def updateBehind (e : Expr) : Parser Expr := do
  match updateOp? (← kind) with
  | none => return e
  | some op =>
    if ← onNewLine then return e
    assignable e
    let _ ← advance
    return .update op false e (← spanFrom e.span.start)

omit h in
/-- What fences steps nothing, so the operand is left as it is. -/
theorem updateBehind_of_fences (hk : c.peek.kind.Fences) : updateBehind e c = .ok e c := by
  show (match updateOp? c.peek.kind with
    | none => pure e
    | some op => _ : Parser Expr) c = _
  rw [hk.updateOp?]
  rfl

omit h in
include hfence in
/-- An operator that steps its operand, or nothing. -/
theorem extends_updateBehind : Extends more (updateBehind e) (updateBehind e) c := by
  obtain ⟨previous, rest⟩ := c
  cases rest with
  | nil => exact .spent hfence (fun _ => updateBehind_of_fences) fun _ => updateBehind_of_fences
  | cons t ts =>
    refine .kind ?_
    split
    · exact .pure
    · refine .onNewLine fun b => .ite (fun _ => .pure) fun _ => extends_assignable.bind fun _ d hd => ?_
      obtain rfl := cursor_of_assignable hd
      exact Extends.advance.bind fun _ _ _ => Extends.spanFrom.bind fun _ _ _ => .pure

theorem extends_postfixed : Extends more (postfixed inner) (postfixed inner') c :=
  (extends_call hfence h).bind fun _ _ _ => extends_updateBehind hfence

/-- Operators in front of an operand, the operand being one level further in. -/
theorem extends_unary (hunary : ∀ c, Extends more inner.unary inner'.unary c) :
    Extends more (unary inner) (unary inner') c := by
  have := h.reads
  refine .of_progress fun t ts hrest => ?_
  obtain ⟨previous, rest⟩ := c
  subst hrest
  refine .position (.kind (.kind ?_))
  split
  · refine Extends.advance.bind fun _ _ _ => (hunary _).bind fun e _ _ => extends_assignable.bind fun _ _ _ => ?_
    exact Extends.spanFrom.bind fun _ _ _ => .pure
  · exact Extends.advance.bind fun _ _ _ => (hunary _).bind fun e _ _ => Extends.spanFrom.bind fun _ _ _ => .pure
  · exact extends_postfixed hfence h

end Grammar

include hfence in
/-- Operands are read before more tokens as they are read alone, or the nesting is too deep there. -/
theorem extends_operand (n m : Nat) (c : Cursor) : Extends more (unary (level n)) (unary (level m)) c := by
  refine extends_unary hfence (agree_extension hfence n m) fun c => ?_
  induction n generalizing m c with
  | zero => rintro a d ⟨⟩
  | succ n ih =>
    cases m with
    | zero => exact fun _ _ _ => .tooDeep
    | succ m => exact extends_unary hfence (agree_extension hfence n m) fun c => ih m c

end Extension

/-! ## Whatever stands before -/

/-- What the reader succeeds with does not depend on the token before its first one. -/
def Parser.Fresh (p : Parser α) : Prop :=
  ∀ previous previous' t ts a d, p ⟨previous, t :: ts⟩ = .ok a d → p ⟨previous', t :: ts⟩ = .ok a d

namespace Parser.Fresh

variable {p : Parser α} {f : α → Parser β}

/-- Once a token is read, it is the one before. -/
protected theorem bind (hp : Fresh p) : Fresh (p >>= f) := by
  intro previous previous' t ts b e h
  obtain ⟨a, d, ha, hb⟩ := ok_of_bind h
  rw [bind_ok (hp previous previous' t ts a d ha)]
  exact hb

/-- The next token can be looked at first. -/
theorem look {g : Cursor → α} (hg : ∀ previous previous' t ts, g ⟨previous, t :: ts⟩ = g ⟨previous', t :: ts⟩)
    (hf : ∀ a, Fresh (f a)) : Fresh ((fun c => .ok (g c) c) >>= f) := by
  intro previous previous' t ts b e h
  show f (g ⟨previous', t :: ts⟩) ⟨previous', t :: ts⟩ = .ok b e
  rw [← hg previous previous']
  exact hf _ previous previous' t ts b e h

/-- What is looked at does not depend on what stands before. -/
theorem peek {f : Token → Parser β} (hf : ∀ t, Fresh (f t)) : Fresh (Parser.peek >>= f) :=
  look (g := Cursor.peek) (fun _ _ _ _ => rfl) hf

theorem kind {f : Kind → Parser β} (hf : ∀ k, Fresh (f k)) : Fresh (Parser.kind >>= f) :=
  look (g := fun c => c.peek.kind) (fun _ _ _ _ => rfl) hf

theorem position {f : Position → Parser β} (hf : ∀ p, Fresh (f p)) : Fresh (Parser.position >>= f) :=
  look (g := fun c => c.peek.start) (fun _ _ _ _ => rfl) hf

theorem fail {expected : List String} : Fresh (Parser.fail expected context : Parser α) := by
  rintro previous previous' t ts a d ⟨⟩

theorem advance : Fresh Parser.advance := fun _ _ _ _ _ _ h => h

theorem expect {allowed : List Kind} : Fresh (Parser.expect allowed context) := by
  refine kind fun k => ?_
  split
  · exact advance
  · exact fail

end Parser.Fresh

namespace Grammar

variable {inner : Inner}

/-- An operand without links begins with a token, which decides all that follows. -/
theorem fresh_atom : Fresh (atom inner) := by
  refine .peek fun t => ?_
  cases simple? t with
  | some e => exact .bind .advance
  | none =>
    dsimp only
    split
    · exact .position fun _ => .bind .expect
    · exact .bind .advance
    · exact .position fun _ => .bind .expect
    · exact .position fun _ => .bind .expect
    · exact .fail

/-- One word of construction. -/
theorem newWord_eq (previous : Option Token) (t : Token) (ts : List Token) :
    (newWord : Parser (Option Position)) ⟨previous, t :: ts⟩ =
      if t.kind = .keyword .novo then .ok (some t.start) ⟨some t, ts⟩ else .ok none ⟨previous, t :: ts⟩ := by
  show (if (t.kind == .keyword .novo) = true then _ else _ : Parser (Option Position)) _ = _
  by_cases hnew : t.kind = .keyword .novo
  · rw [if_pos hnew, if_pos (beq_iff_eq.mpr hnew)]
    rfl
  · rw [if_neg hnew, if_neg (by simpa using hnew)]
    rfl

/-- A construction begins with a token that is read, and otherwise an atom comes first. -/
theorem fresh_primary : Fresh (primary inner) := by
  intro previous previous' t ts e d h
  have hmany (previous : Option Token) : many (newWord : Parser (Option Position)) ⟨previous, t :: ts⟩ =
      (newWord >>= Agree.manyRest newWord (t :: ts)) ⟨previous, t :: ts⟩ := by
    rw [← Agree.manyWithin_eq]
    rfl
  by_cases hnew : t.kind = .keyword .novo
  · have hword (previous : Option Token) := (newWord_eq previous t ts).trans (if_pos hnew)
    have hsame : many (newWord : Parser (Option Position)) ⟨previous', t :: ts⟩ =
        many (newWord : Parser (Option Position)) ⟨previous, t :: ts⟩ := by
      rw [hmany, hmany, bind_ok (hword previous), bind_ok (hword previous')]
    obtain ⟨starts, c, hstarts, hrest⟩ := ok_of_bind h
    exact (bind_ok (hsame.trans hstarts) _).trans hrest
  · have hnone (previous : Option Token) :
        many (newWord : Parser (Option Position)) ⟨previous, t :: ts⟩ = .ok [] ⟨previous, t :: ts⟩ := by
      rw [hmany, bind_ok ((newWord_eq previous t ts).trans (if_neg hnew))]
      rfl
    rw [primary, bind_ok (hnone previous)] at h
    rw [primary, bind_ok (hnone previous')]
    exact fresh_atom.bind previous previous' t ts e d h

/-- An operand is read in the same way whatever stands before it: only line breaks look back, and none is tested
before a token of the operand has been read. -/
theorem fresh_unary : Fresh (unary inner) := by
  refine .position fun start => .kind fun k => .kind fun k' => ?_
  split
  · exact .bind .advance
  · exact .bind .advance
  · exact .bind (.bind fresh_primary)

end Grammar

end Vernacular
