import Vernacular.Proofs.Grammar.Forward
import Vernacular.Proofs.Tree.View

/-!
# Two runs of a reader

A `Comparison` relates the places of two runs of readers, and says what is to be seen of what they give. `Agree X p p'
S` says that from places that correspond, `p` and `p'` either both succeed, with results related by `S`, or both fail
with errors that look the same, at places that correspond again. Two things can be left open: a lenient comparison holds
only for what the first run succeeds with, and lets the second one find the nesting too deep; and where the first run
leaves fewer tokens than `bound`, nothing more is said. No reader reads past the end, so nothing is asked of two runs
that would: a token is read where it is known not to be the end (`AgreeOn`).

The rules follow the way in which readers are put together: `AgreeOn.bind` for steps, `Agree.look` for looking,
`Agree.many` for repetition. What the readers of tokens need of a comparison are its laws.
-/

namespace Vernacular

open Grammar Vernacular.Parser

variable {α β γ : Type}
variable {context : Context} {p p' : Parser α} {f : α → β} {c : Cursor} {k : Kind} {item : Parser (Option α)}

/-! ## Tokens and errors in view -/

/-- Keywords with several spellings. -/
def Kind.isRespelt : Kind → Bool
  | keyword k => !k.others.isEmpty
  | _ => false

def Token.view (v : View) (t : Token) : Token := ⟨t.kind, v.word t.text, v.position t.start, v.position t.stop⟩

/-- Stretches look alike if both ends do. -/
theorem Like.span {v : View} {a a' b b' : Position} (ha : Like v.position a a') (hb : Like v.position b b') :
    Like (Span.view v) ⟨a, b⟩ ⟨a', b'⟩ := by
  rw [Like, Span.view, Span.view, ha, hb]

/-- Names look alike if their texts and their stretches do. -/
theorem Like.ident {v : View} {f : String → String} {n n' : String} {s s' : Span} (hn : Like f n n')
    (hs : Like (Span.view v) s s') : Like (Ident.viewBy v f) ⟨n, s⟩ ⟨n', s'⟩ := by
  rw [Like, Ident.viewBy, Ident.viewBy, hn, hs]

/-- Two tokens are alike if they look the same and differ at most in the spelling of a keyword. -/
structure TokenLike (v : View) (t t' : Token) : Prop where
  view : Like (Token.view v) t t'
  text : t.kind.isRespelt = false → t.text = t'.text
  type : t.kind ∈ typeKinds → ∀ n, Like v.type ((List.replicate n "[]").foldl (· ++ ·) t.text)
    ((List.replicate n "[]").foldl (· ++ ·) t'.text)

namespace TokenLike

variable {v : View} {t t' : Token}

/-- A token looks like itself in every view. -/
theorem refl (v : View) (t : Token) : TokenLike v t t := ⟨rfl, fun _ => rfl, fun _ _ => rfl⟩

theorem kind (h : TokenLike v t t') : t.kind = t'.kind := (Token.mk.inj h.view).1

/-- What can be seen of the text of a word is part of what can be seen of the token. -/
theorem word (h : TokenLike v t t') : Like v.word t.text t'.text := (Token.mk.inj h.view).2.1

theorem start (h : TokenLike v t t') : Like v.position t.start t'.start := (Token.mk.inj h.view).2.2.1

theorem stop (h : TokenLike v t t') : Like v.position t.stop t'.stop := (Token.mk.inj h.view).2.2.2

theorem span (h : TokenLike v t t') : Like (Span.view v) t.span t'.span := .span h.start h.stop

end TokenLike

def SyntaxError.view (v : View) : SyntaxError → SyntaxError
  | unexpectedToken expected found context => unexpectedToken expected (found.view v) context
  | unexpectedEnd expected p context => unexpectedEnd expected (v.position p) context
  | notAssignable target p => notAssignable target (v.position p)
  | tooDeep p context => tooDeep (v.position p) context

/-! ## Comparisons -/

/-- How two runs of readers are compared. -/
structure Comparison where
  view : View
  /-- The places that correspond to one another. -/
  near : Cursor → Cursor → Prop
  /-- Where the first run leaves fewer tokens, it is not compared. -/
  bound : Nat
  /-- Only what the first run succeeds with counts, and the second one may find the nesting too deep. -/
  lenient : Prop
  merge : ∀ {a a' b b' : Span}, Like (Span.view view) a a' → Like (Span.view view) b b' →
    Like (Span.view view) (a.merge b) (a'.merge b')
  length : ∀ {c c' : Cursor}, near c c' → c.rest.length ≤ c'.rest.length + bound
  peek : ∀ {c c' : Cursor}, near c c' → bound ≤ c.rest.length → TokenLike view c.peek c'.peek
  advance : ∀ {c c' : Cursor}, near c c' → bound ≤ c.rest.length → c.peek.kind ≠ .eof → near c.advance.2 c'.advance.2
  stop : ∀ {c c' : Cursor}, near c c' → Like (Option.map fun t => view.position t.stop) c.previous c'.previous
  /-- The token after the next is of the same kind, or it was not there in the first run. -/
  second : ∀ {c c' : Cursor}, near c c' → bound ≤ c.rest.length → (c.peekNth 1).kind = (c'.peekNth 1).kind ∨
    lenient ∧ c.rest.length = bound ∧ (c.peekNth 1).kind = .eof ∧ (c'.peekNth 1).kind ≠ .symbol .rightBracket
  /-- Operators that step a variable are on a new line in both runs or in none. -/
  updateLine : ∀ {c c' : Cursor}, near c c' → bound ≤ c.rest.length → (updateOp? c.peek.kind).isSome →
    c.onNewLine = c'.onNewLine
  /-- What follows the word for a return is on a new line in both runs or in none, unless it is the end. -/
  returnLine : ∀ {c c' : Cursor}, near c c' → bound ≤ c.rest.length →
    c.previous.map Token.kind = some (.keyword .retorne) → c.peek.kind ≠ .eof → c.onNewLine = c'.onNewLine

/-- Spans that are the same are merged to the same span. -/
theorem Span.merge_exact {a a' b b' : Span} (ha : Like (Span.view .exact) a a') (hb : Like (Span.view .exact) b b') :
    Like (Span.view .exact) (a.merge b) (a'.merge b') := by
  obtain rfl : a = a' := ha
  obtain rfl : b = b' := hb
  rfl

namespace Comparison

variable (X : Comparison)

/-- What the two runs give and where they end fits. -/
def Fits (S : α → α → Prop) : EStateM.Result SyntaxError Cursor α → EStateM.Result SyntaxError Cursor α → Prop
  | .ok a d, .ok a' d' => S a a' ∧ X.near d d'
  | .ok _ _, .error e _ => X.lenient ∧ ∃ position context, e = .tooDeep position context
  | .error _ _, .ok _ _ => X.lenient
  | .error e d, .error e' d' => X.lenient ∨ Like (SyntaxError.view X.view) e e' ∧ X.near d d'

/-- The runs fit, unless the first one has left too few tokens to be compared. -/
def Outcome (S : α → α → Prop) (r r' : EStateM.Result SyntaxError Cursor α) : Prop :=
  (endOf r).rest.length < X.bound ∨ X.Fits S r r'

end Comparison

/-- From places that correspond, the first of which has `P`, the runs of the two readers fit. The first reader goes
forward from there, and what it gives is related to itself, so that it can be followed also where it is not compared. -/
structure AgreeOn (X : Comparison) (P : Cursor → Prop) (p p' : Parser α) (S : α → α → Prop) : Prop where
  le : ∀ c, P c → (endOf (p c)).rest.length ≤ c.rest.length
  self : ∀ c a d, P c → p c = .ok a d → S a a
  run : ∀ c c', P c → X.near c c' → X.Outcome S (p c) (p' c')

/-- From any places that correspond, the runs of the two readers fit. -/
abbrev Agree (X : Comparison) (p p' : Parser α) (S : α → α → Prop) : Prop := AgreeOn X (fun _ => True) p p' S

/-- The first run of a comparison goes on or stays. -/
theorem Agree.forward {X : Comparison} {S : α → α → Prop} (h : Agree X p p' S) : Forward p :=
  ⟨fun c => h.le c trivial⟩

namespace AgreeOn

variable {X : Comparison} {P : Cursor → Prop} {S S' : α → α → Prop} {T : β → β → Prop} {q q' : Parser α}
  {f f' : α → Parser β}

/-! ## Steps -/

/-- What the first reader gives may be used for what is said of both. -/
theorem imp (h : AgreeOn X P p p' S) (hs : ∀ c a d a', P c → p c = .ok a d → S a a' → S' a a') :
    AgreeOn X P p p' S' where
  le := h.le
  self c a d hc hp := hs c a d a hc hp (h.self c a d hc hp)
  run c c' hc hn := by
    refine (h.run c c' hc hn).imp id fun hfit => ?_
    cases hp : p c <;> cases hp' : p' c' <;> rw [hp, hp'] at hfit
    · exact ⟨hs c _ _ _ hc hp hfit.1, hfit.2⟩
    · exact hfit
    · exact hfit
    · exact hfit

/-- What follows from what is known of the results. -/
theorem mono (h : AgreeOn X P p p' S) (hs : ∀ a a', S a a' → S' a a') : AgreeOn X P p p' S' :=
  h.imp fun _ a _ a' _ _ => hs a a'

/-- What the first reader ensures is known of what it gives. -/
theorem and_ensures {G : α → Prop} (h : AgreeOn X P p p' S) (hg : Ensures P p fun a _ => G a) :
    AgreeOn X P p p' fun a a' => S a a' ∧ G a := h.imp fun c a d _ hc hp ha => ⟨ha, hg c a d hc hp⟩

/-- More may be known of where to begin. -/
theorem on {Q : Cursor → Prop} (h : AgreeOn X P p p' S) (hq : ∀ c, Q c → P c) : AgreeOn X Q p p' S :=
  ⟨fun c hc => h.le c (hq c hc), fun c a d hc => h.self c a d (hq c hc), fun c c' hc => h.run c c' (hq c hc)⟩

/-- Both runs give a result at once. -/
protected theorem pure {a a' : α} (h : S a a') (hs : S a a) : AgreeOn X P (pure a) (pure a') S where
  le _ _ := Nat.le_refl _
  self := by
    rintro c _ d - ⟨⟩
    exact hs
  run c c' _ hn := .inr ⟨h, hn⟩

/-- If the runs of a step fit, and those of what follows it where both succeed, then so do those of the whole. -/
theorem outcome_bind {c' : Cursor} (h : X.Outcome S (p c) (p' c'))
    (hle : ∀ a d, p c = .ok a d → (endOf (f a d)).rest.length ≤ d.rest.length)
    (hf : ∀ a d a' d', p c = .ok a d → S a a' → X.near d d' → X.Outcome T (f a d) (f' a' d')) :
    X.Outcome T ((p >>= f) c) ((p' >>= f') c') := by
  cases hp : p c with
  | ok a d =>
    rw [bind_ok hp]
    rw [hp] at h
    rcases h with hlost | hfit
    · exact .inl (Nat.lt_of_le_of_lt (hle a d hp) hlost)
    · cases hp' : p' c' with
      | ok a' d' =>
        rw [hp'] at hfit
        rw [bind_ok hp']
        exact hf a d a' d' hp hfit.1 hfit.2
      | error e d' =>
        rw [hp'] at hfit
        rw [bind_error hp']
        cases f a d with
        | ok => exact .inr hfit
        | error => exact .inr (.inl hfit.1)
  | error e d =>
    rw [bind_error hp]
    rw [hp] at h
    refine h.imp id fun hfit => ?_
    cases hp' : p' c' with
    | ok a' d' =>
      rw [hp'] at hfit
      rw [bind_ok hp']
      cases f' a' d' with
      | ok => exact hfit
      | error => exact .inl hfit
    | error e' d' =>
      rw [hp'] at hfit
      rw [bind_error hp']
      exact hfit

/-- A step, and what it ensures for what follows it. -/
theorem bindOn {Q : α → Cursor → Prop} (hp : AgreeOn X P p p' S) (hq : Ensures P p Q)
    (hf : ∀ a a', S a a' → AgreeOn X (Q a) (f a) (f' a') T) : AgreeOn X P (p >>= f) (p' >>= f') T := by
  have hself (c : Cursor) (a : α) (d : Cursor) (hc : P c) (h : p c = .ok a d) : AgreeOn X (Q a) (f a) (f' a) T :=
    hf a a (hp.self c a d hc h)
  refine ⟨fun c hc => ?_, fun c b d hc h => ?_, fun c c' hc hn => ?_⟩
  · have hle := hp.le c hc
    cases h : p c with
    | ok a d =>
      rw [h] at hle
      rw [bind_ok h]
      exact Nat.le_trans ((hself c a d hc h).le d (hq c a d hc h)) hle
    | error e d =>
      rw [h] at hle
      rw [bind_error h]
      exact hle
  · obtain ⟨a, c', h, h'⟩ := ok_of_bind h
    exact (hself c a c' hc h).self c' b d (hq c a c' hc h) h'
  · refine outcome_bind (hp.run c c' hc hn) (fun a d h => (hself c a d hc h).le d (hq c a d hc h)) ?_
    exact fun a d a' d' h ha hd => (hf a a' ha).run d d' (hq c a d hc h) hd

/-- One reader after another. The second may know how the results of the first are related. -/
protected theorem bind (hp : AgreeOn X P p p' S) (hf : ∀ a a', S a a' → Agree X (f a) (f' a') T) :
    AgreeOn X P (p >>= f) (p' >>= f') T := hp.bindOn (Q := fun _ _ => True) (fun _ _ _ _ _ => trivial) hf

/-- A step whose result is not used. -/
theorem next {r r' : Parser β} (hp : AgreeOn X P p p' S) (hr : Agree X r r' T) :
    AgreeOn X P (p >>= fun _ => r) (p' >>= fun _ => r') T := hp.bind fun _ _ _ => hr

/-- By cases on a test that both runs make. -/
theorem ite {b : Prop} [Decidable b] (hp : AgreeOn X P p p' S) (hq : AgreeOn X P q q' S) :
    AgreeOn X P (if b then p else q) (if b then p' else q') S := by
  split
  · exact hp
  · exact hq

/-- Both runs fail, with errors that look alike. -/
theorem throw {e e' : SyntaxError} (h : Like (SyntaxError.view X.view) e e') : AgreeOn X P (throw e) (throw e') S where
  le _ _ := Nat.le_refl _
  self := by rintro c a d - ⟨⟩
  run c c' _ hn := .inr (.inr ⟨h, hn⟩)

/-- A token is read, which is not the end. -/
theorem advance (h : ∀ c, P c → c.peek.kind ≠ .eof) : AgreeOn X P advance advance (TokenLike X.view) where
  le c _ := Forward.le (p := Parser.advance) c
  self c t d _ _ := .refl _ _
  run c c' hc hn := by
    have hrun (c : Cursor) : (Parser.advance : Parser Token) c = .ok c.peek c.advance.2 := by
      rw [← Cursor.advance_fst]
      rfl
    rw [hrun, hrun]
    by_cases hb : X.bound ≤ c.rest.length
    · exact .inr ⟨X.peek hn hb, X.advance hn hb (h c hc)⟩
    · have hle : c.advance.2.rest.length ≤ c.rest.length := Forward.le (p := Parser.advance) c
      exact .inl (Nat.lt_of_le_of_lt hle (Nat.lt_of_not_le hb))

end AgreeOn

namespace Agree

variable {X : Comparison} {P : Cursor → Prop} {S : α → α → Prop} {T : β → β → Prop}

theorem on (h : Agree X p p' S) : AgreeOn X P p p' S := AgreeOn.on h fun _ _ => trivial

/-! ## Looking -/

/-- Readers that only look give what can be seen from their places. -/
theorem look (g g' : Cursor → α) (h : ∀ c c', X.near c c' → X.bound ≤ c.rest.length → S (g c) (g' c'))
    (hs : ∀ c, S (g c) (g c)) : Agree X (fun c => .ok (g c) c) (fun c => .ok (g' c) c) S where
  le _ _ := Nat.le_refl _
  self := by
    rintro c _ d - ⟨⟩
    exact hs c
  run c c' _ hc := by
    by_cases hb : X.bound ≤ c.rest.length
    · exact .inr ⟨h c c' hc hb, hc⟩
    · exact .inl (Nat.lt_of_not_le hb)

/-- Both runs look at tokens that look alike. -/
theorem peek : Agree X peek peek (TokenLike X.view) :=
  look Cursor.peek Cursor.peek (fun _ _ => X.peek) fun _ => .refl _ _

theorem kind : Agree X kind kind Eq :=
  look (fun c => c.peek.kind) (fun c => c.peek.kind) (fun _ _ hc hb => (X.peek hc hb).kind) fun _ => rfl

/-- What is next is known from then on. -/
theorem ahead {f f' : Kind → Parser β} (h : ∀ k, AgreeOn X (fun c => P c ∧ c.peek.kind = k) (f k) (f' k) T) :
    AgreeOn X P (Parser.kind >>= f) (Parser.kind >>= f') T := by
  refine kind.on.bindOn Ensures.kind ?_
  rintro k _ rfl
  exact h k

theorem check : Agree X (check k) (check k) Eq :=
  kind.bind fun _ _ hk => .pure (by rw [hk]) rfl

/-- Where it is found, the token that was looked for is next. -/
theorem checkThen {q q' : Parser α} (hp : AgreeOn X (·.peek.kind = k) p p' S) (hq : Agree X q q' S) :
    Agree X (Parser.check k >>= fun b => if b = true then p else q)
      (Parser.check k >>= fun b => if b = true then p' else q') S := by
  refine check.bindOn Ensures.check ?_
  rintro b _ rfl
  cases b with
  | true => exact hp.on fun c hc => eq_of_beq hc.2
  | false => exact hq.on

/-- Both runs are at the end or neither is. -/
theorem atEnd : Agree X atEnd atEnd Eq := check

theorem position : Agree X position position (Like X.view.position) :=
  look (fun c => c.peek.start) (fun c => c.peek.start) (fun _ _ hc hb => (X.peek hc hb).start) fun _ => rfl

theorem fail {expected : List String} : Agree X (fail expected context) (fail expected context) S := by
  refine (look (S := Like (SyntaxError.view X.view)) (fun c => c.errorHere expected context)
    (fun c => c.errorHere expected context) (fun c c' hc hb => ?_) fun _ => rfl).bind fun e e' he => .throw he
  have ht := X.peek hc hb
  unfold Cursor.errorHere
  rw [← ht.kind]
  split
  · exact congrArg (SyntaxError.unexpectedEnd expected · context) ht.start
  · exact congrArg (SyntaxError.unexpectedToken expected · context) ht.view

/-- Both runs find the nesting too deep. -/
theorem tooDeep : Agree X (tooDeep context) (tooDeep context) S :=
  position.bind fun _ _ hp => .throw (congrArg (SyntaxError.tooDeep · context) hp)

/-- The end of the last token that was read, or else a place that is known. -/
theorem stopOf {c' : Cursor} (hc : X.near c c') {p p' : Position} (hp : Like X.view.position p p') :
    Like X.view.position ((c.previous.map Token.stop).getD p) ((c'.previous.map Token.stop).getD p') := by
  have hstop := X.stop hc
  cases hprev : c.previous <;> cases hprev' : c'.previous <;> rw [hprev, hprev'] at hstop
  · exact hp
  · cases hstop
  · cases hstop
  · exact Option.some.inj hstop

/-- A stretch ends where the last token does, which looks alike in both runs. -/
theorem spanFrom {start start' : Position} (h : Like X.view.position start start') :
    Agree X (spanFrom start) (spanFrom start') (Like (Span.view X.view)) :=
  look (fun c => c.spanFrom start) (fun c => c.spanFrom start')
    (fun _ _ hc _ => .span h (stopOf hc h)) fun _ => rfl

/-! ## Reading -/

/-- A token that may be there is read on in both runs or in none. -/
theorem accept (hk : k ≠ .eof) : Agree X (accept k) (accept k) Eq :=
  .checkThen (.next (.advance fun _ hc he => hk (hc.symm.trans he)) (.pure rfl rfl)) (.pure rfl rfl)

/-- A token that may be there decides what is read. -/
theorem acceptThen {q q' : Parser α} (hk : k ≠ .eof) (hp : Agree X p p' S) (hq : Agree X q q' S) :
    Agree X (Parser.accept k >>= fun b => if b = true then p else q)
      (Parser.accept k >>= fun b => if b = true then p' else q') S := by
  refine (accept hk).bind ?_
  rintro b _ rfl
  exact .ite hp hq

/-- A token of one of the allowed kinds is read. -/
theorem expect {allowed : List Kind} (h : .eof ∉ allowed) : Agree X (expect allowed context)
    (expect allowed context) fun t t' => TokenLike X.view t t' ∧ t.kind ∈ allowed := by
  refine .and_ensures (ahead fun k => ?_) (.expect fun _ _ hk => hk)
  split
  · rename_i hk
    exact .advance fun c hc he => h (by simpa [← hc.2, he] using hk)
  · exact fail.on

/-- A symbol that has to be there. -/
theorem expectSymbol {s : Symbol} : Agree X (expectSymbol s context) (expectSymbol s context)
    (TokenLike X.view) := (expect (by simp)).mono fun _ _ => And.left

/-- A word that names a property. It may be a keyword, of which only what the view shows is compared. -/
theorem propertyWord : Agree X (propertyWord context) (propertyWord context) (TokenLike X.view) := by
  refine .ahead fun k => ?_
  split
  · rename_i hk
    exact .advance fun c hc he => by rw [← hc.2, he] at hk; cases hk
  · exact fail.on

/-- A name that is bound has one spelling. -/
theorem identifier : Agree X (identifier context) (identifier context) (Like (Ident.view X.view)) := by
  refine (expect (by simp)).bind fun t t' ht => .pure ?_ rfl
  have hkind : t.kind = .identifier := List.mem_singleton.mp ht.2
  exact .ident (ht.1.text (by rw [hkind]; rfl)) ht.1.span

/-! ## Repetition -/

/-- What a repetition does after one round. -/
def manyRest (item : Parser (Option α)) : List Token → Option α → Parser (List α)
  | _, none => return []
  | [], some a => return [a]
  | _ :: budget, some a => return a :: (← Parser.manyWithin item budget)

/-- A repetition is its first item and what follows that. -/
theorem manyWithin_eq (item : Parser (Option α)) (budget : List Token) :
    Parser.manyWithin item budget = item >>= manyRest item budget := by
  cases budget with
  | nil =>
    rw [Parser.manyWithin]
    congr
    funext o
    cases o <;> rfl
  | cons t budget =>
    rw [Parser.manyWithin]
    congr
    funext o
    cases o <;> rfl

instance {item : Parser (Option α)} [Forward item] {budget : List Token} {o : Option α} :
    Forward (manyRest item budget o) := by
  cases o <;> cases budget <;> unfold manyRest <;> infer_instance

/-- Items are compared round by round. The rounds of the first run are bounded by the tokens that are left, and those of
the second one by as many: each item has read a token. -/
theorem manyWithin {item' : Parser (Option α)} [hm : Moving item] (h : Agree X item item' (Like (Option.map f)))
    (budget : List Token) {budget' : List Token} {c' : Cursor} (hc : X.near c c') (hb : c.rest.length ≤ budget.length)
    (hb' : c.rest.length ≤ budget'.length + X.bound) :
    X.Outcome (Like (List.map f)) (Parser.manyWithin item budget c) (Parser.manyWithin item' budget' c') := by
  have := h.forward
  induction budget generalizing budget' c c' with
  | nil =>
    rw [manyWithin_eq, manyWithin_eq]
    refine AgreeOn.outcome_bind (h.run c c' trivial hc) (fun o d _ => Forward.le d) fun o d o' d' hitem ho hd => ?_
    cases o with
    | none =>
      obtain rfl : o' = none := Option.map_eq_none_iff.mp ho.symm
      exact .inr ⟨rfl, by cases budget' <;> exact hd⟩
    | some a =>
      have := hm.lt c a d hitem
      rw [List.length_nil] at hb
      omega
  | cons t budget ih =>
    rw [manyWithin_eq, manyWithin_eq]
    refine AgreeOn.outcome_bind (h.run c c' trivial hc) (fun o d _ => Forward.le d) fun o d o' d' hitem ho hd => ?_
    cases o with
    | none =>
      obtain rfl : o' = none := Option.map_eq_none_iff.mp ho.symm
      exact .inr ⟨rfl, by cases budget' <;> exact hd⟩
    | some a =>
      obtain ⟨a', rfl, ha⟩ := Option.map_eq_some_iff.mp ho.symm
      have hlt := hm.lt c a d hitem
      rw [List.length_cons] at hb
      by_cases hlost : d.rest.length < X.bound
      · exact .inl (Nat.lt_of_le_of_lt (Forward.le (p := manyRest item (t :: budget) (some a)) d) hlost)
      cases budget' with
      | nil =>
        rw [List.length_nil] at hb'
        omega
      | cons t' budget' =>
        rw [List.length_cons] at hb'
        refine AgreeOn.outcome_bind (ih hd (by omega) (by omega))
          (fun _ d _ => Forward.le d) fun as e as' e' _ has he => ?_
        exact .inr ⟨.cons ha.symm has, he⟩

/-- Repetition: the lists of items look alike item by item. By induction on the tokens that are left, since an item
that goes on has read one. -/
theorem many {item' : Parser (Option α)} [Moving item] (h : Agree X item item' (Like (Option.map f))) :
    Agree X (many item) (many item') (Like (List.map f)) where
  le c _ := by
    have := h.forward
    exact Forward.le c
  self _ _ _ _ _ := rfl
  run c c' _ hc := h.manyWithin c.rest hc (Nat.le_refl _) (X.length hc)

/-- Semicolons are skipped as long as there are any. -/
theorem skipSemicolons : Agree X skipSemicolons skipSemicolons Eq := by
  refine (many (f := id) ?_).bind fun _ _ _ => .pure rfl rfl
  exact .acceptThen nofun (.pure rfl rfl) (.pure rfl rfl)

/-- Items that follow one another after commas. -/
theorem commaItem {item item' : Parser α} (h : Agree X item item' (Like f)) :
    Agree X (do if ← Parser.accept (.symbol .comma) then return some (← item) else return none)
      (do if ← Parser.accept (.symbol .comma) then return some (← item') else return none) (Like (Option.map f)) :=
  .acceptThen nofun (h.bind fun _ _ ha => .pure ha.some rfl) (.pure rfl rfl)

/-- Items behind commas. -/
theorem afterCommas {item item' : Parser α} (h : Agree X item item' (Like f)) :
    Agree X (afterCommas item) (afterCommas item') (Like (List.map f)) := by
  have := h.forward
  exact many (commaItem h)

/-- Items with commas between them, in brackets. -/
theorem commaList {closing : Symbol} {item item' : Parser α} (h : Agree X item item' (Like f)) :
    Agree X (commaList closing item) (commaList closing item') (Like (List.map f)) := by
  have := h.forward
  refine .checkThen (.pure rfl rfl) ?_
  refine h.bind fun a a' ha => (many (f := f) ?_).bind fun as as' has => .pure (ha.cons has) rfl
  exact .acceptThen nofun (.checkThen (.pure rfl rfl) (h.bind fun _ _ ha => .pure ha.some rfl)) (.pure rfl rfl)

/-! ## The token after the next -/

/-- Brackets are a pair in both runs or in none. -/
theorem brackets : Agree X brackets brackets Eq := by
  have heq : Parser.brackets = (do
      let b ← (fun c =>
        .ok (decide (c.peek.kind = .symbol .leftBracket ∧ (c.peekNth 1).kind = .symbol .rightBracket)) c : Parser Bool)
      if b then
        let _ ← Parser.advance
        let _ ← Parser.advance
        return some "[]"
      else return none) := by
    funext c
    show (if _ then _ else _ : Parser (Option String)) c = (if _ then _ else _ : Parser (Option String)) c
    simp only [decide_eq_true_eq]
  rw [heq]
  refine (look (S := Eq) _ _ (fun c c' hc hb => ?_) fun _ => rfl).bindOn Ensures.look ?_
  · rw [(X.peek hc hb).kind]
    rcases X.second hc hb with hkind | ⟨-, -, hend, hne⟩
    · rw [hkind]
    · simp [hend, hne]
  · rintro b _ rfl
    cases b with
    | false => exact .pure rfl rfl
    | true =>
      refine (AgreeOn.advance fun c hc => ?_).bindOn (Q := fun _ c => c.peek.kind = .symbol .rightBracket)
        (.advance fun c hc => ?_) fun _ _ _ => .next (.advance fun c hc => ?_) (.pure rfl rfl)
      · rw [(of_decide_eq_true hc.2).1]
        decide
      · rw [Cursor.peek_advance]
        exact (of_decide_eq_true hc.2).2
      · rw [hc]
        decide

/-- The name of a type with its brackets, of which the view may hide how a keyword in it is spelt. -/
theorem typeName : Agree X typeName typeName (Like (Ident.viewBy X.view X.view.type)) := by
  have hlists : Agree X (Parser.many Parser.brackets) (Parser.many Parser.brackets) fun lists lists' =>
      Like (List.map id) lists lists' ∧ ∀ s ∈ lists, s = "[]" := by
    refine (many (brackets.mono fun o o' ho => congrArg (Option.map id) ho)).and_ensures ?_
    refine (Ensures.many (P := fun _ => True) ?_).mono fun _ _ h => h.1
    refine Ensures.bind Ensures.get fun c => Ensures.ite (fun _ => ?_) fun _ => Ensures.pure fun _ _ => ⟨nofun, trivial⟩
    refine .bind (.advance (Q := fun _ _ => True) fun _ _ => trivial) fun _ => ?_
    refine .bind (.advance (Q := fun _ _ => True) fun _ _ => trivial) fun _ => .pure fun _ _ => ?_
    exact ⟨fun s hs => (Option.some.inj hs).symm, trivial⟩
  rw [typeName_eq]
  refine position.bind fun start start' hstart => (expect (by decide)).bind fun t t' ht =>
    hlists.bind fun lists lists' hl => ?_
  refine (spanFrom hstart).bind fun s s' hs => .pure (.ident ?_ hs) rfl
  obtain rfl : lists = lists' := by simpa [Like] using hl.1
  rw [List.eq_replicate_iff.mpr ⟨rfl, hl.2⟩]
  exact ht.1.type ht.2 _

/-- A type behind its colon, if there is one. -/
theorem optionalType : Agree X optionalType optionalType (Like (Option.map (Ident.viewBy X.view X.view.type))) :=
  .acceptThen nofun (typeName.bind fun _ _ ht => .pure ht.some rfl) (.pure rfl rfl)

/-- Whether a name follows the next token is the same in both runs, or else the first run ends without a further
token. -/
theorem nextName (F F' : Bool → Parser α) (h : ∀ b, Agree X (F b) (F' b) S) (hread : Progress (F false)) :
    Agree X (do let c ← get; F ((c.peekNth 1).kind.isWord || (c.peekNth 1).kind == .symbol .hash))
      (do let c ← get; F' ((c.peekNth 1).kind.isWord || (c.peekNth 1).kind == .symbol .hash)) S where
  le c _ := (h _).le c trivial
  self c a d _ hrun := (h _).self c a d trivial hrun
  run c c' _ hc := by
    show X.Outcome S (F ((c.peekNth 1).kind.isWord || (c.peekNth 1).kind == .symbol .hash) c)
      (F' ((c'.peekNth 1).kind.isWord || (c'.peekNth 1).kind == .symbol .hash) c')
    by_cases hb : X.bound ≤ c.rest.length
    · rcases X.second hc hb with hkind | ⟨hlenient, hlength, hend, -⟩
      · rw [hkind]
        exact (h _).run c c' trivial hc
      · rw [hend]
        show X.Outcome S (F false c) _
        cases hrun : F false c with
        | ok a d => exact .inl (hlength ▸ hread.lt c a d hrun)
        | error e d =>
          refine .inr ?_
          cases F' ((c'.peekNth 1).kind.isWord || (c'.peekNth 1).kind == .symbol .hash) c' with
          | ok => exact hlenient
          | error => exact .inl hlenient
    · exact .inl (Nat.lt_of_le_of_lt ((h _).le c trivial) (Nat.lt_of_not_le hb))

/-! ## Line breaks -/

/-- A break in front of an operator that steps a variable is there in both runs or in none. -/
theorem updateLine {q q' : UpdateOp → Bool → Parser α} (hp : Agree X p p' S)
    (hq : ∀ op b, AgreeOn X (updateOp? ·.peek.kind = some op) (q op b) (q' op b) S) :
    Agree X (do match updateOp? (← Parser.kind) with | none => p | some op => q op (← onNewLine))
      (do match updateOp? (← Parser.kind) with | none => p' | some op => q' op (← onNewLine)) S := by
  let line (c : Cursor) : Option (UpdateOp × Bool) := (updateOp? c.peek.kind).map fun op => (op, c.onNewLine)
  have heq (p : Parser α) (q : UpdateOp → Bool → Parser α) :
      (do match updateOp? (← Parser.kind) with | none => p | some op => q op (← onNewLine)) =
        (fun c => .ok (line c) c) >>= fun o => o.elim p fun x => q x.1 x.2 := by
    funext c
    show (match updateOp? c.peek.kind with | none => p | some op => onNewLine >>= q op) c =
      ((line c).elim p fun x => q x.1 x.2) c
    unfold line
    cases updateOp? c.peek.kind <;> rfl
  rw [heq, heq]
  refine (look (S := Eq) _ _ (fun c c' hc hb => ?_) fun _ => rfl).bindOn Ensures.look ?_
  · have hkind := (X.peek hc hb).kind
    have hline := X.updateLine hc hb
    unfold line
    rw [← hkind]
    cases hop : updateOp? c.peek.kind with
    | none => rfl
    | some op => rw [Option.map_some, Option.map_some, hline (by rw [hop]; rfl)]
  · rintro o _ rfl
    cases o with
    | none => exact hp.on
    | some x =>
      refine (hq x.1 x.2).on fun c hc => ?_
      obtain ⟨op, hop, rfl⟩ := Option.map_eq_some_iff.mp hc.2
      exact hop

/-- A break behind the word for a return is there in both runs or in none, unless the end follows. -/
theorem returnLine {q q' : Kind → Bool → Parser α} (hq : ∀ k b b', (k ≠ .eof → b = b') → Agree X (q k b) (q' k b') S) :
    Agree X (do let _ ← Parser.expect [.keyword .retorne] context; q (← Parser.kind) (← onNewLine))
      (do let _ ← Parser.expect [.keyword .retorne] context; q' (← Parser.kind) (← onNewLine)) S where
  le c _ := by
    have hle (k : Kind) (b : Bool) : Forward (q k b) := (hq k b b fun _ => rfl).forward
    exact Forward.le (p := Parser.expect [.keyword .retorne] context >>= fun _ => Parser.kind >>= fun k =>
      onNewLine >>= q k) c
  self c a d _ h := by
    obtain ⟨t, c₁, -, h⟩ := ok_of_bind h
    exact (hq _ _ _ fun _ => rfl).self c₁ a d trivial h
  run c c' _ hc := by
    have hprevious : Ensures (fun _ => True) (Parser.expect [.keyword .retorne] context)
        fun _ d => d.previous.map Token.kind = some (.keyword .retorne) := by
      refine .expect fun c _ hk => ?_
      obtain ⟨previous, rest⟩ := c
      cases rest with
      | nil => cases List.mem_singleton.mp hk
      | cons t ts => exact congrArg some (List.mem_singleton.mp hk)
    have hle (k : Kind) (b : Bool) : Forward (q k b) := (hq k b b fun _ => rfl).forward
    refine AgreeOn.outcome_bind ((expect (by simp)).run c c' trivial hc) (fun _ d _ => (hle _ _).le d)
      fun t d t' d' ht _ hd => ?_
    show X.Outcome S (q d.peek.kind d.onNewLine d) (q' d'.peek.kind d'.onNewLine d')
    by_cases hb : X.bound ≤ d.rest.length
    · rw [← (X.peek hd hb).kind]
      exact (hq _ _ _ (X.returnLine hd hb (hprevious c t d trivial ht))).run d d' trivial hd
    · exact .inl (Nat.lt_of_le_of_lt ((hle _ _).le d) (Nat.lt_of_not_le hb))

end Agree

/-! ## Rounds -/

namespace Parser

/-- Any bound is enough that allows a round for each token that is left. -/
theorem manyWithin_budget [hm : Moving item] (budget : List Token) {budget' : List Token}
    (hb : c.rest.length ≤ budget.length) (hb' : c.rest.length ≤ budget'.length) :
    manyWithin item budget c = manyWithin item budget' c := by
  induction budget generalizing budget' c with
  | nil =>
    rw [Agree.manyWithin_eq, Agree.manyWithin_eq]
    cases hitem : item c with
    | error e d => rw [bind_error hitem, bind_error hitem]
    | ok o d =>
      rw [bind_ok hitem, bind_ok hitem]
      cases o with
      | none => cases budget' <;> rfl
      | some a => exact absurd (Nat.lt_of_lt_of_le (hm.lt c a d hitem) hb) (Nat.not_lt_zero _)
  | cons t budget ih =>
    rw [Agree.manyWithin_eq, Agree.manyWithin_eq]
    cases hitem : item c with
    | error e d => rw [bind_error hitem, bind_error hitem]
    | ok o d =>
      rw [bind_ok hitem, bind_ok hitem]
      cases o with
      | none => cases budget' <;> rfl
      | some a =>
        have hlt := hm.lt c a d hitem
        cases budget' with
        | nil => exact absurd (Nat.lt_of_lt_of_le hlt hb') (Nat.not_lt_zero _)
        | cons t' budget' =>
          rw [List.length_cons] at hb hb'
          have hrest : manyWithin item budget d = manyWithin item budget' d := ih (by omega) (by omega)
          simp only [Agree.manyRest, Bind.bind, EStateM.bind, hrest]

/-- What a loop does after one round. -/
def again (item : Parser (Option α)) : Option α → Parser (List α)
  | none => return []
  | some a => return a :: (← many item)

/-- A loop is a round and then the loop again: the bound on its rounds is never met. -/
theorem many_step [hm : Moving item] (c : Cursor) : many item c = (item >>= again item) c := by
  show manyWithin item c.rest c = _
  rw [Agree.manyWithin_eq]
  cases hitem : item c with
  | error e d => rw [bind_error hitem, bind_error hitem]
  | ok o d =>
    rw [bind_ok hitem, bind_ok hitem]
    cases o with
    | none => cases c.rest <;> rfl
    | some a =>
      have hlt := hm.lt c a d hitem
      cases hrest : c.rest with
      | nil =>
        rw [hrest] at hlt
        exact absurd hlt (Nat.not_lt_zero _)
      | cons t ts =>
        rw [hrest, List.length_cons] at hlt
        have hloop : manyWithin item ts d = manyWithin item d.rest d :=
          manyWithin_budget ts (Nat.le_of_lt_succ hlt) (Nat.le_refl d.rest.length)
        simp only [Agree.manyRest, again, Bind.bind, EStateM.bind, hloop]
        rfl

end Parser

end Vernacular
