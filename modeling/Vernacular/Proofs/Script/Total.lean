import Vernacular.Proofs.Grammar.Sound
import Vernacular.Proofs.Script.Code
import Vernacular.Proofs.Token.Lossless
import Vernacular.Proofs.Tree.Normal
import Vernacular.Proofs.Tree.Shown
import Vernacular.Compiler

/-!
# Generation never fails on what was read

Trees that keep their promises have code, and it is the text that `Expr.code` and `Stmt.code` give: generation of a text
gives it (`Counted.Shows`), generation of lines adds it to the layout (`Emit.Writes`). Whatever breaks a promise is an
error, at any depth. So where generation succeeds, the tree has kept those promises that show in its code.

- `Layout.closeWith_opened`: a block that was opened and filled is closed around its lines;
- `Expr.shows_render`, `Stmt.writes_emit`: when there is code, and which, by induction on the tree;
- `compile_ne_generation`: no source fails in the last stage.
-/

namespace Vernacular

variable {α β ε σ : Type} {kept P Q : Prop}
variable {act inside : Emit Unit} {header : String} {margin : Margin}

/-! ## Texts -/

/-- The run succeeds as `Q` says, or it fails, as it cannot if `kept` holds. -/
def EndsIn (kept : Prop) (r : EStateM.Result ε σ α) (Q : α → σ → Prop) : Prop :=
  (∃ a s, r = .ok a s ∧ Q a s) ∨ ∃ e s, r = .error e s ∧ ¬ kept

/-- One action after another. What the first one ends with is known when the second one begins. -/
theorem EndsIn.bind {act : EStateM ε σ α} {f : α → EStateM ε σ β} {s : σ} {Q : α → σ → Prop} {R : β → σ → Prop}
    (h : EndsIn kept (act s) Q) (hf : ∀ a s', Q a s' → EndsIn kept (f a s') R) : EndsIn kept ((act >>= f) s) R := by
  rcases h with ⟨a, s₁, hact, ha⟩ | ⟨e, s₁, hact, hk⟩
  · rcases hf a s₁ ha with ⟨b, s₂, hrun, hb⟩ | ⟨e, s₂, hrun, hk⟩
    · exact .inl ⟨b, s₂, by simp only [Bind.bind, EStateM.bind, hact, hrun], hb⟩
    · exact .inr ⟨e, s₂, by simp only [Bind.bind, EStateM.bind, hact, hrun], hk⟩
  · exact .inr ⟨e, s₁, by simp only [Bind.bind, EStateM.bind, hact], hk⟩

theorem EndsIn.imp {r : EStateM.Result ε σ α} {Q R : α → σ → Prop} (h : EndsIn kept r Q) (hq : ∀ a s, Q a s → R a s) :
    EndsIn kept r R := Or.imp (fun ⟨a, s, hr, ha⟩ => ⟨a, s, hr, hq a s ha⟩) id h

/-- The generation gives `a`, whatever has been counted. -/
def Counted.Gives (act : Counted α) (a : α) : Prop := ∀ tally, ∃ tally', act tally = .ok a tally'

/-- The generation gives `a` where it succeeds, as it does if `kept` holds, and then `P` holds. -/
def Counted.Shows (kept : Prop) (act : Counted α) (a : α) (P : Prop) : Prop :=
  ∀ tally, EndsIn kept (act tally) fun a' _ => a' = a ∧ P

namespace Counted.Shows

variable {act : Counted α} {f : α → Counted β} {a : α} {b : β}

/-- A value that is there at once. -/
theorem pure (a : α) (h : P) : Shows kept (pure a) a P := fun tally => .inl ⟨a, tally, rfl, rfl, h⟩

/-- An error, where a promise has been broken. -/
theorem throw {e : GenerationError} (h : ¬ kept) : Shows kept (throw e) a P := fun tally => .inr ⟨e, tally, rfl, h⟩

/-- One action after another. -/
theorem bind (h : act.Shows kept a P) (hf : P → (f a).Shows kept b Q) : Shows kept (act >>= f) b Q := by
  intro tally
  refine (h tally).bind ?_
  rintro _ tally' ⟨rfl, hp⟩
  exact hf hp tally'

/-- Where all promises are kept there is no error. -/
theorem gives (h : act.Shows True a P) : act.Gives a := by
  intro tally
  rcases h tally with ⟨_, tally', hrun, rfl, -⟩ | ⟨_, _, -, hk⟩
  · exact ⟨tally', hrun⟩
  · exact absurd trivial hk

/-- Where there is a result it is the one that was told, and the promises that show have been kept. -/
theorem of_ok (h : act.Shows kept a P) {a' : α} {tally tally' : Tally} (hrun : act tally = .ok a' tally') :
    P ∧ a' = a := by
  rcases h tally with ⟨_, _, hact, rfl, hp⟩ | ⟨_, _, hact, -⟩ <;> rw [hrun] at hact <;> cases hact
  exact ⟨hp, rfl⟩

end Counted.Shows

/-- Expressions are counted before they are generated. -/
theorem Role.counted (role : Role) (e : Expr) {act : Counted α} {a : α} (h : act.Shows kept a P) :
    Counted.Shows kept (role.count e >>= fun _ => act) a P := by
  have hone : Counted.Shows kept Counted.expression () True := fun tally => .inl ⟨_, _, rfl, rfl, trivial⟩
  have hcount : Counted.Shows kept (role.count e) () True := by
    unfold Role.count
    split
    · split
      · exact .pure () trivial
      · exact hone
    · split
      · exact .pure () trivial
      · exact hone
    · exact hone
  exact hcount.bind fun _ => h

/-! ## Blocks in a layout -/

namespace Layout

/-- Texts that are added one after the other. -/
@[simp] theorem push_push (l : Layout) (s t : String) : (l.push s).push t = l.push (s ++ t) := by
  simp only [push, String.append_assoc]

/-- A block that begins behind the text `t`. -/
def opened (l : Layout) (t : String) : Layout := (l.push (t ++ (r"{" ++ "\n"))).mark

/-- A block is opened behind its header, which may be empty. -/
theorem openBlock_eq_opened (l : Layout) (header : String) :
    l.openBlock header = l.opened (l.margin.text ++ (if header = "" then "" else header ++ " ")) := by
  have hheader : (if header.isEmpty then r"{" else header ++ r" {") ++ "\n"
      = (if header = "" then "" else header ++ " ") ++ (r"{" ++ "\n") := by
    by_cases h : header = ""
    · simp [h]
    · simp only [h, String.isEmpty_iff, if_false, String.append_assoc]
      rfl
  simp only [openBlock, line, indent, newline, opened, push_push, String.append_assoc, hheader]

theorem dropLastChar_append (s : String) (c : Char) : dropLastChar (s ++ String.singleton c) = s := by
  simp [dropLastChar]

/-- A filled block is closed around its lines. -/
theorem closeWith_opened (l : Layout) (t lines trailer : String) :
    ((l.opened t).push lines).closeWith trailer = l.push (t ++ braced l.margin lines ++ trailer ++ "\n") := by
  have hsize : ((l.opened t).push lines).marks.head? = some ((l.opened t).push lines).code.utf8ByteSize
      ↔ lines = "" := by
    simp only [opened, mark, push, deepen, List.head?_cons, Option.some.injEq, String.utf8ByteSize_append]
    rw [← String.utf8ByteSize_eq_zero_iff]
    omega
  unfold closeWith
  by_cases h : lines = ""
  · rw [if_pos (hsize.mpr h)]
    subst h
    have hcode : ((l.opened t).push "").code = (l.code ++ t ++ r"{") ++ String.singleton '\n' := by
      simp only [opened, mark, push, deepen, String.append_empty, String.append_assoc]
      rfl
    rw [hcode, dropLastChar_append]
    simp only [opened, mark, push, deepen, raise, braced, if_pos, String.append_assoc]
    rfl
  · rw [if_neg fun hc => h (hsize.mp hc)]
    simp only [opened, mark, push, deepen, raise, braced, h, if_false, line, indent, newline, String.append_assoc]
    rfl

/-- A block that is closed and opened again behind another header. -/
theorem reopen_opened (l : Layout) (t lines header : String) :
    ((l.opened t).push lines).reopen header = l.opened (t ++ braced l.margin lines ++ " " ++ header ++ " ") := by
  have htrailer : " " ++ header ++ r" {" ++ "\n" = " " ++ header ++ " " ++ (r"{" ++ "\n") := by
    simp only [String.append_assoc]
    rfl
  rw [reopen, closeWith_opened, opened, String.append_assoc, htrailer]
  simp only [String.append_assoc]

end Layout

/-! ## Lines -/

theorem append_paren_space (s : String) : s ++ ")" ++ " " = s ++ ") " := by
  rw [String.append_assoc]
  rfl

namespace Emit

variable (kept) (margin)

/-- On a page with this margin, also inside of expressions, the generation gives `a` and changes no more than the count
where it succeeds, as it does if `kept` holds, and then `P` holds. -/
def Tells (act : Emit α) (a : α) (P : Prop) : Prop :=
  ∀ (l : Layout) (tally : Tally), l.margin = margin → EndsIn kept (act ⟨l, margin.unit, tally⟩) fun a' p =>
    a' = a ∧ (∃ tally', p = ⟨l, margin.unit, tally'⟩) ∧ P

/-- On a page with this margin, also inside of expressions, the generation adds a text. -/
def Writes (act : Emit Unit) (text : String) (P : Prop) : Prop :=
  ∀ (l : Layout) (tally : Tally), l.margin = margin → EndsIn kept (act ⟨l, margin.unit, tally⟩) fun _ p =>
    (∃ tally', p = ⟨l.push text, margin.unit, tally'⟩) ∧ P

/-- In a block that is open, the generation adds a text to the block in its braces. -/
def Continues (act : Emit Unit) (text : String) (P : Prop) : Prop :=
  ∀ (l : Layout) (t lines : String) (tally : Tally), l.margin = margin →
    EndsIn kept (act ⟨(l.opened t).push lines, margin.unit, tally⟩) fun _ p => ∃ t' lines' tally',
      p = ⟨(l.opened t').push lines', margin.unit, tally'⟩ ∧
        t' ++ braced margin lines' = t ++ braced margin lines ++ text ∧ P

variable {kept margin}

/-- A text is generated with the margin of the page. -/
theorem Tells.text {f : Margin → Counted α} {a : α} (h : (f margin).Shows kept a P) :
    Tells kept margin (text f) a P := by
  rintro l tally rfl
  rcases h tally with ⟨_, tally', ht, rfl, hp⟩ | ⟨e, tally', ht, hk⟩
  · exact .inl ⟨_, ⟨l, l.margin.unit, tally'⟩, by simp only [Emit.text, Page.margin, ht], rfl, ⟨tally', rfl⟩, hp⟩
  · exact .inr ⟨e, ⟨l, l.margin.unit, tally'⟩, by simp only [Emit.text, Page.margin, ht], hk⟩

theorem Tells.pure (a : α) (h : P) : Tells kept margin (pure a) a P :=
  fun _ tally _ => .inl ⟨a, _, rfl, rfl, ⟨tally, rfl⟩, h⟩

/-- What is told first is known afterwards. -/
theorem Tells.bind {act : Emit α} {f : α → Emit β} {a : α} {b : β} (h : Tells kept margin act a P)
    (hf : P → Tells kept margin (f a) b Q) : Tells kept margin (act >>= f) b Q := by
  intro l tally hm
  refine (h l tally hm).bind ?_
  rintro _ _ ⟨rfl, ⟨tally', rfl⟩, hp⟩
  exact hf hp l tally' hm

/-- What is told first decides what is written. -/
theorem Tells.writes {act : Emit α} {f : α → Emit Unit} {a : α} {text : String} (h : Tells kept margin act a P)
    (hf : P → Writes kept margin (f a) text Q) : Writes kept margin (act >>= f) text Q := by
  intro l tally hm
  refine (h l tally hm).bind ?_
  rintro _ _ ⟨rfl, ⟨tally', rfl⟩, hp⟩
  exact hf hp l tally' hm

theorem Writes.imp {text : String} (h : Writes kept margin act text P) (hq : P → Q) :
    Writes kept margin act text Q := fun l tally hm => (h l tally hm).imp fun _ _ h => ⟨h.1, hq h.2⟩

/-- An error writes no more. -/
theorem Writes.throw {e : GenerationError} {text : String} (h : ¬ kept) : Writes kept margin (throw e) text P :=
  fun _ _ _ => .inr ⟨e, _, rfl, h⟩

/-- Lines behind lines. -/
theorem Writes.append {act' : Emit Unit} {text text' : String} (h : Writes kept margin act text P)
    (h' : P → Writes kept margin act' text' Q) : Writes kept margin (act >>= fun _ => act') (text ++ text') Q := by
  intro l tally hm
  refine (h l tally hm).bind ?_
  rintro _ _ ⟨⟨tally', rfl⟩, hp⟩
  have hrest := h' hp (l.push text) tally' hm
  rwa [Layout.push_push] at hrest

theorem Writes.nothing (h : P) : Writes kept margin (pure ()) "" P :=
  fun _ tally _ => .inl ⟨(), _, rfl, ⟨tally, by simp only [Layout.push, String.append_empty]⟩, h⟩

/-- A line with its margin. -/
theorem Writes.line (code : String) (h : P) : Writes kept margin (line code) (margin.line code) P := by
  rintro l tally rfl
  refine .inl ⟨(), _, rfl, ⟨tally, ?_⟩, h⟩
  simp only [Margin.line, ← Layout.push_push]
  rfl

/-- What is generated inside a block is generated with the block around it. -/
theorem EndsIn.block {p : Page} {R : Page → Prop}
    (h : EndsIn kept (inside { p with layout := p.layout.openBlock header }) fun _ p' =>
      R { p' with layout := p'.layout.close }) :
    EndsIn kept (Emit.block header inside p) fun _ p' => R p' := by
  rcases h with ⟨_, p', hrun, hr⟩ | ⟨e, p', hrun, hk⟩
  · exact .inl ⟨(), { p' with layout := p'.layout.close }, by simp only [Emit.block, hrun], hr⟩
  · exact .inr ⟨e, { p' with layout := p'.layout.close }, by simp only [Emit.block, hrun], hk⟩

/-- Lines in braces, behind a header that may be empty. -/
theorem Writes.block {text : String} (h : Writes kept margin.deeper inside text P) (header : String) :
    Writes kept margin (block header inside)
      (margin.line ((if header = "" then "" else header ++ " ") ++ braced margin text)) P := by
  rintro l tally rfl
  refine EndsIn.block (R := fun p => (∃ tally', p = ⟨l.push _, _, tally'⟩) ∧ P) ?_
  rw [Layout.openBlock_eq_opened]
  refine (h (l.opened _) tally rfl).imp ?_
  rintro _ _ ⟨⟨tally', rfl⟩, hp⟩
  refine ⟨⟨tally', ?_⟩, hp⟩
  rw [Layout.close, Layout.closeWith_opened]
  simp only [Margin.line, String.append_assoc, String.append_empty]
  rfl

/-- Lines in braces behind a header. -/
theorem Writes.headed {text : String} (h : Writes kept margin.deeper inside text P) (hheader : header ≠ "") :
    Writes kept margin (Emit.block header inside) (margin.line (header ++ " " ++ braced margin text)) P := by
  have hb := h.block header
  rwa [if_neg hheader] at hb

/-- A block with branches behind it. -/
theorem Writes.branches {lines text : String} {first others : Emit Unit} (hheader : header ≠ "")
    (hfirst : Writes kept margin.deeper first lines P) (hothers : P → Continues kept margin others text Q) :
    Writes kept margin (Emit.block header (first >>= fun _ => others))
      (margin.line (header ++ " " ++ braced margin lines ++ text)) Q := by
  rintro l tally rfl
  refine EndsIn.block (R := fun p => (∃ tally', p = ⟨l.push _, _, tally'⟩) ∧ Q) ?_
  rw [Layout.openBlock_eq_opened, if_neg hheader]
  refine (hfirst (l.opened _) tally rfl).bind ?_
  rintro _ _ ⟨⟨tally', rfl⟩, hp⟩
  refine (hothers hp l _ lines tally' rfl).imp ?_
  rintro _ _ ⟨t, lines', tally'', rfl, ht, hq⟩
  refine ⟨⟨tally'', ?_⟩, hq⟩
  rw [Layout.close, Layout.closeWith_opened, ht]
  simp only [Margin.line, String.append_assoc, String.append_empty]

theorem Continues.imp {text : String} (h : Continues kept margin act text P) (hq : P → Q) :
    Continues kept margin act text Q := by
  intro l t lines tally hm
  refine (h l t lines tally hm).imp ?_
  rintro _ _ ⟨t', lines', tally', hl, ht, hp⟩
  exact ⟨t', lines', tally', hl, ht, hq hp⟩

/-- One more branch. -/
theorem Continues.branch (header : String) {lines : String} (h : Writes kept margin.deeper inside lines P) :
    Continues kept margin (layout (·.reopen header) >>= fun _ => inside)
      (" " ++ header ++ " " ++ braced margin lines) P := by
  rintro l t lines₀ tally rfl
  have hinside := h (l.opened (t ++ braced l.margin lines₀ ++ " " ++ header ++ " ")) tally rfl
  rw [← Layout.reopen_opened] at hinside
  refine EndsIn.imp hinside ?_
  rintro _ _ ⟨⟨tally', rfl⟩, hp⟩
  refine ⟨_, lines, tally', by rw [Layout.reopen_opened]; rfl, ?_, hp⟩
  simp only [String.append_assoc]

/-- More of a line that has been begun. -/
theorem Continues.append {act' : Emit Unit} {text text' : String} (h : Continues kept margin act text P)
    (h' : P → Continues kept margin act' text' Q) :
    Continues kept margin (act >>= fun _ => act') (text ++ text') Q := by
  intro l t lines tally hm
  refine (h l t lines tally hm).bind ?_
  rintro _ _ ⟨t₁, lines₁, tally₁, rfl, ht₁, hp⟩
  refine (h' hp l t₁ lines₁ tally₁ hm).imp ?_
  rintro _ _ ⟨t₂, lines₂, tally₂, hl, ht₂, hq⟩
  exact ⟨t₂, lines₂, tally₂, hl, by rw [ht₂, ht₁, String.append_assoc], hq⟩

theorem Continues.nothing (h : P) : Continues kept margin (pure ()) "" P :=
  fun _ t lines tally _ => .inl ⟨(), _, rfl, t, lines, tally, rfl, by rw [String.append_empty], h⟩

/-- A callable: its parameters are told before its block is opened, and are part of the header. -/
theorem Writes.callable {lines : String} {params : Emit (List String)} {codes : List String}
    (hp : Tells kept margin params codes P) (hi : Writes kept margin.deeper inside lines Q) :
    Writes kept margin (Emit.callable header params inside)
      (margin.line (callableCode margin header codes lines)) (P ∧ Q) := by
  have hne : header ++ "(" ++ commaSeparated codes ++ ")" ≠ "" := fun h => by
    simpa using congrArg String.toList h
  have h := hp.writes (f := fun codes => Emit.block (header ++ "(" ++ commaSeparated codes ++ ")") inside)
    fun hp => (hi.headed hne).imp fun hq => And.intro hp hq
  rwa [append_paren_space] at h

/-- Lines as a text. -/
theorem Writes.detached {lines : Emit Unit} {code : String} (h : Writes kept margin lines (margin.line code) P) :
    Counted.Shows kept (detached margin lines) (trimStart (margin.text ++ code)) P := by
  intro tally
  rcases h (.start margin) tally rfl with ⟨_, p, ht, ⟨tally', rfl⟩, hp⟩ | ⟨e, p, ht, hk⟩
  · have hcode : ((Layout.start margin).push (margin.line code)).code = margin.text ++ code ++
        String.singleton '\n' := by
      simp only [Layout.start, Layout.push, String.empty_append]
      rfl
    have hbuild : ((Layout.start margin).push (margin.line code)).build = margin.text ++ code := by
      rw [Layout.build, hcode, Layout.dropLastChar_append]
      simp
    exact .inl ⟨_, tally', by simp only [Emit.detached, ht, hbuild], rfl, hp⟩
  · exact .inr ⟨e, p.tally, by simp only [Emit.detached, ht], hk⟩

end Emit

/-! ## Trees -/

open Counted Emit

/-- Statements are counted before they are generated. -/
theorem Place.counted (place : Place) (s : Stmt) {text : String} (h : Writes kept margin act text P) :
    Writes kept margin (place.count s >>= fun _ => act) text P := by
  have hone : Tells kept margin Emit.statement () True := fun _ _ _ => .inl ⟨_, _, rfl, rfl, ⟨_, rfl⟩, trivial⟩
  have hcount : Tells kept margin (place.count s) () True := by
    unfold Place.count
    split
    · split
      · exact .pure () trivial
      · exact hone
    · exact hone
  exact hcount.writes fun _ => h

/-- The headers of the branches after the first. -/
def elseHeaderCodes (margin : Margin) : Option Stmt → List String
  | none => []
  | some (.ifElse test _ alternate _) => ("else if (" ++ test.code margin .value ++ ")") ::
      elseHeaderCodes margin alternate
  | some _ => ["else"]

/-- The conditions in the headers of the branches after the first keep their promises. -/
def HeadersShown (V : Lexicon) : Option Stmt → Prop
  | some (.ifElse test _ alternate _) => test.Shown V True ∧ HeadersShown V alternate
  | _ => True

/-- All lines of a statement. -/
def Stmt.linesAt (margin : Margin) (place : Place) (s : Stmt) : String :=
  match place with
  | .lines => margin.line (s.code margin .lines)
  | .inside => s.code margin .inside

/-- A statement that is one line is the same line in every place. -/
theorem Stmt.linesAt_eq {s : Stmt} {code : String} (h : ∀ place : Place, s.code margin place = place.put margin code)
    (place : Place) :
    s.linesAt margin place = margin.line code := by
  cases place with
  | lines => rw [linesAt, h]; rfl
  | inside => exact h .inside

variable {V : Lexicon}

/-- An alternative that is no condition has no header of its own. -/
theorem tells_elseHeaders_of_not_isIf {s : Stmt} (h : s.isIf = false) (margin : Margin) :
    Tells kept margin (elseHeaders (some s)) (elseHeaderCodes margin (some s)) (HeadersShown V (some s)) := by
  cases s with
  | ifElse => cases h
  | _ =>
    simp only [elseHeaders, elseHeaderCodes, HeadersShown]
    exact .pure _ trivial

/-- The last branch, if it is no condition again. -/
theorem continues_emitElse_of_not_isIf {s : Stmt} (h : s.isIf = false)
    (hs : Writes kept margin.deeper (s.emit .inside) (s.linesAt margin.deeper .inside) P) :
    Continues kept margin (emitElse (elseHeaderCodes margin (some s)) (some s)) (elseCode margin (some s)) P := by
  have hbranch := Continues.branch "else" hs
  cases s with
  | ifElse => cases h
  | _ =>
    simp only [elseHeaderCodes, emitElse, elseCode]
    exact hbranch

mutual

/-- When an expression has a text, and which: the text is `Expr.code`, and there is none exactly if a promise that
shows is broken somewhere inside. By induction on the tree; `kept` is what is known of those promises beforehand, so
that one induction serves both trees that keep them and trees of which nothing is known. -/
theorem Expr.shows_render (margin : Margin) (role : Role) : ∀ e : Expr, e.Shown V kept →
    Shows kept (e.render margin role) (e.code margin role) (e.Shown V True)
  | .literal value s, h => by
    rw [Expr.render, Expr.code]
    exact role.counted _ (.pure _ h)
  | .ident n s, h => by
    rw [Expr.render, Expr.code]
    exact role.counted _ (.pure _ h)
  | .this s, _ => by
    rw [Expr.render, Expr.code]
    exact role.counted _ (.pure _ trivial)
  | .super s, _ => by
    rw [Expr.render, Expr.code]
    exact role.counted _ (.pure _ trivial)
  | .array items s, h => by
    rw [Expr.render, Expr.code]
    exact role.counted _ ((shows_renderExprs margin items h).bind (.pure _))
  | .object [] s, h => by
    rw [Expr.render, Expr.code]
    exact role.counted _ (.pure _ trivial)
  | .object (p :: ps) s, h => by
    rw [Expr.render, Expr.code]
    · exact role.counted _ ((shows_renderProperties margin (p :: ps) h).bind (.pure _))
    · exact List.cons_ne_nil p ps
    · exact List.cons_ne_nil p ps
  | .function ⟨name, params, result, some ⟨body, s⟩, s'⟩, h => by
    rw [Expr.render, Expr.code, bodyLines]
    have hparams := Tells.text (f := fun m => bindingTexts m params) (shows_bindingTexts margin params h.2.2.1)
    refine role.counted _ (Writes.detached
      (.imp (.callable hparams (writes_emitAll margin.deeper body h.2.2.2)) fun hc => ?_))
    exact ⟨fun _ => rfl, h.2.1, hc⟩
  | .function ⟨_, _, _, none, _⟩, h => by
    rw [Expr.render]
    exact role.counted _ (.throw fun hk => nomatch h.1 hk)
  | .unary op operand s, h => by
    rw [Expr.render, Expr.code]
    exact role.counted _ ((operand.shows_render margin .value h).bind (.pure _))
  | .update op before target s, h => by
    rw [Expr.render, Expr.code]
    refine role.counted _ ?_
    split
    · rename_i htarget
      exact (target.shows_render margin .value h.2).bind fun ht => .pure _ ⟨fun _ => htarget, ht⟩
    · exact .throw fun hk => ‹¬ _› (h.1 hk)
  | .binary op left right s, h => by
    rw [Expr.render, Expr.code]
    exact role.counted _ ((left.shows_render margin .value h.1).bind fun hl =>
      (right.shows_render margin .value h.2).bind fun hr => .pure _ ⟨hl, hr⟩)
  | .assign op target value s, h => by
    rw [Expr.render, Expr.code]
    refine role.counted _ ?_
    split
    · rename_i htarget
      exact (target.shows_render margin .value h.2.1).bind fun ht =>
        (value.shows_render margin .value h.2.2).bind fun hv => .pure _ ⟨fun _ => htarget, ht, hv⟩
    · exact .throw fun hk => ‹¬ _› (h.1 hk)
  | .call callee args optional s, h => by
    rw [Expr.render, Expr.code]
    exact role.counted _ ((callee.shows_render margin .callee h.1).bind fun hc =>
      (shows_renderExprs margin args h.2).bind fun ha => .pure _ ⟨hc, ha⟩)
  | .new callee args s, h => by
    rw [Expr.render, Expr.code]
    exact role.counted _ ((callee.shows_render margin .value h.1).bind fun hc =>
      (shows_renderExprs margin args h.2).bind fun ha => .pure _ ⟨hc, ha⟩)
  | .member object name optional s, h => by
    rw [Expr.render, Expr.code]
    exact role.counted _ ((object.shows_render margin .value h.1).bind fun ho => .pure _ ⟨ho, h.2⟩)
  | .index object key optional s, h => by
    rw [Expr.render, Expr.code]
    exact role.counted _ ((object.shows_render margin .value h.1).bind fun ho =>
      (key.shows_render margin .value h.2).bind fun hk => .pure _ ⟨ho, hk⟩)

/-- Expressions in a row. -/
theorem shows_renderExprs (margin : Margin) : ∀ es : List Expr, ExprsShown V kept es →
    Shows kept (renderExprs margin es) (exprCodes margin es) (ExprsShown V True es)
  | [], _ => .pure _ trivial
  | e :: es, h => by
    rw [renderExprs, exprCodes]
    exact (e.shows_render margin .value h.1).bind fun he => (shows_renderExprs margin es h.2).bind fun hes =>
      .pure _ ⟨he, hes⟩

theorem shows_renderProperties (margin : Margin) : ∀ ps : List Property, PropertiesShown V kept ps →
    Shows kept (renderProperties margin ps) (propertyCodes margin ps) (PropertiesShown V True ps)
  | [], _ => .pure _ trivial
  | ⟨key, value, _⟩ :: ps, h => by
    rw [renderProperties, propertyCodes]
    exact (value.shows_render margin .value h.1.2).bind fun hv =>
      (shows_renderProperties margin ps h.2).bind fun hps => .pure _ ⟨⟨h.1.1, hv⟩, hps⟩

/-- Bindings, with their values. -/
theorem shows_bindingTexts (margin : Margin) : ∀ bs : List Binding, BindingsShown V kept bs →
    Shows kept (bindingTexts margin bs) (bindingCodes margin bs) (BindingsShown V True bs)
  | [], _ => .pure _ trivial
  | ⟨id, _, none, _⟩ :: bs, h => by
    rw [bindingTexts, bindingCodes]
    exact (shows_bindingTexts margin bs h.2).bind fun hbs => .pure _ ⟨⟨h.1.1, trivial⟩, hbs⟩
  | ⟨id, _, some value, _⟩ :: bs, h => by
    rw [bindingTexts, bindingCodes]
    exact (value.shows_render margin .value h.1.2).bind fun hv =>
      (shows_bindingTexts margin bs h.2).bind fun hbs => .pure _ ⟨⟨h.1.1, hv⟩, hbs⟩

/-- A declaration has at least one binding, which is a promise that shows. -/
theorem shows_renderDeclaration (margin : Margin) : ∀ d : Declaration, d.Shown V kept →
    Shows kept (renderDeclaration margin d) (declarationCode margin d) (d.Shown V True)
  | ⟨_, [], _⟩, h => by
    rw [renderDeclaration]
    exact .throw fun hk => h.1 hk rfl
  | ⟨kind, b :: bs, _⟩, h => by
    rw [renderDeclaration, declarationCode]
    · exact (shows_bindingTexts margin (b :: bs) h.2).bind fun hbs => .pure _ ⟨fun _ => List.cons_ne_nil b bs, hbs⟩
    · exact List.cons_ne_nil b bs

theorem shows_renderInit (margin : Margin) : ∀ i : Option ForInit, OptForInitShown V kept i →
    Shows kept (renderInit margin i) (initCode margin i) (OptForInitShown V True i)
  | none, _ => .pure _ trivial
  | some (.declaration d), h => shows_renderDeclaration margin d h
  | some (.expression e), h => e.shows_render margin .value h

/-- A clause of a loop, which may be missing. -/
theorem shows_renderClause (margin : Margin) : ∀ e : Option Expr, OptExprShown V kept e →
    Shows kept (renderClause margin e) (clauseCode margin e) (OptExprShown V True e)
  | none, _ => .pure _ trivial
  | some e, h => by
    rw [renderClause, clauseCode]
    exact (e.shows_render margin .value h).bind (.pure _)

/-- When a statement has lines, and which: what is added to the layout is `Stmt.code`, at the margin that the layout
has. By induction on the tree, with `Expr.shows_render` for the expressions. -/
theorem Stmt.writes_emit (margin : Margin) (place : Place) : ∀ s : Stmt, s.Shown V kept →
    Writes kept margin (s.emit place) (s.linesAt margin place) (s.Shown V True)
  | .declaration d, h => by
    rw [Stmt.emit, Stmt.linesAt_eq fun place => by rw [Stmt.code]]
    exact place.counted _ ((Tells.text (shows_renderDeclaration margin d h)).writes (.line _))
  | .function ⟨some id, params, result, some ⟨body, s⟩, s'⟩, h => by
    rw [Stmt.emit, Stmt.linesAt_eq fun place => by rw [Stmt.code, bodyLines]]
    have hparams := Tells.text (f := fun m => bindingTexts m params) (shows_bindingTexts margin params h.2.2.1)
    refine place.counted _ (.imp (.callable hparams (writes_emitAll margin.deeper body h.2.2.2)) fun hc => ?_)
    exact ⟨fun _ => ⟨rfl, rfl⟩, h.2.1, hc⟩
  | .function ⟨none, _, _, _, _⟩, h => by
    rw [Stmt.emit]
    exact place.counted _ (.throw fun hk => nomatch (h.1 hk).1)
  | .function ⟨some _, _, _, none, _⟩, h => by
    rw [Stmt.emit]
    exact place.counted _ (.throw fun hk => nomatch (h.1 hk).2)
  | .classDecl name none interfaces members s, h => by
    rw [Stmt.emit, Stmt.linesAt_eq fun place => by rw [Stmt.code, heritageCode]]
    refine place.counted _ ((Tells.pure "" trivial).writes fun _ => ?_)
    exact ((writes_emitMembers margin.deeper members h.2.2).headed (by simp)).imp fun hms => ⟨h.1, trivial, hms⟩
  | .classDecl name (some base) interfaces members s, h => by
    rw [Stmt.emit, Stmt.linesAt_eq fun place => by rw [Stmt.code, heritageCode]]
    have hbase := Tells.text (f := fun m => base.render m .value) (base.shows_render margin .value h.2.1)
    refine place.counted _ (hbase.writes fun hb => (Tells.pure _ trivial).writes fun _ => ?_)
    exact ((writes_emitMembers margin.deeper members h.2.2).headed (by simp)).imp fun hms => ⟨h.1, hb, hms⟩
  | .block ⟨body, s⟩, h => by
    rw [Stmt.emit]
    refine place.counted _ ?_
    cases place with
    | lines =>
      rw [Stmt.linesAt, Stmt.code]
      exact (writes_emitAll margin.deeper body h).block ""
    | inside =>
      rw [Stmt.linesAt, Stmt.code]
      exact writes_emitAll margin body h
  | .ifElse test consequent alternate s, h => by
    rw [Stmt.emit, Stmt.linesAt_eq fun place => by rw [Stmt.code]]
    refine place.counted _ ((Tells.text (test.shows_render margin .value h.1)).writes fun ht => ?_)
    refine (tells_elseHeaders margin alternate h.2.2).writes fun hheaders => ?_
    rw [← append_paren_space]
    refine .branches (by simp) (consequent.writes_emit margin.deeper .inside h.2.1) fun hc => ?_
    exact (continues_emitElse margin alternate h.2.2 hheaders).imp fun ha => ⟨ht, hc, ha⟩
  | .forLoop init test update body s, h => by
    rw [Stmt.emit, Stmt.linesAt_eq fun place => by rw [Stmt.code]]
    refine place.counted _ ((Tells.text (shows_renderInit margin init h.1)).writes fun hi => ?_)
    refine (Tells.text (shows_renderClause margin test h.2.1)).writes fun ht => ?_
    refine (Tells.text (shows_renderClause margin update h.2.2.1)).writes fun hu => ?_
    rw [← append_paren_space]
    exact ((body.writes_emit margin.deeper .inside h.2.2.2).headed (by simp)).imp fun hb => ⟨hi, ht, hu, hb⟩
  | .forEach kind id type iterable body s, h => by
    rw [Stmt.emit, Stmt.linesAt_eq fun place => by rw [Stmt.code]]
    refine place.counted _ ((Tells.text (iterable.shows_render margin .value h.2.1)).writes fun hi => ?_)
    rw [← append_paren_space]
    exact ((body.writes_emit margin.deeper .inside h.2.2).headed (by simp)).imp fun hb => ⟨h.1, hi, hb⟩
  | .whileLoop test body s, h => by
    rw [Stmt.emit, Stmt.linesAt_eq fun place => by rw [Stmt.code]]
    refine place.counted _ ((Tells.text (test.shows_render margin .value h.1)).writes fun ht => ?_)
    rw [← append_paren_space]
    exact ((body.writes_emit margin.deeper .inside h.2).headed (by simp)).imp fun hb => ⟨ht, hb⟩
  | .ret none s, h => by
    rw [Stmt.emit, Stmt.linesAt_eq fun place => by rw [Stmt.code]]
    exact place.counted _ (.line _ trivial)
  | .ret (some value) s, h => by
    rw [Stmt.emit, Stmt.linesAt_eq fun place => by rw [Stmt.code]]
    exact place.counted _ ((Tells.text (value.shows_render margin .value h)).writes (.line _))
  | .expression e s, h => by
    rw [Stmt.emit, Stmt.linesAt_eq fun place => by rw [Stmt.code]]
    exact place.counted _ ((Tells.text (e.shows_render margin .value h)).writes (.line _))

/-- The conditions in a chain of branches are rendered before any of their blocks is opened. -/
theorem tells_elseHeaders (margin : Margin) : ∀ s : Option Stmt, OptStmtShown V kept s →
    Tells kept margin (elseHeaders s) (elseHeaderCodes margin s) (HeadersShown V s)
  | none, _ => by
    rw [elseHeaders, elseHeaderCodes, HeadersShown]
    · exact .pure _ trivial
    · exact nofun
  | some s, h => by
    cases s with
    | ifElse test consequent alternate s =>
      rw [elseHeaders, elseHeaderCodes, HeadersShown]
      refine (Tells.text (test.shows_render margin .value h.1)).bind fun ht => ?_
      exact (tells_elseHeaders margin alternate h.2.2).bind fun hheaders => .pure _ ⟨ht, hheaders⟩
    | declaration | function | classDecl | block | forLoop | forEach | whileLoop | ret | expression =>
      exact tells_elseHeaders_of_not_isIf rfl margin

/-- A chain of branches goes on in the line of the brace that closes the last block. -/
theorem continues_emitElse (margin : Margin) : ∀ s : Option Stmt, OptStmtShown V kept s → HeadersShown V s →
    Continues kept margin (emitElse (elseHeaderCodes margin s) s) (elseCode margin s) (OptStmtShown V True s)
  | none, _, _ => by
    rw [emitElse, elseCode]
    · exact .nothing trivial
    · exact nofun
    · exact nofun
  | some s, h, hheaders => by
    cases s with
    | ifElse test consequent alternate s =>
      have hcode : elseCode margin (some (.ifElse test consequent alternate s))
          = " " ++ ("else if (" ++ test.code margin .value ++ ")") ++ " "
            ++ braced margin (consequent.code margin.deeper .inside) ++ elseCode margin alternate := by
        simp only [elseCode, String.append_assoc]
        rfl
      rw [HeadersShown] at hheaders
      rw [elseHeaderCodes, emitElse, hcode, ← bind_assoc]
      refine (Continues.branch _ (consequent.writes_emit margin.deeper .inside h.2.1)).append fun hc => ?_
      exact (continues_emitElse margin alternate h.2.2 hheaders.2).imp fun ha => ⟨hheaders.1, hc, ha⟩
    | declaration | function | classDecl | block | forLoop | forEach | whileLoop | ret | expression =>
      exact continues_emitElse_of_not_isIf rfl (Stmt.writes_emit margin.deeper .inside _ h)

/-- Statements in a row. -/
theorem writes_emitAll (margin : Margin) : ∀ ss : List Stmt, StmtsShown V kept ss →
    Writes kept margin (emitAll ss) (stmtLines margin ss) (StmtsShown V True ss)
  | [], _ => .nothing trivial
  | s :: ss, h => by
    rw [emitAll, stmtLines]
    exact (s.writes_emit margin .lines h.1).append fun hs => (writes_emitAll margin ss h.2).imp fun hss => ⟨hs, hss⟩

/-- Members of a class. A method without a body has no code if it is abstract, and is an error otherwise. -/
theorem writes_emitMembers (margin : Margin) : ∀ ms : List Member, MembersShown V kept ms →
    Writes kept margin (emitMembers ms) (memberLines margin ms) (MembersShown V True ms)
  | [], _ => .nothing trivial
  | .method name kind ⟨n, params, result, some ⟨body, s⟩, s'⟩ modifiers decorators s'' :: ms, h => by
    rw [emitMembers, memberLines]
    have hparams := Tells.text (f := fun m => bindingTexts m params) (shows_bindingTexts margin params h.1.2.1)
    refine (Writes.callable hparams (writes_emitAll margin.deeper body h.1.2.2)).append fun hc => ?_
    exact (writes_emitMembers margin ms h.2).imp fun hms => ⟨⟨h.1.1, hc⟩, hms⟩
  | .method name kind ⟨n, params, result, none, s'⟩ modifiers decorators s'' :: ms, h => by
    rw [emitMembers, memberLines]
    have hms := writes_emitMembers margin ms h.2
    by_cases habstract : modifiers.isAbstract = true
    · simp only [habstract, if_true]
      exact hms.imp fun hms => ⟨fun _ => habstract, hms⟩
    · simp only [habstract]
      exact Writes.throw fun hk => habstract (h.1 hk)
  | .field name type none modifiers decorators s :: ms, h => by
    rw [emitMembers, memberLines, valueCode]
    refine (Tells.pure "" trivial).writes fun _ => (Writes.line _ trivial).append fun _ => ?_
    exact (writes_emitMembers margin ms h.2).imp fun hms => ⟨⟨h.1.1, trivial⟩, hms⟩
  | .field name type (some value) modifiers decorators s :: ms, h => by
    rw [emitMembers, memberLines, valueCode]
    have hvalue := Tells.text (f := fun m => value.render m .value) (value.shows_render margin .value h.1.2)
    refine hvalue.writes fun hv => (Tells.pure _ trivial).writes fun _ => (Writes.line _ trivial).append fun _ => ?_
    exact (writes_emitMembers margin ms h.2).imp fun hms => ⟨⟨h.1.1, hv⟩, hms⟩

end

/-- Expressions that keep their promises have code. -/
theorem Expr.render_code (margin : Margin) (role : Role) {e : Expr} (h : e.Sound V) :
    Gives (e.render margin role) (e.code margin role) := (e.shows_render margin role h.shown).gives

/-- An expression that has a text keeps its promises, and the text is its code. -/
theorem Expr.eq_code_of_render {e : Expr} (h : e.Shown V False) {role : Role} {tally tally' : Tally} {text : String}
    (hrun : e.render margin role tally = .ok text tally') :
    e.Shown V True ∧ text = e.code margin role := (e.shows_render margin role h).of_ok hrun

/-! ## Programs -/

/-- A program that keeps its promises has code, and it is the text that `Program.code` gives. -/
theorem Program.script_code {p : Program} (h : p.Sound V) (unit : String) : Gives (p.script unit) (p.code unit) := by
  intro tally
  have hlines : EndsIn True _ _ := writes_emitAll ⟨unit, 0⟩ p.body (stmtsShown_of_sound h) (.start ⟨unit, 0⟩) tally rfl
  rcases hlines with ⟨_, _, hrun, ⟨tally', rfl⟩, -⟩ | ⟨_, _, -, hk⟩
  · have hlayout : (Layout.start ⟨unit, 0⟩).push (stmtLines ⟨unit, 0⟩ p.body)
        = { Layout.start ⟨unit, 0⟩ with code := stmtLines ⟨unit, 0⟩ p.body } := by
      simp only [Layout.push, Layout.start, String.empty_append]
    exact ⟨tally', by simp only [Program.script, hrun, Program.code, hlayout]⟩
  · exact absurd trivial hk

/-- Trees that keep their promises have code. -/
theorem writeScript_of_sound {p : Program} (h : p.Sound V) (unit : String) :
    writeScript unit p = .ok (p.code unit) := by
  obtain ⟨tally, ht⟩ := Program.script_code h unit .zero
  simp only [writeScript, ht]

/-- Steps that follow one another fail where the first of them fails. -/
theorem error_of_bind {ε : Type} {x : Except ε α} {f : α → Except ε β} {e : ε} (h : (x >>= f) = .error e) :
    x = .error e ∨ ∃ a, x = .ok a ∧ f a = .error e := by
  cases x with
  | error e' =>
    cases h
    exact .inl rfl
  | ok a => exact .inr ⟨a, rfl, h⟩

/-- The stages before the last have errors of their own. -/
theorem writeScript_of_compile {options : Options} {source : String} {e : GenerationError}
    (h : compile options source = .error (.generation e)) :
    ∃ ts p, parse ts = .ok p ∧ writeScript options.indent p = .error (.generation e) := by
  rcases error_of_bind h with h | ⟨ts, -, h⟩
  · unfold readTokens at h
    cases ht : tokenize source <;> rw [ht] at h <;> cases h
  rcases error_of_bind h with h | ⟨p, hp, h⟩
  · unfold readProgram at h
    cases ht : parse ts <;> rw [ht] at h <;> cases h
  refine ⟨ts, p, ?_, ?_⟩
  · unfold readProgram at hp
    cases ht : parse ts <;> rw [ht] at hp <;> cases hp
    rfl
  · have hlast {u : String} (h : (do let script ← writeScript u p; return ⟨ts, p, script⟩ :
        Except CompileError Compiled) = .error (.generation e)) : writeScript u p = .error (.generation e) := by
      rcases error_of_bind h with h | ⟨_, -, h⟩
      · exact h
      · cases h
    split at h
    · rcases error_of_bind h with h | ⟨_, _, h⟩
      · unfold ensureSound at h
        split at h <;> cases h
      · exact hlast h
    · exact hlast h

/-- No source fails in the last stage, whatever the settings: every tree that was read keeps the promises that
generation asks for, and so has code. -/
theorem compile_ne_generation (options : Options) (source : String) :
    (∀ e, compile options source ≠ .error (.generation e)) ∧
      ∀ ts p, tokenize source = .ok ts → parse ts = .ok p →
        p.Sound .everything ∧ writeScript options.indent p = .ok (p.code options.indent) := by
  refine ⟨fun e h => ?_, fun ts p _ hp => ?_⟩
  · obtain ⟨ts, p, hp, hw⟩ := writeScript_of_compile h
    rw [writeScript_of_sound (parse_sound_everything hp)] at hw
    cases hw
  · exact ⟨parse_sound_everything hp, writeScript_of_sound (parse_sound_everything hp) _⟩

/-- A loop, a class with an abstract method and a function expression, checked and indented by a tab. -/
theorem compile_ne_generation_class : ∃ ts p,
    tokenize "classe A { abstrato f(x) g() { para (;;) b.c++ } }; variavel h = funcao () {}" = .ok ts ∧
    parse ts = .ok p ∧ p.Sound .everything ∧ writeScript "\t" p = .ok (p.code "\t") := by
  have hp : ((tokenize "classe A { abstrato f(x) g() { para (;;) b.c++ } }; variavel h = funcao () {}").toOption.any
      fun ts => (parse ts).toOption.any fun _ => true) = true := by decide +kernel
  obtain ⟨ts, ht, hp⟩ := exists_ok_of_any hp
  obtain ⟨p, hp, -⟩ := exists_ok_of_any hp
  exact ⟨ts, p, ht, hp, (compile_ne_generation ⟨true, "\t", {}⟩ _).2 ts p ht hp⟩

end Vernacular
