import Vernacular.Proofs.Script.Total

/-!
# Generation leaves the layout balanced

Statements are written in steps: a line that ends in a semicolon, a block that is opened, closed, or closed with another
opened behind it. Steps are balanced if each block that they open is closed by them, and no other.

- `Layout.Above.perform`: what is known of a layout in which steps have opened some blocks, from one step to all of
  them;
- `Emit.Keeps`: whatever comes of a generation, it takes steps after which as many blocks are open as before;
- `Stmt.emit_balanced`: so a statement, whatever tree it is, gives back the margin and the marks that it was given, and
  adds whole lines to the code, or nothing if it fails.
-/

namespace Vernacular

namespace Layout

/-! ## Steps -/

/-- One step of writing a statement. -/
inductive Step where
  /-- A line without a block. -/
  | simple (code : String)
  | opening (header : String)
  | closing
  | reopening (header : String)
deriving DecidableEq, Repr

def Step.apply (step : Step) (l : Layout) : Layout :=
  match step with
  | simple code => l.line (code ++ ";")
  | opening header => l.openBlock header
  | closing => l.close
  | reopening header => l.reopen header

/-- How many blocks are open after a step, if `n` are before it. Only what is open can be closed. -/
def Step.depth? : Step → Nat → Option Nat
  | simple _, n => some n
  | opening _, n => some (n + 1)
  | closing, n + 1 => some n
  | reopening _, n + 1 => some (n + 1)
  | closing, 0 | reopening _, 0 => none

def perform (l : Layout) (steps : List Step) : Layout := steps.foldl (fun l step => step.apply l) l

/-- How many blocks are open after all steps. -/
def depth? (n : Nat) (steps : List Step) : Option Nat := steps.foldlM (fun n step => step.depth? n) n

/-- The steps close the blocks that they open, and no other. -/
def Balanced (steps : List Step) : Prop := depth? 0 steps = some 0

instance (steps : List Step) : Decidable (Balanced steps) := inferInstanceAs (Decidable (_ = _))

theorem perform_append (l : Layout) (steps steps' : List Step) :
    l.perform (steps ++ steps') = (l.perform steps).perform steps' := List.foldl_append

theorem depth?_append (n : Nat) (steps steps' : List Step) :
    depth? n (steps ++ steps') = (depth? n steps).bind fun m => depth? m steps' := List.foldlM_append

/-! ## What steps leave as it was -/

/-- Lines were added to the code. -/
def Grown (base l : Layout) : Prop := ∃ lines, l.code = base.code ++ (lines ++ "\n")

/-- `l` is what became of `base` with `n` blocks opened in it: it is `n` units further in, its marks are above those of
`base`, and its code goes on where that of `base` ends. -/
structure Above (base : Layout) (n : Nat) (l : Layout) : Prop where
  margin : l.margin = ⟨base.margin.unit, base.margin.level + n⟩
  marks : l.marks.drop n = base.marks
  code : (n = 0 ∧ l.code = base.code) ∨ Grown base l

variable {base l : Layout} {n m : Nat}

theorem Above.refl (l : Layout) : Above l 0 l := ⟨rfl, rfl, .inl ⟨rfl, rfl⟩⟩

/-- A line that is written adds to the code, whatever was there. -/
theorem Above.grown_line (h : Above base n l) (s : String) : Grown base (l.line s) := by
  rcases h.code with ⟨-, hcode⟩ | ⟨lines, hcode⟩
  · exact ⟨l.margin.text ++ s, by simp only [code_line, hcode, String.append_assoc]⟩
  · exact ⟨lines ++ "\n" ++ l.margin.text ++ s, by simp only [code_line, hcode, String.append_assoc]⟩

/-- A block that closes on its header line gives up the end of that line, and nothing before it. -/
theorem Grown.closeWith (h : Grown base l) (trailer : String) : Grown base (l.closeWith trailer) := by
  obtain ⟨lines, hcode⟩ := h
  have hlast : l.code = base.code ++ lines ++ String.singleton '\n' := by
    rw [hcode, ← String.append_assoc]
    rfl
  unfold Layout.closeWith
  split
  · refine ⟨lines ++ r"}" ++ trailer, ?_⟩
    show dropLastChar l.code ++ r"}" ++ trailer ++ "\n" = _
    rw [hlast, dropLastChar_append]
    simp only [String.append_assoc]
  · refine ⟨lines ++ "\n" ++ l.raise.margin.text ++ (r"}" ++ trailer), ?_⟩
    simp only [code_line, raise, hcode, String.append_assoc]

/-- Where a block is open, its header has been written. -/
theorem Above.grown (h : Above base (n + 1) l) : Grown base l := by
  rcases h.code with ⟨hzero, -⟩ | hgrown
  · cases hzero
  · exact hgrown

/-- Closing a block takes back one unit of the margin and one mark. -/
theorem Above.closeWith (h : Above base (n + 1) l) (trailer : String) : Above base n (l.closeWith trailer) where
  margin := by simp [raise, h.margin]
  marks := by rw [marks_closeWith, List.drop_tail, h.marks]
  code := .inr (h.grown.closeWith trailer)

/-- Opening a block adds one unit to the margin and one mark. -/
theorem Above.mark (h : Above base n l) (hgrown : Grown base l) : Above base (n + 1) l.mark where
  margin := by simp [Layout.mark, deepen, h.margin, Nat.add_assoc]
  marks := h.marks
  code := .inr hgrown

/-- One step. -/
theorem Above.apply (h : Above base n l) {step : Step} (hs : step.depth? n = some m) :
    Above base m (step.apply l) ∧ Grown base (step.apply l) := by
  have hline (s : String) : Above base n (l.line s) := ⟨h.margin, h.marks, .inr (h.grown_line s)⟩
  cases step with
  | simple code =>
    cases hs
    exact ⟨hline _, h.grown_line _⟩
  | opening header =>
    cases hs
    exact ⟨(hline _).mark (h.grown_line _), h.grown_line _⟩
  | closing =>
    cases n with
    | zero => cases hs
    | succ n =>
      cases hs
      exact ⟨h.closeWith "", h.grown.closeWith ""⟩
  | reopening header =>
    cases n with
    | zero => cases hs
    | succ n =>
      cases hs
      have hgrown := h.grown.closeWith (" " ++ header ++ r" {")
      exact ⟨(h.closeWith _).mark hgrown, hgrown⟩

/-- All steps. -/
theorem Above.perform (h : Above base n l) {steps : List Step} (hs : depth? n steps = some m) :
    Above base m (l.perform steps) ∧ (steps ≠ [] → Grown base (l.perform steps)) := by
  induction steps generalizing n l with
  | nil =>
    cases hs
    exact ⟨h, absurd rfl⟩
  | cons step steps ih =>
    obtain ⟨k, hk, hs⟩ := Option.bind_eq_some_iff.mp hs
    obtain ⟨habove, hgrown⟩ := h.apply hk
    obtain ⟨hend, hlines⟩ := ih habove hs
    refine ⟨hend, fun _ => ?_⟩
    by_cases hne : steps = []
    · subst hne
      exact hgrown
    · exact hlines hne

end Layout

/-! ## What generation does -/

open Layout

variable {α β : Type}

/-- The page that a generation leaves, whether it succeeds or fails. -/
def Emit.leaves (act : Emit α) (p : Page) : Page :=
  match act p with
  | .ok _ q | .error _ q => q

namespace Emit

/-- Whatever comes of the generation, it takes steps from `n` open blocks to `n` open blocks; if it must write
something, then it takes some or fails. -/
def Keeps (n : Nat) (must : Prop) (act : Emit α) : Prop :=
  ∀ p : Page, ∃ steps, depth? n steps = some n ∧ (act.leaves p).layout = p.layout.perform steps ∧
    (must → (∃ a q, act p = .ok a q) → steps ≠ [])

variable {n : Nat} {must must' : Prop}

theorem Keeps.pure (a : α) : Keeps n False (pure a : Emit α) := fun _ => ⟨[], rfl, rfl, nofun⟩

/-- A generation that fails at once has written nothing. -/
theorem Keeps.throw (e : GenerationError) : Keeps n must (throw e : Emit α) := fun _ => ⟨[], rfl, rfl, nofun⟩

theorem Keeps.weaken {act : Emit α} (h : Keeps n must act) (hm : must' → must) : Keeps n must' act := by
  intro p
  obtain ⟨steps, hdepth, hlayout, hne⟩ := h p
  exact ⟨steps, hdepth, hlayout, fun h => hne (hm h)⟩

/-- One generation after another. If the first fails, its own steps are all there are. -/
theorem Keeps.bind {act : Emit α} {f : α → Emit β} (h : Keeps n must act) (hf : ∀ a, Keeps n must' (f a)) :
    Keeps n must' (act >>= f) := by
  intro p
  obtain ⟨steps, hdepth, hlayout, -⟩ := h p
  cases hact : act p with
  | error e q =>
    have hrun : (act >>= f) p = .error e q := by simp only [Bind.bind, EStateM.bind, hact]
    refine ⟨steps, hdepth, ?_, fun _ ⟨b, q', hok⟩ => ?_⟩
    · simpa only [leaves, hrun, hact] using hlayout
    · rw [hrun] at hok
      cases hok
  | ok a q =>
    have hrun : (act >>= f) p = f a q := by simp only [Bind.bind, EStateM.bind, hact]
    obtain ⟨steps', hdepth', hlayout', hne⟩ := hf a q
    have hq : q.layout = p.layout.perform steps := by simpa only [leaves, hact] using hlayout
    refine ⟨steps ++ steps', ?_, ?_, fun hm hok => ?_⟩
    · rw [depth?_append, hdepth]
      exact hdepth'
    · rw [perform_append, ← hq, ← hlayout']
      simp only [leaves, hrun]
    · rw [hrun] at hok
      exact fun he => hne hm hok (List.append_eq_nil_iff.mp he).2

/-- What only makes a text writes nothing. -/
theorem Keeps.text (f : Margin → Counted α) : Keeps n False (text f) := by
  intro p
  refine ⟨[], rfl, ?_, nofun⟩
  simp only [leaves, Emit.text]
  cases f p.margin p.tally <;> rfl

theorem Keeps.line (code : String) : Keeps n must (line (code ++ ";")) :=
  fun _ => ⟨[.simple code], rfl, rfl, fun _ _ => List.cons_ne_nil _ _⟩

/-- A block that is closed with another one opened behind it needs a block that is open. -/
theorem Keeps.reopen (header : String) : Keeps (n + 1) must (layout (·.reopen header)) :=
  fun _ => ⟨[.reopening header], rfl, rfl, fun _ _ => List.cons_ne_nil _ _⟩

/-- A block is closed also if its inside fails. -/
theorem Keeps.block {inside : Emit Unit} (h : Keeps (n + 1) must' inside) (header : String) :
    Keeps n must (block header inside) := by
  intro p
  obtain ⟨steps, hdepth, hlayout, -⟩ := h { p with layout := p.layout.openBlock header }
  have hclosed : ((Emit.block header inside).leaves p).layout
      = (inside.leaves { p with layout := p.layout.openBlock header }).layout.close := by
    unfold leaves Emit.block
    cases inside { p with layout := p.layout.openBlock header } <;> rfl
  refine ⟨.opening header :: (steps ++ [.closing]), ?_, ?_, fun _ _ => List.cons_ne_nil _ _⟩
  · show depth? (n + 1) (steps ++ [.closing]) = some n
    rw [depth?_append, hdepth]
    rfl
  · rw [hclosed, hlayout]
    show _ = (p.layout.openBlock header).perform (steps ++ [.closing])
    rw [perform_append]
    rfl

/-- A callable is a block, behind the texts of its parameters. -/
theorem Keeps.callable (header : String) (params : Margin → Counted (List String)) {inside : Emit Unit}
    (h : Keeps (n + 1) must' inside) : Keeps n must (callable header (Emit.text params) inside) :=
  (Keeps.text params).bind fun _ => h.block _

end Emit

open Emit

/-- Counting a statement writes nothing. -/
theorem Place.keeps_count (n : Nat) (place : Place) (s : Stmt) : Keeps n False (place.count s) := by
  have hone : Keeps n False Emit.statement := fun _ => ⟨[], rfl, rfl, nofun⟩
  unfold Place.count
  split
  · split
    · exact .pure ()
    · exact hone
  · exact hone

/-- The headers of the alternatives are texts. -/
theorem keeps_elseHeaders : ∀ (n : Nat) (s : Option Stmt), Keeps n False (elseHeaders s)
  | _, none => .pure _
  | n, some s => by
    cases s with
    | ifElse test consequent alternate span =>
      rw [elseHeaders]
      exact (Keeps.text _).bind fun _ => (keeps_elseHeaders n alternate).bind fun _ => .pure _
    | _ => exact .pure _

mutual

/-- Generation of a statement leaves as many blocks open as there were, also where it fails, and if it succeeds on
lines of its own it has written something. By induction on the tree; every block is opened and closed by
`Keeps.block`, so the cases need only what their parts do with one block more. -/
theorem Stmt.keeps_emit (n : Nat) (place : Place) : ∀ s : Stmt, Keeps n (place = .lines) (s.emit place)
  | .declaration d => by
    rw [Stmt.emit]
    exact (place.keeps_count n _).bind fun _ => (Keeps.text _).bind fun _ => .line _
  | .function ⟨none, params, result, body, span⟩ => by
    rw [Stmt.emit]
    exact (place.keeps_count n _).bind fun _ => .throw _
  | .function ⟨some id, params, result, none, span⟩ => by
    rw [Stmt.emit]
    exact (place.keeps_count n _).bind fun _ => .throw _
  | .function ⟨some id, params, result, some ⟨body, s⟩, span⟩ => by
    rw [Stmt.emit]
    exact (place.keeps_count n _).bind fun _ => .callable _ _ (keeps_emitAll (n + 1) body)
  | .classDecl name base interfaces members span => by
    rw [Stmt.emit]
    refine (place.keeps_count n _).bind fun _ => ?_
    have hmembers (header : String) : Keeps n (place = .lines) (Emit.block header (emitMembers members)) :=
      (keeps_emitMembers (n + 1) members).block header
    cases base with
    | none => exact (Keeps.pure _).bind fun _ => hmembers _
    | some e => exact (Keeps.text _).bind fun _ => (Keeps.pure _).bind fun _ => hmembers _
  | .block ⟨body, span⟩ => by
    rw [Stmt.emit]
    refine (place.keeps_count n _).bind fun _ => ?_
    cases place with
    | lines => exact (keeps_emitAll (n + 1) body).block ""
    | inside => exact (keeps_emitAll n body).weaken nofun
  | .ifElse test consequent alternate span => by
    rw [Stmt.emit]
    refine (place.keeps_count n _).bind fun _ => (Keeps.text _).bind fun _ => ?_
    refine (keeps_elseHeaders n alternate).bind fun headers => ?_
    -- one block is open throughout: each alternative closes it and opens its own
    exact ((consequent.keeps_emit (n + 1) .inside).bind fun _ => keeps_emitElse n headers alternate).block _
  | .forLoop init test update body span => by
    rw [Stmt.emit]
    refine (place.keeps_count n _).bind fun _ => (Keeps.text _).bind fun _ => (Keeps.text _).bind fun _ => ?_
    exact (Keeps.text _).bind fun _ => (body.keeps_emit (n + 1) .inside).block _
  | .forEach kind id type iterable body span => by
    rw [Stmt.emit]
    refine (place.keeps_count n _).bind fun _ => (Keeps.text _).bind fun _ => ?_
    exact (body.keeps_emit (n + 1) .inside).block _
  | .whileLoop test body span => by
    rw [Stmt.emit]
    refine (place.keeps_count n _).bind fun _ => (Keeps.text _).bind fun _ => ?_
    exact (body.keeps_emit (n + 1) .inside).block _
  | .ret none span => by
    rw [Stmt.emit]
    exact (place.keeps_count n _).bind fun _ => .line "return"
  | .ret (some value) span => by
    rw [Stmt.emit]
    exact (place.keeps_count n _).bind fun _ => (Keeps.text _).bind fun _ => .line _
  | .expression e span => by
    rw [Stmt.emit]
    exact (place.keeps_count n _).bind fun _ => (Keeps.text _).bind fun _ => .line _

/-- Statements in a row. -/
theorem keeps_emitAll (n : Nat) : ∀ ss : List Stmt, Keeps n False (emitAll ss)
  | [] => .pure ()
  | s :: ss => by
    rw [emitAll]
    exact (s.keeps_emit n .lines).bind fun _ => keeps_emitAll n ss

/-- The branches after the first close the block that is open and open others in its place. -/
theorem keeps_emitElse (n : Nat) : ∀ (headers : List String) (s : Option Stmt), Keeps (n + 1) False (emitElse headers s)
  | [], s => by
    rw [emitElse]
    · exact .pure ()
    · exact nofun
    · exact nofun
  | header :: headers, none => by
    rw [emitElse]
    · exact .pure ()
    · exact nofun
    · exact nofun
  | header :: headers, some s => by
    cases s with
    | ifElse test consequent alternate span =>
      rw [emitElse]
      refine (Keeps.reopen header : Keeps (n + 1) False _).bind fun _ => ?_
      exact (consequent.keeps_emit (n + 1) .inside).bind fun _ => keeps_emitElse n headers alternate
    | declaration | function | classDecl | block | forLoop | forEach | whileLoop | ret | expression =>
      refine (Keeps.reopen header : Keeps (n + 1) False _).bind fun _ => ?_
      exact (Stmt.keeps_emit (n + 1) .inside _).weaken nofun

/-- Members of a class. -/
theorem keeps_emitMembers (n : Nat) : ∀ ms : List Member, Keeps n False (emitMembers ms)
  | [] => .pure ()
  | .method name kind ⟨self, params, result, some ⟨body, s⟩, s'⟩ modifiers decorators span :: ms => by
    rw [emitMembers]
    have hmethod (header : String) : Keeps n False
        (Emit.callable header (Emit.text fun m => bindingTexts m params) (emitAll body)) :=
      .callable _ _ (keeps_emitAll (n + 1) body)
    exact (hmethod _).bind fun _ => keeps_emitMembers n ms
  | .method name kind ⟨self, params, result, none, s⟩ modifiers decorators span :: ms => by
    rw [emitMembers]
    split
    · exact keeps_emitMembers n ms
    · exact (Keeps.throw _ : Keeps n False _).bind fun _ => keeps_emitMembers n ms
  | .field name type none modifiers decorators span :: ms => by
    rw [emitMembers]
    exact (Keeps.pure _).bind fun _ => (Keeps.line _ : Keeps n False _).bind fun _ => keeps_emitMembers n ms
  | .field name type (some value) modifiers decorators span :: ms => by
    rw [emitMembers]
    refine (Keeps.text _).bind fun _ => (Keeps.pure _).bind fun _ => ?_
    exact (Keeps.line _ : Keeps n False _).bind fun _ => keeps_emitMembers n ms

end

/-- **Generating a statement leaves the layout balanced.** Whatever the tree and the page, also if the lines inside of
its expressions are indented by another unit than its own, and whether generation succeeds or fails: the layout is the
one after balanced steps, so that margin and marks are what they were; the code that was there is still there, with
whole lines behind it, or with nothing behind it if generation failed. -/
theorem Stmt.emit_balanced (s : Stmt) (p : Page) : ∃ steps added,
    Balanced steps ∧ ((s.emit .lines).leaves p).layout = p.layout.perform steps ∧
      ((s.emit .lines).leaves p).layout.margin = p.layout.margin ∧
      ((s.emit .lines).leaves p).layout.marks = p.layout.marks ∧
      ((s.emit .lines).leaves p).layout.code = p.layout.code ++ added ∧
      ((steps = [] ∧ added = "" ∧ ∃ e q, s.emit .lines p = .error e q) ∨ ∃ lines, added = lines ++ "\n") := by
  obtain ⟨steps, hdepth, hlayout, hne⟩ := s.keeps_emit 0 .lines p
  obtain ⟨habove, hgrown⟩ := (Above.refl p.layout).perform hdepth
  rw [hlayout]
  by_cases hsteps : steps = []
  · subst hsteps
    refine ⟨[], "", hdepth, rfl, habove.margin, habove.marks, String.append_empty.symm, .inl ⟨rfl, rfl, ?_⟩⟩
    cases hrun : s.emit .lines p with
    | ok a q => exact absurd rfl (hne rfl ⟨a, q, hrun⟩)
    | error e q => exact ⟨e, q, rfl⟩
  · obtain ⟨lines, hcode⟩ := hgrown hsteps
    exact ⟨steps, lines ++ "\n", hdepth, rfl, habove.margin, habove.marks, hcode, .inr ⟨lines, rfl⟩⟩

end Vernacular
