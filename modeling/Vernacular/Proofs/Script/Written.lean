import Vernacular.Proofs.Grammar.Sound
import Vernacular.Proofs.Script.Declared

/-!
# Declared names are written

A check declares the name of a function inside of it, also if the function is that of a method, where generation has no
place for the name. But in a program that was read no such function has a name of its own. So every name that is
declared stands in the code.

- `builds_writing`: this is kept by building trees;
- `Program.written`: for programs that were read.
-/

namespace Vernacular

/-- Every name that is declared in the pieces is written. -/
abbrev Written (ps : List Piece) : Prop := Meet (fun _ => True) (fun _ => False) (fun _ _ => True) ps

/-- All that a tree declares is written, wherever the tree stands. -/
def writing : Invariant where
  expr e := ∀ options margin role c, Written (e.pieces options margin role c)
  stmt s := ∀ options margin place c, Written (s.pieces options margin place c)

section Written

variable {options : CheckOptions} {margin : Margin}

/-- Expressions in a row. -/
theorem written_exprPieces {es : List Expr} (h : ∀ e ∈ es, writing.expr e) (c : Checker) :
    ∀ ps ∈ exprPieces options margin es c, Written ps := by
  induction es generalizing c with
  | nil => simp [exprPieces]
  | cons e es ih =>
    obtain ⟨he, hes⟩ := List.forall_mem_cons.mp h
    exact List.forall_mem_cons.mpr ⟨he _ _ _ _, ih hes _⟩

theorem written_propertyPieces {ps : List Property} (h : ∀ p ∈ ps, p.key.Sound .everything ∧ writing.expr p.value)
    (c : Checker) : ∀ qs ∈ propertyPieces options margin ps c, Written qs := by
  induction ps generalizing c with
  | nil => simp [propertyPieces]
  | cons p ps ih =>
    obtain ⟨hp, hps⟩ := List.forall_mem_cons.mp h
    obtain ⟨key, value, span⟩ := p
    exact List.forall_mem_cons.mpr ⟨meet_cons.mpr ⟨trivial, hp.2 _ _ _ _⟩, ih hps _⟩

theorem written_valuePieces {e : Option Expr} (h : ∀ e' ∈ e, writing.expr e') (c : Checker) :
    Written (valuePieces options margin e c) := by
  cases e with
  | none => exact meet_nil
  | some e => exact meet_cons.mpr ⟨trivial, h e rfl _ _ _ _⟩

theorem written_clausePieces {e : Option Expr} (h : ∀ e' ∈ e, writing.expr e') (c : Checker) :
    Written (clausePieces options margin e c) := by
  cases e with
  | none => exact meet_nil
  | some e => exact meet_cons.mpr ⟨trivial, h e rfl _ _ _ _⟩

theorem written_heritagePieces {e : Option Expr} (h : ∀ e' ∈ e, writing.expr e') (c : Checker) :
    Written (heritagePieces options margin e c) := by
  cases e with
  | none => exact meet_nil
  | some e => exact meet_cons.mpr ⟨trivial, h e rfl _ _ _ _⟩

/-- Variables, each written with its value. -/
theorem written_variablePieces {bs : List Binding} (h : ∀ b ∈ bs, writing.Binding .everything b) (c : Checker) :
    ∀ ps ∈ variablePieces options margin bs c, Written ps := by
  induction bs generalizing c with
  | nil => simp [variablePieces]
  | cons b bs ih =>
    obtain ⟨hb, hbs⟩ := List.forall_mem_cons.mp h
    obtain ⟨id, type, value, span⟩ := b
    exact List.forall_mem_cons.mpr ⟨meet_cons.mpr ⟨trivial, written_valuePieces hb.2 _⟩, ih hbs _⟩

/-- Parameters. -/
theorem written_paramPieces {bs : List Binding} (h : ∀ b ∈ bs, writing.Binding .everything b) (c : Checker) :
    ∀ ps ∈ paramPieces options margin bs c, Written ps := by
  induction bs generalizing c with
  | nil => simp [paramPieces]
  | cons b bs ih =>
    obtain ⟨hb, hbs⟩ := List.forall_mem_cons.mp h
    obtain ⟨id, type, value, span⟩ := b
    exact List.forall_mem_cons.mpr ⟨meet_cons.mpr ⟨trivial, written_valuePieces hb.2 _⟩, ih hbs _⟩

theorem written_stmtPieces {ss : List Stmt} (h : ∀ s ∈ ss, writing.stmt s) (c : Checker) :
    Written (stmtPieces options margin ss c) := by
  induction ss generalizing c with
  | nil => exact meet_nil
  | cons s ss ih =>
    obtain ⟨hs, hss⟩ := List.forall_mem_cons.mp h
    exact meet_append.mpr ⟨meet_linePieces.mpr (hs _ _ _ _), ih hss _⟩

/-- The parameters and the body of a callable. -/
theorem Invariant.Callable.written {name : Option Ident} {callable : Vernacular.Callable}
    (h : writing.Callable .everything name callable) (c : Checker) :
    Written (callable.pieces options margin c) := by
  obtain ⟨self, params, result, body, span⟩ := callable
  have hbody (c : Checker) : Written (bodyPieces options margin.deeper body c) := by
    cases body with
    | none => exact meet_nil
    | some block =>
      obtain ⟨body, span⟩ := block
      exact written_stmtPieces (h.body _ rfl) _
  have hparams (c : Checker) : ∀ ps ∈ paramPieces options margin params c, Written ps := written_paramPieces h.params c
  simpa [Vernacular.Callable.pieces, Piece.Meets, hbody] using hparams _

/-- Members of a class. The function of a method has no name of its own, so that nothing is declared that is not
written. -/
theorem written_memberPieces {ms : List Member} (h : ∀ m ∈ ms, writing.Member .everything m) (c : Checker) :
    Written (memberPieces options margin ms c) := by
  induction ms generalizing c with
  | nil => exact meet_nil
  | cons m ms ih =>
    obtain ⟨hm, hms⟩ := List.forall_mem_cons.mp h
    cases m with
    | method name kind callable modifiers decorators span =>
      have hcallable : writing.Callable .everything none callable := hm.2.2
      -- there is no name that could go unwritten
      rw [memberPieces, hcallable.named]
      refine meet_append.mpr ⟨?_, ih hms _⟩
      split
      · exact meet_nil
      · simpa [Piece.Meets] using hcallable.written c
    | field name type value modifiers decorators span =>
      have hvalue (c : Checker) : Written (valuePieces options margin value c) := written_valuePieces hm.2 c
      rw [memberPieces]
      refine meet_append.mpr ⟨?_, ih hms _⟩
      simpa [Piece.Meets] using hvalue _

theorem written_initPieces {init : Option ForInit} (h : ∀ i ∈ init, writing.Init .everything i) (c : Checker) :
    Written (initPieces options margin init c) := by
  cases init with
  | none => exact meet_nil
  | some i =>
    have hi : writing.Init .everything i := h i rfl
    cases i with
    | declaration d =>
      obtain ⟨kind, bindings, span⟩ := d
      exact meet_cons.mpr ⟨trivial, meet_commaPieces.mpr (written_variablePieces hi.2 _)⟩
    | expression e => exact hi _ _ _ _

theorem written_elsePieces {alternate : Option Stmt} (h : ∀ s ∈ alternate, writing.stmt s) (c : Checker) :
    Written (elsePieces options margin alternate c) := by
  cases alternate with
  | none => exact meet_nil
  | some s =>
    have hs := h s rfl options
    cases hif : s.isIf with
    | false =>
      rw [elsePieces_of_not_isIf _ hif]
      exact meet_cons.mpr ⟨trivial, meet_bracedPieces.mpr (hs _ _ _)⟩
    | true =>
      cases s with
      | ifElse test consequent alternate span =>
        have hbranches := hs margin .inside c
        simpa [Stmt.pieces, elsePieces, Piece.Meets] using hbranches
      | _ => cases hif

/-- Building trees keeps what is written. One case for each kind of node. -/
theorem builds_writing : Builds .everything writing writing where
  weaken h := h
  literal _ _ _ _ _ := by simp [Expr.pieces, Piece.Meets]
  ident _ _ _ _ _ := by simp [Expr.pieces, Piece.Meets]
  this _ _ _ _ := by simp [Expr.pieces, Piece.Meets]
  super _ _ _ _ := by simp [Expr.pieces, Piece.Meets]
  array h _ _ _ c := by simpa [Expr.pieces, Piece.Meets] using written_exprPieces h c
  object {properties _} h _ _ _ c := by
    cases properties with
    | nil => simp [Expr.pieces, Piece.Meets]
    | cons p ps => simpa [Expr.pieces, Piece.Meets] using written_propertyPieces h c
  function _ h _ _ _ c := by simpa [Expr.pieces, Piece.Meets] using h.written c
  call hcallee h _ _ _ _ := by simpa [Expr.pieces, Piece.Meets, hcallee _ _ _ _] using written_exprPieces h _
  new hcallee h _ _ _ _ := by simpa [Expr.pieces, Piece.Meets, hcallee _ _ _ _] using written_exprPieces h _
  member h _ _ _ _ _ := by simpa [Expr.pieces, Piece.Meets] using h _ _ _ _
  index hobject hkey _ _ _ _ := by simpa [Expr.pieces, Piece.Meets, hobject _ _ _ _] using hkey _ _ _ _
  stepped _ h _ _ _ _ := by simpa [Expr.pieces, Piece.Meets] using h _ _ _ _
  step _ h _ _ _ _ := by simpa [Expr.pieces, Piece.Meets] using h _ _ _ _
  unary h _ _ _ _ := by simpa [Expr.pieces, Piece.Meets] using h _ _ _ _
  power hleft hright _ _ _ _ := by simpa [Expr.pieces, Piece.Meets, hleft _ _ _ _] using hright _ _ _ _
  binary _ hleft hright _ _ _ _ := by simpa [Expr.pieces, Piece.Meets, hleft _ _ _ _] using hright _ _ _ _
  assign _ htarget hvalue _ _ _ _ := by simpa [Expr.pieces, Piece.Meets, htarget _ _ _ _] using hvalue _ _ _ _
  weakenStmt h := h
  declaration {d} h _ _ _ c := by
    obtain ⟨kind, bindings, span⟩ := d
    simpa [Stmt.pieces, Piece.Meets] using written_variablePieces h.2 c
  functionDecl _ h _ _ _ c := by simpa [Stmt.pieces, Piece.Meets] using h.written c
  classDecl _ hbase hmembers _ _ _ _ := by
    simp [Stmt.pieces, Piece.Meets, written_heritagePieces fun e he => (hbase e he).2, written_memberPieces hmembers]
  block {b} h _ _ place c := by
    obtain ⟨body, span⟩ := b
    cases place with
    | lines => exact meet_bracedPieces.mpr (written_stmtPieces h _)
    | inside => exact written_stmtPieces h _
  ifElse htest hconsequent halternate _ _ _ _ := by
    simp [Stmt.pieces, Piece.Meets, htest _ _ _ _, hconsequent _ _ _ _, written_elsePieces halternate]
  forLoop hinit htest hupdate hbody _ _ _ _ := by
    simp [Stmt.pieces, Piece.Meets, written_initPieces hinit, written_clausePieces htest, written_clausePieces hupdate,
      hbody _ _ _ _]
  forEach _ hiterable hbody _ _ _ _ := by simp [Stmt.pieces, Piece.Meets, hiterable _ _ _ _, hbody _ _ _ _]
  whileLoop htest hbody _ _ _ _ := by simp [Stmt.pieces, Piece.Meets, htest _ _ _ _, hbody _ _ _ _]
  ret {value _} h _ _ _ _ := by
    cases value with
    | none => simp [Stmt.pieces, Piece.Meets]
    | some e => simpa [Stmt.pieces, Piece.Meets] using h e rfl _ _ _ _
  expression h _ _ _ _ := by simpa [Stmt.pieces, Piece.Meets] using h _ _ _ _

end Written

/-- In a program that was read, every name that is declared is written. -/
theorem Program.written {ts : List Token} {p : Program} (h : parse ts = .ok p) (options : CheckOptions)
    (unit : String) : Written (p.pieces options unit) := by
  have hstmts : ∀ s ∈ p.body, writing.stmt s := parse_upholds (I := fun _ => writing) (fun _ => builds_writing) h
  exact fun q hq => written_stmtPieces hstmts _ q (List.dropLast_subset _ hq)

end Vernacular
