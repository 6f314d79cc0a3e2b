import Vernacular.Proofs.Check.Frame
import Vernacular.Proofs.Script.Pieces

/-!
# Names that are found are declared

The scopes of a check hold names that the program declares. So where a piece of code uses a name and the check finds it,
there is a piece that declares it. And where the check does not find it, the name needs no declaration, if nothing is
reported.

- `Scopes.Within`, `Checker.Within`: all names in the scopes, with their places, are among some given ones;
- `Walk`: what becomes of the names and of the errors while a check goes along with pieces;
- `Expr.walk`, `Stmt.walk`: by induction on the tree;
- `Program.found_declared`, `Program.provided`: for programs.
-/

namespace Vernacular

variable {ps : List Piece} {name : String} {margin : Margin} {c : Checker}

/-! ## Scopes whose names are known -/

namespace Scopes

variable {B : Ident → Prop} {s t : Scopes}

/-- Every name in the scopes is, with its place, among the names `B`. -/
def Within (B : Ident → Prop) (s : Scopes) : Prop := ∀ scope ∈ s.toList, ∀ n ∈ scope.names, B ⟨n.1, n.2⟩

/-- Only which names the scopes hold counts. -/
theorem Within.of_toList_eq (hs : s.Within B) (h : t.toList = s.toList) : t.Within B := by
  intro scope hscope
  rw [h] at hscope
  exact hs scope hscope

theorem within_start : start.Within B := by
  intro scope hscope n hn
  cases List.mem_singleton.mp hscope
  cases hn

/-- A new scope holds nothing. -/
theorem Within.enter (hs : s.Within B) (kind : ScopeKind) : (s.enter kind).Within B := by
  intro scope hscope n hn
  rcases List.mem_cons.mp hscope with rfl | hscope
  · cases hn
  · exact hs scope hscope n hn

/-- Leaving a scope loses names only. -/
theorem Within.exit (hs : s.Within B) : s.exit.Within B := by
  intro scope hscope
  refine hs scope ?_
  rcases List.mem_append.mp hscope with hscope | hscope
  · exact List.mem_append_left _ (List.mem_of_mem_tail hscope)
  · exact List.mem_append_right _ hscope

/-- A declaration adds one name, with its place. -/
theorem Within.declare (hs : s.Within B) {place : Span} (h : B ⟨name, place⟩) : (s.declare name place).Within B := by
  obtain ⟨scope, outer, htoList⟩ := s.exists_toList
  intro scope' hscope n hn
  rw [toList_declare htoList] at hscope
  rw [Within, htoList] at hs
  rcases List.mem_cons.mp hscope with rfl | hscope
  · rcases List.mem_cons.mp hn with rfl | hn
    · exact h
    · exact hs scope List.mem_cons_self n hn
  · exact hs scope' (List.mem_cons_of_mem scope hscope) n hn

/-- A name is found at a place where it was declared. -/
theorem Within.lookup (hs : s.Within B) {place : Span} (h : s.lookup? name = some place) : B ⟨name, place⟩ := by
  obtain ⟨scope, hscope, hfound⟩ := List.exists_of_findSome?_eq_some h
  obtain ⟨before, after, hnames, -⟩ := List.lookup_eq_some_iff.mp hfound
  exact hs scope hscope (name, place) (by rw [hnames]; simp)

end Scopes

/-- The name that a statement makes known to those beside it. -/
def Stmt.hoistedName? : Stmt → Option Ident
  | .function callable => callable.name
  | .classDecl name _ _ _ _ => some name
  | _ => none

namespace Checker

variable {B : Ident → Prop}

/-- Every name in the scopes of the check is among the names `B`. -/
def Within (B : Ident → Prop) (c : Checker) : Prop := c.scopes.Within B

namespace Within

theorem declare (hc : c.Within B) {id : Ident} (h : B id) : (c.declare id).Within B := Scopes.Within.declare hc h

/-- A callable that has a name declares it inside of itself, unless the name is taken. -/
theorem declareSelf (hc : c.Within B) {name : Option Ident} (h : ∀ id ∈ name, B id) :
    (c.declareSelf name).Within B := by
  cases name with
  | none => exact hc
  | some id =>
    rw [Checker.declareSelf]
    split
    · exact hc
    · exact hc.declare (h id rfl)

/-- A class declares its name where it is reached, unless it stands at the top. -/
theorem declareClass (hc : c.Within B) {name : Ident} (h : B name) : (c.declareClass name).Within B := by
  rw [Checker.declareClass]
  split
  · exact hc
  · exact Scopes.Within.declare hc h

/-- The functions and classes of a body are declared before it is looked at. -/
theorem hoist (hc : c.Within B) {body : List Stmt} (h : ∀ s ∈ body, ∀ id ∈ s.hoistedName?, B id) :
    (c.hoist body).Within B := by
  induction body generalizing c with
  | nil => exact hc
  | cons s body ih =>
    refine ih (c := c.hoistOne s) ?_ fun s' hs' => h s' (List.mem_cons_of_mem s hs')
    have hs := h s List.mem_cons_self
    cases s with
    | function callable =>
      obtain ⟨name, params, result, body, span⟩ := callable
      cases name with
      | none => exact hc
      | some id => exact hc.declare (hs id rfl)
    | classDecl name => exact hc.declare (hs name rfl)
    | _ => exact hc

end Within

end Checker

/-! ## Checks that report nothing -/

section Errors

open Checker

variable {options : CheckOptions}

/-- Declaring ahead reports nothing. -/
theorem Checker.errors_hoist (c : Checker) (body : List Stmt) : (c.hoist body).errors = c.errors := by
  induction body generalizing c with
  | nil => rfl
  | cons s body ih =>
    have hs : (c.hoistOne s).errors = c.errors := by
      unfold hoistOne
      split <;> rfl
    exact (ih (c.hoistOne s)).trans hs

theorem Checker.errors_declareSelf (c : Checker) (name : Option Ident) : (c.declareSelf name).errors = c.errors := by
  cases name with
  | none => rfl
  | some id =>
    rw [declareSelf]
    split <;> rfl

theorem Checker.errors_declareClass (c : Checker) (name : Ident) : (c.declareClass name).errors = c.errors := by
  rw [declareClass]
  split <;> rfl

/-- If nothing is reported, then nothing was before, and nothing ever is. -/
theorem Checker.errors_report {error : SemanticError} (h : (c.report options error).errors = []) :
    c.errors = [] ∧ options.maxErrors = some 0 := by
  rw [report] at h
  split at h
  · rename_i hfull
    refine ⟨h, ?_⟩
    cases hmax : options.maxErrors with
    | none => simp [hmax] at hfull
    | some bound => simpa [hmax, h] using hfull
  · simp at h

/-- A check of a type takes no report back. -/
theorem Checker.errors_checkType {type : Option Ident} (h : (c.checkType options type).errors = []) :
    c.errors = [] := by
  cases type with
  | none => exact h
  | some t =>
    rw [checkType] at h
    dsimp only at h
    split at h
    · exact h
    · exact (errors_report h).1

/-- If nothing is reported after a name was looked up, then it was found or needs no declaration, or there is no room
for reports. -/
theorem Checker.provided_resolve {position : Position} (h : (c.resolve options name position).errors = []) :
    c.errors = [] ∧ (c.scopes.lookup? name = none → name ∈ options.names ∨ options.maxErrors = some 0) := by
  rw [resolve] at h
  dsimp only at h
  split at h
  · rename_i hseen
    refine ⟨h, fun hnone => .inl ?_⟩
    simpa [Scopes.isDeclared, hnone] using hseen
  · exact ⟨(errors_report h).1, fun _ => .inr (errors_report h).2⟩

end Errors

/-! ## The names in pieces -/

/-- `D` holds of a name that is declared in the piece, `S` of one that is declared but not written, and `U` of one that
is used and of where it was found. -/
def Piece.Meets (D S : Ident → Prop) (U : String → Option Span → Prop) : Piece → Prop
  | fixed _ => True
  | used name place => U name place
  | declared id => D id
  | silent id => S id

/-- All the pieces meet the conditions. -/
def Meet (D S : Ident → Prop) (U : String → Option Span → Prop) (ps : List Piece) : Prop := ∀ p ∈ ps, p.Meets D S U

section Meet

variable {D S : Ident → Prop} {U : String → Option Span → Prop}

@[simp] theorem meet_nil : Meet D S U [] := by simp [Meet]

/-- What is asked of pieces is asked of each. -/
@[simp] theorem meet_cons {p : Piece} : Meet D S U (p :: ps) ↔ p.Meets D S U ∧ Meet D S U ps := by
  simp [Meet]

@[simp] theorem meet_append {qs : List Piece} : Meet D S U (ps ++ qs) ↔ Meet D S U ps ∧ Meet D S U qs := by
  simp only [Meet, List.mem_append, or_imp, forall_and]

/-- The commas between pieces ask for nothing. -/
@[simp] theorem meet_commaPieces {pss : List (List Piece)} :
    Meet D S U (commaPieces pss) ↔ ∀ ps ∈ pss, Meet D S U ps := by
  fun_induction commaPieces pss with
  | case1 => simp
  | case2 ps => simp
  | case3 ps qs rest ih => simp [ih, Piece.Meets]

@[simp] theorem meet_flatten {pss : List (List Piece)} : Meet D S U pss.flatten ↔ ∀ ps ∈ pss, Meet D S U ps := by
  induction pss with
  | nil => simp
  | cons ps pss ih => simp [ih]

/-- Neither do parentheses ask for anything. -/
@[simp] theorem meet_parensPieces {b : Bool} : Meet D S U (parensPieces b ps) ↔ Meet D S U ps := by
  cases b <;> simp [parensPieces, Piece.Meets]

@[simp] theorem meet_linePieces : Meet D S U (margin.linePieces ps) ↔ Meet D S U ps := by
  simp [Margin.linePieces, Piece.Meets]

@[simp] theorem meet_putPieces {place : Place} : Meet D S U (place.putPieces margin ps) ↔ Meet D S U ps := by
  cases place
  · rfl
  · exact meet_linePieces

@[simp] theorem meet_bracedPieces : Meet D S U (bracedPieces margin ps) ↔ Meet D S U ps := by
  unfold bracedPieces
  cases ps <;> simp [Piece.Meets]

/-- Names that show in no code. -/
@[simp] theorem meet_silent {name : Option Ident} : Meet D S U (name.toList.map .silent) ↔ ∀ id ∈ name, S id := by
  cases name <;> simp [Piece.Meets]

/-- The name of a callable is declared where its code has it. -/
@[simp] theorem Callable.meet_namePieces {callable : Callable} :
    Meet D S U callable.namePieces ↔ ∀ id ∈ callable.name, D id := by
  unfold namePieces
  cases callable.name <;> simp [Piece.Meets]

end Meet

/-- Every name that is declared in the pieces is among the names `B`. -/
abbrev Declares (B : Ident → Prop) (ps : List Piece) : Prop := Meet B B (fun _ _ => True) ps

/-- Every name that is used in the pieces and was found is among the names `B`. -/
abbrev Finds (B : Ident → Prop) (ps : List Piece) : Prop :=
  Meet (fun _ => True) (fun _ => True) (fun name place => ∀ p, place = some p → B ⟨name, p⟩) ps

/-- Every name that is used in the pieces and was not found needs no declaration, unless no error is ever reported. -/
abbrev Provided (options : CheckOptions) (ps : List Piece) : Prop :=
  Meet (fun _ => True) (fun _ => True)
    (fun name place => place = none → name ∈ options.names ∨ options.maxErrors = some 0) ps

/-! ## Checks that go along with pieces -/

/-- From the state `c` to the state `d`, a check goes along with the pieces: if all that they declare is among some
names, then so is all that is left in the scopes and all that was found for the pieces; and if nothing is reported, then
what was not found needs no declaration. -/
structure Walk (options : CheckOptions) (c : Checker) (ps : List Piece) (d : Checker) : Prop where
  within : ∀ {B}, Declares B ps → c.Within B → d.Within B
  finds : ∀ {B}, Declares B ps → c.Within B → Finds B ps
  quiet : d.errors = [] → c.errors = [] ∧ Provided options ps

namespace Walk

open Checker

variable {options : CheckOptions} {d e : Checker} {qs : List Piece}

/-- One walk after another. -/
theorem append (h : Walk options c ps d) (h' : Walk options d qs e) : Walk options c (ps ++ qs) e where
  within hd hc := by
    obtain ⟨hp, hq⟩ := meet_append.mp hd
    exact h'.within hq (h.within hp hc)
  finds hd hc := by
    obtain ⟨hp, hq⟩ := meet_append.mp hd
    exact meet_append.mpr ⟨h.finds hp hc, h'.finds hq (h.within hp hc)⟩
  quiet he := by
    obtain ⟨hd, hq⟩ := h'.quiet he
    obtain ⟨hc, hp⟩ := h.quiet hd
    exact ⟨hc, meet_append.mpr ⟨hp, hq⟩⟩

/-- Only the names in the pieces count. -/
theorem congr (h : Walk options c ps d) (hq : ∀ D S U, Meet D S U qs ↔ Meet D S U ps) : Walk options c qs d where
  within hd hc := h.within ((hq ..).mp hd) hc
  finds hd hc := (hq ..).mpr (h.finds ((hq ..).mp hd) hc)
  quiet he := (h.quiet he).imp id (hq ..).mpr

/-- A step beside the pieces. -/
theorem step (hscopes : ∀ {B}, c.Within B → d.Within B) (herrors : d.errors = [] → c.errors = []) :
    Walk options c [] d :=
  ⟨fun _ => hscopes, fun _ _ => meet_nil, fun he => ⟨herrors he, meet_nil⟩⟩

theorem refl : Walk options c [] c := .step id id

/-- Opening a scope is a step without pieces. -/
theorem enter (c : Checker) (kind : ScopeKind) : Walk options c [] (c.enter kind) :=
  .step (Scopes.Within.enter · kind) id

/-- So is leaving one. -/
theorem exit : Walk options c [] c.exit := .step Scopes.Within.exit id

theorem checkType (c : Checker) (type : Option Ident) : Walk options c [] (c.checkType options type) :=
  .step (Scopes.Within.of_toList_eq · (c.checkType_ran options type).scopes.toList_eq) errors_checkType

/-- A name that is looked up is a piece that uses it, with the place that the scopes give. -/
theorem used {position : Position} :
    Walk options c [.used name (c.scopes.lookup? name)] (c.resolve options name position) where
  within _ hc := Scopes.Within.of_toList_eq hc
    (resolve_ran options c.scopes.sees_visibleNames name position).scopes.toList_eq
  finds _ hc := meet_cons.mpr ⟨fun _ hplace => Scopes.Within.lookup hc hplace, meet_nil⟩
  quiet he := (provided_resolve he).imp id fun h => meet_cons.mpr ⟨h, meet_nil⟩

/-- A step that declares a name is a piece that declares it. -/
theorem declared {id : Ident} (hscopes : ∀ {B}, B id → c.Within B → d.Within B)
    (herrors : d.errors = [] → c.errors = []) : Walk options c [.declared id] d where
  within hd := hscopes (meet_cons.mp hd).1
  finds _ _ := meet_cons.mpr ⟨trivial, meet_nil⟩
  quiet he := ⟨herrors he, meet_cons.mpr ⟨trivial, meet_nil⟩⟩

theorem declare (c : Checker) (id : Ident) : Walk options c [.declared id] (c.declare id) :=
  .declared (fun h hc => hc.declare h) fun he => he

/-- The name of a callable, whether its code shows it or not. -/
theorem declareSelf (c : Checker) {name : Option Ident} (h : ∀ B U, Meet B B U ps ↔ ∀ id ∈ name, B id) :
    Walk options c ps (c.declareSelf name) where
  within hd hc := hc.declareSelf ((h ..).mp hd)
  finds _ _ := (h ..).mpr fun _ _ => trivial
  quiet he := ⟨(c.errors_declareSelf name).symm.trans he, (h ..).mpr fun _ _ => trivial⟩

/-- What is declared anywhere in the pieces is known from the beginning. -/
theorem hoisted {body : List Stmt} (h : Walk options (c.hoist body) ps d)
    (hp : ∀ {B}, Declares B ps → ∀ s ∈ body, ∀ id ∈ s.hoistedName?, B id) : Walk options c ps d where
  within hd hc := h.within hd (hc.hoist (hp hd))
  finds hd hc := h.finds hd (hc.hoist (hp hd))
  quiet he := (h.quiet he).imp (c.errors_hoist body).symm.trans id

/-- What leaves the scopes as they were need not be written. -/
theorem unwritten (h : Walk options c ps d) (hd : d.scopes.toList = c.scopes.toList) : Walk options c [] d :=
  .step (Scopes.Within.of_toList_eq · hd) fun he => (h.quiet he).1

end Walk

/-! ## Trees -/

section Declared

variable {options : CheckOptions}

/-- A statement declares what it makes known to those beside it. -/
theorem Stmt.declares_hoistedName? {B : Ident → Prop} {place : Place} {s : Stmt}
    (hd : Declares B (s.pieces options margin place c)) : ∀ id ∈ s.hoistedName?, B id := by
  cases s with
  | function callable =>
    simp only [Stmt.pieces, meet_putPieces, meet_append, meet_cons, Callable.meet_namePieces] at hd
    exact hd.1.2
  | classDecl name =>
    simp only [Stmt.pieces, meet_putPieces, meet_append, meet_cons] at hd
    rintro id ⟨⟩
    exact hd.1.2.1
  | _ => exact nofun

/-- The functions and classes that a body declares ahead are among the names that its own pieces declare. -/
theorem declares_hoistedNames {B : Ident → Prop} : ∀ {ss : List Stmt} {c : Checker},
    Declares B (stmtPieces options margin ss c) → ∀ s ∈ ss, ∀ id ∈ s.hoistedName?, B id
  | [], _, _ => by simp
  | s :: ss, c, hd => by
    rw [stmtPieces] at hd
    obtain ⟨hs, hss⟩ := meet_append.mp hd
    refine List.forall_mem_cons.mpr ⟨?_, declares_hoistedNames hss⟩
    exact Stmt.declares_hoistedName? (meet_linePieces.mp hs)

mutual

/-- The check of an expression goes along with its pieces. By induction on the tree: the pieces of a node are those
of its parts in the order in which the check visits them. -/
theorem Expr.walk (margin : Margin) (role : Role) : ∀ (e : Expr) {c : Checker},
    Walk options c (e.pieces options margin role c) (e.check options c)
  | .literal .., _ | .this _, _ | .super _, _ | .object [] _, _ =>
    Walk.refl.congr fun _ _ _ => by simp [Expr.pieces, Piece.Meets]
  | .ident .., _ => .used
  | .array items _, _ => (walk_exprPieces margin items).congr fun _ _ _ => by simp [Expr.pieces, Piece.Meets]
  | .object (p :: ps) _, _ => (walk_propertyPieces margin (p :: ps)).congr fun _ _ _ => by
    simp [Expr.pieces, Piece.Meets]
  | .function callable, _ => (callable.walk margin fun _ _ => callable.meet_namePieces).congr fun _ _ _ => by
    simp [Expr.pieces, Piece.Meets]
  | .unary _ operand _, _ => (operand.walk margin .value).congr fun _ _ _ => by simp [Expr.pieces, Piece.Meets]
  | .update _ before target _, _ => (target.walk margin .value).congr fun _ _ _ => by
    cases before <;> simp [Expr.pieces, Piece.Meets]
  | .binary _ left right _, _ => ((left.walk margin .value).append (right.walk margin .value)).congr fun _ _ _ => by
    simp [Expr.pieces, Piece.Meets]
  | .assign _ target value _, _ => ((target.walk margin .value).append (value.walk margin .value)).congr fun _ _ _ => by
    simp [Expr.pieces, Piece.Meets]
  | .call callee args _ _, _ => ((callee.walk margin .callee).append
      (walk_exprPieces margin args)).congr fun _ _ _ => by
    simp [Expr.pieces, Piece.Meets]
  | .new callee args _, _ => ((callee.walk margin .value).append (walk_exprPieces margin args)).congr fun _ _ _ => by
    simp [Expr.pieces, Piece.Meets]
  | .member object _ _ _, _ => (object.walk margin .value).congr fun _ _ _ => by simp [Expr.pieces, Piece.Meets]
  | .index object key _ _, _ => ((object.walk margin .value).append (key.walk margin .value)).congr fun _ _ _ => by
    simp [Expr.pieces, Piece.Meets]

/-- Expressions in a row. -/
theorem walk_exprPieces (margin : Margin) : ∀ (es : List Expr) {c : Checker},
    Walk options c (exprPieces options margin es c).flatten (checkExprs options es c)
  | [], _ => .refl
  | e :: es, _ => (e.walk margin .value).append (walk_exprPieces margin es)

theorem walk_propertyPieces (margin : Margin) : ∀ (ps : List Property) {c : Checker},
    Walk options c (propertyPieces options margin ps c).flatten (checkProperties options ps c)
  | [], _ => .refl
  | ⟨_, e, _⟩ :: ps, _ => ((e.walk margin .value).append (walk_propertyPieces margin ps)).congr fun _ _ _ => by
    simp [propertyPieces, Piece.Meets]

theorem walk_valuePieces (margin : Margin) : ∀ (e : Option Expr) {c : Checker},
    Walk options c (valuePieces options margin e c) (checkExpr? options e c)
  | none, _ => .refl
  | some e, _ => (e.walk margin .value).congr fun _ _ _ => by simp [valuePieces, Piece.Meets]

theorem walk_clausePieces (margin : Margin) : ∀ (e : Option Expr) {c : Checker},
    Walk options c (clausePieces options margin e c) (checkExpr? options e c)
  | none, _ => .refl
  | some e, _ => (e.walk margin .value).congr fun _ _ _ => by simp [clausePieces, Piece.Meets]

theorem walk_heritagePieces (margin : Margin) : ∀ (e : Option Expr) {c : Checker},
    Walk options c (heritagePieces options margin e c) (checkExpr? options e c)
  | none, _ => .refl
  | some e, _ => (e.walk margin .value).congr fun _ _ _ => by simp [heritagePieces, Piece.Meets]

/-- Variables: each is declared before its value is looked at. -/
theorem walk_variablePieces (margin : Margin) : ∀ (bs : List Binding) {c : Checker},
    Walk options c (variablePieces options margin bs c).flatten (checkVariables options bs c)
  | [], _ => .refl
  | ⟨id, type, value, _⟩ :: bs, c => by
    have hvalue := ((Walk.declare c id).append (.checkType _ type)).append (walk_valuePieces margin value)
    exact (hvalue.append (walk_variablePieces margin bs)).congr fun _ _ _ => by simp [variablePieces]

/-- Parameters: each is declared after its default was looked at. -/
theorem walk_paramPieces (margin : Margin) : ∀ (bs : List Binding) {c : Checker},
    Walk options c (paramPieces options margin bs c).flatten (checkParams options bs c)
  | [], _ => .refl
  | ⟨id, type, value, _⟩ :: bs, c => by
    have hvalue := ((Walk.checkType c type).append (walk_valuePieces margin value)).append (.declare _ id)
    exact (hvalue.append (walk_paramPieces margin bs)).congr fun _ _ _ => by simp [paramPieces, and_left_comm]

/-- A callable, whose name is declared by the pieces before it. -/
theorem Callable.walk (margin : Margin) : ∀ (callable : Callable) {c : Checker} {names : List Piece},
    (∀ B U, Meet B B U names ↔ ∀ id ∈ callable.name, B id) →
      Walk options c (names ++ callable.pieces options margin c) (callable.check options c)
  | ⟨_, params, result, body, _⟩, c, _, hnames => by
    have hparams := ((Walk.enter c .function).append (.declareSelf _ hnames)).append (walk_paramPieces margin params)
    have hbody := (hparams.append (.checkType _ result)).append (walk_bodyPieces margin.deeper body)
    exact (hbody.append .exit).congr fun _ _ _ => by simp [Callable.pieces, Piece.Meets]

/-- The body of a callable, whose functions and classes are declared ahead. -/
theorem walk_bodyPieces (margin : Margin) : ∀ (body : Option Block) {c : Checker},
    Walk options c (bodyPieces options margin body c) (checkBody? options body c)
  | none, _ => .refl
  | some ⟨body, _⟩, _ => (walk_stmtPieces margin body).hoisted declares_hoistedNames

theorem walk_initPieces (margin : Margin) : ∀ (init : Option ForInit) {c : Checker},
    Walk options c (initPieces options margin init c) (checkInit? options init c)
  | none, _ => .refl
  | some (.declaration ⟨_, bindings, _⟩), _ => (walk_variablePieces margin bindings).congr fun _ _ _ => by
    simp [initPieces, Piece.Meets]
  | some (.expression e), _ => e.walk margin .value

/-- The check of a statement goes along with its pieces. By induction on the tree. -/
theorem Stmt.walk (margin : Margin) (place : Place) : ∀ (s : Stmt) {c : Checker},
    Walk options c (s.pieces options margin place c) (s.check options c)
  | .declaration ⟨_, bindings, _⟩, _ => (walk_variablePieces margin bindings).congr fun _ _ _ => by
    simp [Stmt.pieces, Piece.Meets]
  | .function callable, _ => (callable.walk margin fun _ _ => callable.meet_namePieces).congr fun _ _ _ => by
    simp [Stmt.pieces, Piece.Meets]
  | .classDecl name base _ members _, c => by
    have hclass : Walk options c [.declared name] (c.declareClass name) :=
      .declared (fun h hc => hc.declareClass h) (c.errors_declareClass name).symm.trans
    have hbase := hclass.append (walk_heritagePieces margin base)
    exact (hbase.append (walk_memberPieces margin.deeper members)).congr fun _ _ _ => by
      simp [Stmt.pieces, Piece.Meets]
  | .block ⟨body, _⟩, c => by
    have hbody (margin : Margin) :=
      (Walk.enter c .block).append ((walk_stmtPieces margin body).hoisted declares_hoistedNames)
    cases place with
    | lines => exact ((hbody margin.deeper).append .exit).congr fun _ _ _ => by simp [Stmt.pieces]
    | inside => exact ((hbody margin).append .exit).congr fun _ _ _ => by simp [Stmt.pieces]
  | .ifElse test consequent alternate _, c => by
    have hbranch := (test.walk margin .value (c := c)).append (consequent.walk margin.deeper .inside)
    exact (hbranch.append (walk_elsePieces margin alternate)).congr fun _ _ _ => by
      simp [Stmt.pieces, Piece.Meets]
  | .forLoop init test update body _, c => by
    have hinit := (Walk.enter c .loop).append (walk_initPieces margin init)
    have hclauses := (hinit.append (walk_clausePieces margin test)).append (walk_clausePieces margin update)
    exact ((hclauses.append (body.walk margin.deeper .inside)).append .exit).congr fun _ _ _ => by
      simp [Stmt.pieces, Piece.Meets]
  | .forEach _ id type iterable body _, c => by
    have hiterable := (iterable.walk margin .value (c := c)).append (.enter _ .loop)
    have hid := (hiterable.append (.checkType _ type)).append (.declare _ id)
    exact ((hid.append (body.walk margin.deeper .inside)).append .exit).congr fun _ _ _ => by
      simp [Stmt.pieces, Piece.Meets, and_left_comm]
  | .whileLoop test body _, _ => ((test.walk margin .value).append
      (body.walk margin.deeper .inside)).congr fun _ _ _ => by
    simp [Stmt.pieces, Piece.Meets]
  | .ret none _, _ => Walk.refl.congr fun _ _ _ => by simp [Stmt.pieces, Piece.Meets]
  | .ret (some value) _, _ => (value.walk margin .value).congr fun _ _ _ => by simp [Stmt.pieces, Piece.Meets]
  | .expression e _, _ => (e.walk margin .value).congr fun _ _ _ => by simp [Stmt.pieces, Piece.Meets]

theorem walk_elsePieces (margin : Margin) : ∀ (s : Option Stmt) {c : Checker},
    Walk options c (elsePieces options margin s c) (checkStmt? options s c)
  | none, _ => .refl
  | some s, c => by
    cases s with
    | ifElse test consequent alternate _ =>
      have hbranch := (test.walk margin .value (c := c)).append (consequent.walk margin.deeper .inside)
      exact (hbranch.append (walk_elsePieces margin alternate)).congr fun _ _ _ => by
        simp [elsePieces, Piece.Meets]
    | _ =>
      rw [elsePieces_of_not_isIf _ rfl]
      exact (Stmt.walk margin.deeper .inside _).congr fun _ _ _ => by simp [Piece.Meets]

/-- Statements in a row: each starts from the state that the one before it left. -/
theorem walk_stmtPieces (margin : Margin) : ∀ (ss : List Stmt) {c : Checker},
    Walk options c (stmtPieces options margin ss c) (checkStmts options ss c)
  | [], _ => .refl
  | s :: ss, _ => ((s.walk margin .lines).append (walk_stmtPieces margin ss)).congr fun _ _ _ => by simp [stmtPieces]

/-- Members of a class. -/
theorem walk_memberPieces (margin : Margin) : ∀ (ms : List Member) {c : Checker},
    Walk options c (memberPieces options margin ms c) (checkMembers options ms c)
  | [], _ => .refl
  | .method _ _ callable _ _ _ :: ms, c => by
    have hcallable := callable.walk margin (c := c) fun _ _ => meet_silent
    rw [memberPieces]
    split
    · exact (hcallable.unwritten (callable.toList_check options c)).append (walk_memberPieces margin ms)
    · exact (hcallable.append (walk_memberPieces margin ms)).congr fun _ _ _ => by simp [Piece.Meets, and_assoc]
  | .field _ type value _ _ _ :: ms, c => by
    have hvalue := (Walk.checkType c type).append (walk_valuePieces margin value)
    exact (hvalue.append (walk_memberPieces margin ms)).congr fun _ _ _ => by simp [memberPieces, Piece.Meets]

end

/-- A name that is found is declared in some piece, there where it is found. -/
theorem Program.found_declared {unit : String} {p : Program} {place : Span}
    (h : .used name (some place) ∈ p.pieces options unit) :
    .declared ⟨name, place⟩ ∈ p.pieces options unit ∨ .silent ⟨name, place⟩ ∈ p.pieces options unit := by
  let c := (collectClasses options (topClasses p.body) [] (.start options)).hoist p.body
  let ps := stmtPieces options ⟨unit, 0⟩ p.body c
  have h : .used name (some place) ∈ ps.dropLast := h
  show .declared ⟨name, place⟩ ∈ ps.dropLast ∨ .silent ⟨name, place⟩ ∈ ps.dropLast
  -- the line end that is left out at the end of the pieces has no name in it
  have hlast {q : Piece} (hq : q ∈ ps) (hne : ∀ t, q ≠ .fixed t) : q ∈ ps.dropLast := by
    obtain ⟨init, hinit⟩ := wholeLines_stmtPieces options ⟨unit, 0⟩ p.body c (List.ne_nil_of_mem hq)
    have hps : ps = init ++ [.fixed "\n"] := hinit
    rw [hps] at hq ⊢
    rcases List.mem_append.mp hq with hq | hq
    · rw [List.dropLast_concat]
      exact hq
    · exact absurd (List.mem_singleton.mp hq) (hne _)
  let B : Ident → Prop := fun id => .declared id ∈ ps ∨ .silent id ∈ ps
  have hdeclares : Declares B ps := by
    intro q hq
    cases q with
    | fixed t => trivial
    | used name place => trivial
    | declared id => exact .inl hq
    | silent id => exact .inr hq
  have hstart : (collectClasses options (topClasses p.body) [] (.start options)).Within B := by
    rw [Checker.Within, (collectClasses_scopes_types options (topClasses p.body) [] (.start options)).1]
    exact Scopes.within_start
  have hfinds := (walk_stmtPieces ⟨unit, 0⟩ p.body).finds hdeclares (hstart.hoist (declares_hoistedNames hdeclares))
  have hfound : B ⟨name, place⟩ := hfinds _ (List.dropLast_subset ps h) place rfl
  exact hfound.imp (hlast · nofun) (hlast · nofun)

/-- If a check reports nothing, every name that is used and not found needs no declaration. -/
theorem Program.provided {unit : String} {p : Program} (h : (p.check options).errors = []) :
    Provided options (p.pieces options unit) :=
  fun q hq => ((walk_stmtPieces ⟨unit, 0⟩ p.body).quiet h).2 q (List.dropLast_subset _ hq)

end Declared

end Vernacular
