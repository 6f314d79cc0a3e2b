import Vernacular.Proofs.Tree.Sound

/-!
# What shows of a tree

Types, interfaces, access and decorators leave nothing in generated code, and neither do methods without a body or the
name that the callable of a method may have. `Expr.Shown`, `Stmt.Shown` and their companions ask nothing of them. Of all
else they ask that the names and literals be ones that a `Lexicon` allows; and, if `kept` holds, that the promises be
kept that generation checks before it writes.

So `Shown V False` says that the leaves of the code can be written and leaves the shape of the tree free, while
`Shown V True` is what is left of `Sound V` for generation (`Expr.Sound.shown`).
-/

namespace Vernacular

/-- The name of a member: that of a constructor, or any that a property may have. -/
def PropertyName.Shown (V : Lexicon) (name : PropertyName) : Prop := name = .plain "constructor" ∨ name.Sound V

theorem PropertyName.SoundFor.shown {V : Lexicon} {kind : MethodKind} {name : PropertyName} (h : name.SoundFor V kind) :
    name.Shown V := by
  cases kind with
  | constructor => exact .inl h
  | getter => exact .inr h
  | setter => exact .inr h
  | ordinary =>
    cases name with
    | plain s => exact .inr h.1
    | hashed s => exact .inr h

section

variable (V : Lexicon) (kept : Prop)

mutual

/-- The leaves of the expression's code are allowed, and its promises are kept if `kept` holds. -/
def Expr.Shown : Expr → Prop
  | .literal value _ => value.Sound V
  | .ident n _ => V.ident n
  | .this _ | .super _ => True
  | .array items _ => ExprsShown items
  | .object properties _ => PropertiesShown properties
  | .function callable => (kept → callable.body.isSome) ∧ callable.Shown
  | .unary _ operand _ => operand.Shown
  | .update _ _ target _ => (kept → target.isAssignable) ∧ target.Shown
  | .binary _ left right _ => left.Shown ∧ right.Shown
  | .assign _ target value _ => (kept → target.isAssignable) ∧ target.Shown ∧ value.Shown
  | .call callee args _ _ => callee.Shown ∧ ExprsShown args
  | .new callee args _ => callee.Shown ∧ ExprsShown args
  | .member object name _ _ => object.Shown ∧ name.Sound V
  | .index object key _ _ => object.Shown ∧ key.Shown

def ExprsShown : List Expr → Prop
  | [] => True
  | e :: es => e.Shown ∧ ExprsShown es

def OptExprShown : Option Expr → Prop
  | none => True
  | some e => e.Shown

def PropertiesShown : List Property → Prop
  | [] => True
  | ⟨key, value, _⟩ :: ps => (key.Sound V ∧ value.Shown) ∧ PropertiesShown ps

def BindingsShown : List Binding → Prop
  | [] => True
  | ⟨id, _, value, _⟩ :: bs => (V.bound id.name ∧ OptExprShown value) ∧ BindingsShown bs

def Callable.Shown : Callable → Prop
  | ⟨name, params, _, body, _⟩ => (∀ id ∈ name, V.bound id.name) ∧ BindingsShown params ∧ OptBlockShown body

def OptBlockShown : Option Block → Prop
  | none => True
  | some ⟨body, _⟩ => StmtsShown body

def Declaration.Shown : Declaration → Prop
  | ⟨_, bindings, _⟩ => (kept → bindings ≠ []) ∧ BindingsShown bindings

def OptForInitShown : Option ForInit → Prop
  | none => True
  | some (.declaration d) => d.Shown
  | some (.expression e) => e.Shown

/-- The leaves of the statement's code are allowed, and its promises are kept if `kept` holds. -/
def Stmt.Shown : Stmt → Prop
  | .declaration d => d.Shown
  | .function callable => (kept → callable.name.isSome ∧ callable.body.isSome) ∧ callable.Shown
  | .classDecl name base _ members _ => V.bound name.name ∧ OptExprShown base ∧ MembersShown members
  | .block ⟨body, _⟩ => StmtsShown body
  | .ifElse test consequent alternate _ => test.Shown ∧ consequent.Shown ∧ OptStmtShown alternate
  | .forLoop init test update body _ =>
    OptForInitShown init ∧ OptExprShown test ∧ OptExprShown update ∧ body.Shown
  | .forEach _ id _ iterable body _ => V.bound id.name ∧ iterable.Shown ∧ body.Shown
  | .whileLoop test body _ => test.Shown ∧ body.Shown
  | .ret value _ => OptExprShown value
  | .expression e _ => e.Shown

def OptStmtShown : Option Stmt → Prop
  | none => True
  | some s => s.Shown

def StmtsShown : List Stmt → Prop
  | [] => True
  | s :: ss => s.Shown ∧ StmtsShown ss

/-- Of a method without a body nothing shows, but it has to be abstract. -/
def MembersShown : List Member → Prop
  | [] => True
  | .method name _ ⟨_, params, _, some ⟨body, _⟩, _⟩ _ _ _ :: ms =>
    (name.Shown V ∧ BindingsShown params ∧ StmtsShown body) ∧ MembersShown ms
  | .method _ _ ⟨_, _, _, none, _⟩ modifiers _ _ :: ms => (kept → modifiers.isAbstract) ∧ MembersShown ms
  | .field name _ value _ _ _ :: ms => (name.Shown V ∧ OptExprShown value) ∧ MembersShown ms

end

end

variable {V : Lexicon} {kept : Prop}

/-! ## Trees that keep their promises -/

mutual

theorem Expr.Sound.shown : ∀ {e : Expr}, e.Sound V → e.Shown V kept
  | .literal .., h | .ident .., h => h
  | .this _, _ | .super _, _ => trivial
  | .array _ _, h => exprsShown_of_sound h
  | .object _ _, h => propertiesShown_of_sound h
  | .function _, h => ⟨fun _ => h.1, h.2.shown⟩
  | .unary _ operand _, h => Expr.Sound.shown (e := operand) h
  | .update .., h => ⟨fun _ => h.1, h.2.shown⟩
  | .binary .., h => ⟨h.1.shown, h.2.shown⟩
  | .assign .., h => ⟨fun _ => h.1, h.2.1.shown, h.2.2.shown⟩
  | .call .., h | .new .., h => ⟨h.1.shown, exprsShown_of_sound h.2⟩
  | .member .., h => ⟨h.1.shown, h.2⟩
  | .index .., h => ⟨h.1.shown, h.2.shown⟩

theorem exprsShown_of_sound : ∀ {es : List Expr}, ExprsSound V es → ExprsShown V kept es
  | [], _ => trivial
  | _ :: _, h => ⟨h.1.shown, exprsShown_of_sound h.2⟩

theorem optExprShown_of_sound : ∀ {e : Option Expr}, OptExprSound V e → OptExprShown V kept e
  | none, _ => trivial
  | some e, h => Expr.Sound.shown (e := e) h

theorem propertiesShown_of_sound : ∀ {ps : List Property}, PropertiesSound V ps → PropertiesShown V kept ps
  | [], _ => trivial
  | ⟨_, _, _⟩ :: _, h => ⟨⟨h.1.1, h.1.2.shown⟩, propertiesShown_of_sound h.2⟩

theorem bindingsShown_of_sound : ∀ {bs : List Binding}, BindingsSound V bs → BindingsShown V kept bs
  | [], _ => trivial
  | ⟨_, _, _, _⟩ :: _, h => ⟨⟨h.1.1, optExprShown_of_sound h.1.2⟩, bindingsShown_of_sound h.2⟩

theorem Callable.Sound.shown : ∀ {c : Callable}, c.Sound V → c.Shown V kept
  | ⟨_, _, _, _, _⟩, h => ⟨h.1, bindingsShown_of_sound h.2.1, optBlockShown_of_sound h.2.2⟩

theorem optBlockShown_of_sound : ∀ {body : Option Block}, OptBlockSound V body → OptBlockShown V kept body
  | none, _ => trivial
  | some ⟨body, _⟩, h => stmtsShown_of_sound (show StmtsSound V body from h)

theorem Declaration.Sound.shown : ∀ {d : Declaration}, d.Sound V → d.Shown V kept
  | ⟨_, _, _⟩, h => ⟨fun _ => h.1, bindingsShown_of_sound h.2⟩

theorem optForInitShown_of_sound : ∀ {init : Option ForInit}, OptForInitSound V init → OptForInitShown V kept init
  | none, _ => trivial
  | some (.declaration d), h => Declaration.Sound.shown (d := d) h
  | some (.expression e), h => Expr.Sound.shown (e := e) h

theorem Stmt.Sound.shown : ∀ {s : Stmt}, s.Sound V → s.Shown V kept
  | .declaration d, h => Declaration.Sound.shown (d := d) h
  | .function _, h => ⟨fun _ => ⟨h.1, h.2.1⟩, h.2.2.shown⟩
  | .classDecl .., h => ⟨h.1, optExprShown_of_sound h.2.2.1, membersShown_of_sound h.2.2.2⟩
  | .block ⟨body, _⟩, h => stmtsShown_of_sound (show StmtsSound V body from h)
  | .ifElse .., h => ⟨h.1.shown, h.2.1.shown, optStmtShown_of_sound h.2.2⟩
  | .forLoop .., h =>
    ⟨optForInitShown_of_sound h.1, optExprShown_of_sound h.2.1, optExprShown_of_sound h.2.2.1, h.2.2.2.shown⟩
  | .forEach .., h => ⟨h.1, h.2.1.shown, h.2.2.shown⟩
  | .whileLoop .., h => ⟨h.1.shown, h.2.shown⟩
  | .ret value _, h => optExprShown_of_sound (e := value) h
  | .expression e _, h => Expr.Sound.shown (e := e) h

theorem optStmtShown_of_sound : ∀ {s : Option Stmt}, OptStmtSound V s → OptStmtShown V kept s
  | none, _ => trivial
  | some s, h => Stmt.Sound.shown (s := s) h

theorem stmtsShown_of_sound : ∀ {ss : List Stmt}, StmtsSound V ss → StmtsShown V kept ss
  | [], _ => trivial
  | _ :: _, h => ⟨h.1.shown, stmtsShown_of_sound h.2⟩

theorem membersShown_of_sound : ∀ {ms : List Member}, MembersSound V ms → MembersShown V kept ms
  | [], _ => trivial
  | .method _ _ ⟨_, _, _, some ⟨_, _⟩, _⟩ _ _ _ :: _, h =>
    ⟨⟨h.1.1.shown, bindingsShown_of_sound h.1.2.2.2.1, stmtsShown_of_sound h.1.2.2.2.2⟩, membersShown_of_sound h.2⟩
  | .method _ _ ⟨_, _, _, none, _⟩ _ _ _ :: _, h => ⟨fun _ => h.1.2.1 rfl, membersShown_of_sound h.2⟩
  | .field .. :: _, h => ⟨⟨h.1.1.shown, optExprShown_of_sound h.1.2⟩, membersShown_of_sound h.2⟩

end

end Vernacular
