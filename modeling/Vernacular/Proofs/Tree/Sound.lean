import Vernacular.Tree.Basic

/-!
# Trees that have code

A tree has code if it keeps a few promises everywhere in it: declarations declare something, only names and properties
are assigned to and stepped, declared functions have names, functions have bodies, and only abstract methods go without
one. `Expr.Sound`, `Stmt.Sound` and their companions say so.

They also ask that every name and literal be one that a `Lexicon` allows at its place. `Lexicon.everything` allows all
of them, so that over it only the promises are left.
-/

namespace Vernacular

/-- The names and literals that may stand at the leaves of a tree, by their place. -/
structure Lexicon where
  /-- Names that stand for values. -/
  ident : String → Prop
  /-- Names that are bound: variables, parameters, functions and classes. -/
  bound : String → Prop
  /-- Names with which the path to a base class begins. -/
  base : String → Prop
  /-- Names with which a method or a field begins. -/
  member : String → Prop
  /-- Names of properties and keys. -/
  word : String → Prop
  number : String → Prop
  string : String → Char → Prop
  template : String → Prop

/-- All names and literals. -/
def Lexicon.everything : Lexicon where
  ident _ := True
  bound _ := True
  base _ := True
  member _ := True
  word _ := True
  number _ := True
  string _ _ := True
  template _ := True

variable (V : Lexicon)

/-! ## Leaves -/

def Literal.Sound : Literal → Prop
  | number s => V.number s
  | string s q => V.string s q
  | template s => V.template s
  | boolean _ | null => True

def ObjectKey.Sound : ObjectKey → Prop
  | name s => V.word s
  | string s q => V.string s q
  | number s => V.number s

def PropertyName.Sound : PropertyName → Prop
  | plain s | hashed s => V.word s

/-- The name of a method: a constructor has only one, an accessor's is a property's, any other begins the member. -/
def PropertyName.SoundFor (kind : MethodKind) (name : PropertyName) : Prop :=
  match kind, name with
  | .constructor, n => n = .plain "constructor"
  | .getter, n | .setter, n => n.Sound V
  | .ordinary, .plain s => V.word s ∧ V.member s
  | .ordinary, .hashed s => V.word s

/-- A name, and properties through which a class is reached from it. -/
def Expr.Qualified : Expr → Prop
  | .ident n _ => V.base n
  | .member o (.plain n) false _ => o.Qualified ∧ V.word n
  | _ => False

/-! ## Expressions and statements -/

mutual

/-- The expression keeps the promises, and its leaves are allowed. -/
def Expr.Sound : Expr → Prop
  | .literal value _ => value.Sound V
  | .ident n _ => V.ident n
  | .this _ | .super _ => True
  | .array items _ => ExprsSound items
  | .object properties _ => PropertiesSound properties
  | .function callable => callable.body.isSome ∧ callable.Sound
  | .unary _ operand _ => operand.Sound
  | .update _ _ target _ => target.isAssignable ∧ target.Sound
  | .binary _ left right _ => left.Sound ∧ right.Sound
  | .assign _ target value _ => target.isAssignable ∧ target.Sound ∧ value.Sound
  | .call callee args _ _ => callee.Sound ∧ ExprsSound args
  | .new callee args _ => callee.Sound ∧ ExprsSound args
  | .member object name _ _ => object.Sound ∧ name.Sound V
  | .index object key _ _ => object.Sound ∧ key.Sound

def ExprsSound : List Expr → Prop
  | [] => True
  | e :: es => e.Sound ∧ ExprsSound es

def OptExprSound : Option Expr → Prop
  | none => True
  | some e => e.Sound

def PropertiesSound : List Property → Prop
  | [] => True
  | ⟨key, value, _⟩ :: ps => (key.Sound V ∧ value.Sound) ∧ PropertiesSound ps

def Binding.Sound : Binding → Prop
  | ⟨id, _, value, _⟩ => V.bound id.name ∧ OptExprSound value

def BindingsSound : List Binding → Prop
  | [] => True
  | b :: bs => b.Sound ∧ BindingsSound bs

/-- A callable, whether it has a name and a body or not. -/
def Callable.Sound : Callable → Prop
  | ⟨name, params, _, body, _⟩ => (∀ id ∈ name, V.bound id.name) ∧ BindingsSound params ∧ OptBlockSound body

def OptBlockSound : Option Block → Prop
  | none => True
  | some block => block.Sound

def Block.Sound : Block → Prop
  | ⟨body, _⟩ => StmtsSound body

def Declaration.Sound : Declaration → Prop
  | ⟨_, bindings, _⟩ => bindings ≠ [] ∧ BindingsSound bindings

def OptForInitSound : Option ForInit → Prop
  | none => True
  | some (.declaration d) => d.Sound
  | some (.expression e) => e.Sound

/-- The statement keeps the promises, and its leaves are allowed. -/
def Stmt.Sound : Stmt → Prop
  | .declaration d => d.Sound
  | .function callable => callable.name.isSome ∧ callable.body.isSome ∧ callable.Sound
  | .classDecl name base _ members _ =>
    V.bound name.name ∧ (∀ e ∈ base, e.Qualified V) ∧ OptExprSound base ∧ MembersSound members
  | .block block => block.Sound
  | .ifElse test consequent alternate _ => test.Sound ∧ consequent.Sound ∧ OptStmtSound alternate
  | .forLoop init test update body _ =>
    OptForInitSound init ∧ OptExprSound test ∧ OptExprSound update ∧ body.Sound
  | .forEach _ id _ iterable body _ => V.bound id.name ∧ iterable.Sound ∧ body.Sound
  | .whileLoop test body _ => test.Sound ∧ body.Sound
  | .ret value _ => OptExprSound value
  | .expression e _ => e.Sound

def OptStmtSound : Option Stmt → Prop
  | none => True
  | some s => s.Sound

def StmtsSound : List Stmt → Prop
  | [] => True
  | s :: ss => s.Sound ∧ StmtsSound ss

def Member.Sound : Member → Prop
  | .method name kind callable modifiers _ _ =>
    name.SoundFor V kind ∧ (callable.body = none → modifiers.isAbstract) ∧ callable.Sound
  | .field name _ value _ _ _ => name.SoundFor V .ordinary ∧ OptExprSound value

def MembersSound : List Member → Prop
  | [] => True
  | m :: ms => m.Sound ∧ MembersSound ms

end

variable {V : Lexicon}

theorem exprsSound_iff {es : List Expr} : ExprsSound V es ↔ ∀ e ∈ es, e.Sound V := by
  induction es with
  | nil => simp [ExprsSound]
  | cons e es ih => simp [ExprsSound, ih]

theorem propertiesSound_iff {ps : List Property} :
    PropertiesSound V ps ↔ ∀ p ∈ ps, p.key.Sound V ∧ p.value.Sound V := by
  induction ps with
  | nil => simp [PropertiesSound]
  | cons p ps ih =>
    obtain ⟨key, value, span⟩ := p
    simp [PropertiesSound, ih]

theorem bindingsSound_iff {bs : List Binding} : BindingsSound V bs ↔ ∀ b ∈ bs, b.Sound V := by
  induction bs with
  | nil => simp [BindingsSound]
  | cons b bs ih => simp [BindingsSound, ih]

theorem stmtsSound_iff {ss : List Stmt} : StmtsSound V ss ↔ ∀ s ∈ ss, s.Sound V := by
  induction ss with
  | nil => simp [StmtsSound]
  | cons s ss ih => simp [StmtsSound, ih]

theorem membersSound_iff {ms : List Member} : MembersSound V ms ↔ ∀ m ∈ ms, m.Sound V := by
  induction ms with
  | nil => simp [MembersSound]
  | cons m ms ih => simp [MembersSound, ih]

variable (V)

/-- Every statement of the program keeps the promises. -/
def Program.Sound (p : Program) : Prop := StmtsSound V p.body

end Vernacular
