import Vernacular.Tree.Basic

/-!
# Trees in view

A `View` says what is to be seen of a tree: of its places, of words that may be keywords (keys, names of properties and
decorators), and of the names of types. Names that are bound or used are always seen as they are. Two trees are alike in
a view if they look the same (`Like`).

- `Expr.view`, `Stmt.view`, `Program.view`: a tree as it is seen;
- `Expr.view_exact`, `Stmt.view_exact`: nothing escapes the exact view, by induction on the tree.
-/

namespace Vernacular

/-- What is to be seen of places, of words and of the names of types. -/
structure View where
  position : Position → Position
  word : String → String
  type : String → String

/-- Nothing is overlooked. -/
def View.exact : View := ⟨id, id, id⟩

/-- Two things look the same under `f`. -/
def Like {α β : Type} (f : α → β) (a a' : α) : Prop := f a = f a'

/-- Things that are there and look alike. -/
protected theorem Like.some {α β : Type} {f : α → β} {a a' : α} (h : Like f a a') :
    Like (Option.map f) (some a) (some a') :=
  congrArg Option.some h

/-- Lists that look alike, from their heads and tails. -/
protected theorem Like.cons {α β : Type} {f : α → β} {a a' : α} {as as' : List α} (h : Like f a a')
    (hs : Like (List.map f) as as') : Like (List.map f) (a :: as) (a' :: as') := by
  rw [Like, List.map_cons, List.map_cons, h, hs]

variable (v : View)

def Span.view (s : Span) : Span := ⟨v.position s.start, v.position s.stop⟩

/-- A name of which only what `f` shows is seen. -/
def Ident.viewBy (f : String → String) (id : Ident) : Ident := ⟨f id.name, id.span.view v⟩

/-- A name that is seen as it is. -/
def Ident.view : Ident → Ident := Ident.viewBy v id

def PropertyName.view : PropertyName → PropertyName
  | plain s => plain (v.word s)
  | hashed s => hashed (v.word s)

def ObjectKey.view : ObjectKey → ObjectKey
  | name s => name (v.word s)
  | string text quote => string text quote
  | number text => number text

mutual

/-- An expression as it is seen. -/
def Expr.view : Expr → Expr
  | .literal value s => .literal value (s.view v)
  | .ident name s => .ident name (s.view v)
  | .this s => .this (s.view v)
  | .super s => .super (s.view v)
  | .array items s => .array (exprsView items) (s.view v)
  | .object properties s => .object (propertiesView properties) (s.view v)
  | .function callable => .function callable.view
  | .unary op operand s => .unary op operand.view (s.view v)
  | .update op before target s => .update op before target.view (s.view v)
  | .binary op left right s => .binary op left.view right.view (s.view v)
  | .assign op target value s => .assign op target.view value.view (s.view v)
  | .call callee args optional s => .call callee.view (exprsView args) optional (s.view v)
  | .new callee args s => .new callee.view (exprsView args) (s.view v)
  | .member o name optional s => .member o.view (name.view v) optional (s.view v)
  | .index o key optional s => .index o.view key.view optional (s.view v)

def exprsView : List Expr → List Expr
  | [] => []
  | e :: es => e.view :: exprsView es

def optExprView : Option Expr → Option Expr
  | none => none
  | some e => some e.view

def Property.view : Property → Property
  | ⟨key, value, s⟩ => ⟨key.view v, value.view, s.view v⟩

def propertiesView : List Property → List Property
  | [] => []
  | p :: ps => p.view :: propertiesView ps

def Binding.view : Binding → Binding
  | ⟨id, type, value, s⟩ => ⟨id.view v, type.map (Ident.viewBy v v.type), optExprView value, s.view v⟩

def bindingsView : List Binding → List Binding
  | [] => []
  | b :: bs => b.view :: bindingsView bs

def Callable.view : Callable → Callable
  | ⟨name, params, result, body, s⟩ =>
    ⟨name.map (Ident.view v), bindingsView params, result.map (Ident.viewBy v v.type), optBlockView body, s.view v⟩

def optBlockView : Option Block → Option Block
  | none => none
  | some block => some block.view

def Block.view : Block → Block
  | ⟨body, s⟩ => ⟨stmtsView body, s.view v⟩

def Declaration.view : Declaration → Declaration
  | ⟨kind, bindings, s⟩ => ⟨kind, bindingsView bindings, s.view v⟩

def ForInit.view : ForInit → ForInit
  | .declaration d => .declaration d.view
  | .expression e => .expression e.view

def optForInitView : Option ForInit → Option ForInit
  | none => none
  | some init => some init.view

/-- A statement as it is seen. -/
def Stmt.view : Stmt → Stmt
  | .declaration d => .declaration d.view
  | .function callable => .function callable.view
  | .classDecl name base interfaces members s =>
    .classDecl (name.view v) (optExprView base) (interfaces.map (Ident.view v)) (membersView members) (s.view v)
  | .block block => .block block.view
  | .ifElse test consequent alternate s => .ifElse test.view consequent.view (optStmtView alternate) (s.view v)
  | .forLoop init test update body s =>
    .forLoop (optForInitView init) (optExprView test) (optExprView update) body.view (s.view v)
  | .forEach kind id type iterable body s =>
    .forEach kind (id.view v) (type.map (Ident.viewBy v v.type)) iterable.view body.view (s.view v)
  | .whileLoop test body s => .whileLoop test.view body.view (s.view v)
  | .ret value s => .ret (optExprView value) (s.view v)
  | .expression e s => .expression e.view (s.view v)

def optStmtView : Option Stmt → Option Stmt
  | none => none
  | some s => some s.view

def stmtsView : List Stmt → List Stmt
  | [] => []
  | s :: ss => s.view :: stmtsView ss

def Member.view : Member → Member
  | .method name kind callable modifiers decorators s =>
    .method (name.view v) kind callable.view modifiers (decorators.map (Ident.viewBy v v.word)) (s.view v)
  | .field name type value modifiers decorators s =>
    .field (name.view v) (type.map (Ident.viewBy v v.type)) (optExprView value) modifiers
      (decorators.map (Ident.viewBy v v.word)) (s.view v)

def membersView : List Member → List Member
  | [] => []
  | m :: ms => m.view :: membersView ms

end

/-- A program as it is seen. -/
def Program.view (p : Program) : Program := ⟨stmtsView v p.body, p.span.view v⟩

/-! ## Lists and options -/

section Lists

/-- A list is seen item by item. -/
theorem exprsView_eq (es : List Expr) : exprsView v es = es.map (Expr.view v) := by
  induction es with
  | nil => rfl
  | cons e es ih => rw [exprsView, ih, List.map_cons]

theorem optExprView_eq (e : Option Expr) : optExprView v e = e.map (Expr.view v) := by
  cases e <;> rfl

theorem propertiesView_eq (ps : List Property) : propertiesView v ps = ps.map (Property.view v) := by
  induction ps with
  | nil => rfl
  | cons p ps ih => rw [propertiesView, ih, List.map_cons]

theorem bindingsView_eq (bs : List Binding) : bindingsView v bs = bs.map (Binding.view v) := by
  induction bs with
  | nil => rfl
  | cons b bs ih => rw [bindingsView, ih, List.map_cons]

theorem optBlockView_eq (b : Option Block) : optBlockView v b = b.map (Block.view v) := by
  cases b <;> rfl

theorem optForInitView_eq (init : Option ForInit) : optForInitView v init = init.map (ForInit.view v) := by
  cases init <;> rfl

theorem optStmtView_eq (s : Option Stmt) : optStmtView v s = s.map (Stmt.view v) := by
  cases s <;> rfl

theorem stmtsView_eq (ss : List Stmt) : stmtsView v ss = ss.map (Stmt.view v) := by
  induction ss with
  | nil => rfl
  | cons s ss ih => rw [stmtsView, ih, List.map_cons]

theorem membersView_eq (ms : List Member) : membersView v ms = ms.map (Member.view v) := by
  induction ms with
  | nil => rfl
  | cons m ms ih => rw [membersView, ih, List.map_cons]

end Lists

/-! ## What always shows -/

/-- The stretch of what is seen is what is seen of the stretch. -/
theorem Expr.span_view (e : Expr) : (e.view v).span = e.span.view v := by
  cases e with
  | function callable =>
    cases callable
    rfl
  | _ => rfl

/-- What kind of expression it is shows in every view. -/
theorem Expr.label_view (e : Expr) : (e.view v).label = e.label := by
  cases e <;> rfl

/-- So does whether it can be assigned to. -/
theorem Expr.isAssignable_view (e : Expr) : (e.view v).isAssignable = e.isAssignable := by
  cases e <;> rfl

/-! ## The exact view -/

section Exact

/-- Places in the exact view. -/
theorem Span.view_exact (s : Span) : s.view .exact = s := rfl

/-- Names in the exact view. -/
theorem PropertyName.view_exact (n : PropertyName) : n.view .exact = n := by
  cases n <;> rfl

theorem ObjectKey.view_exact (k : ObjectKey) : k.view .exact = k := by
  cases k <;> rfl

theorem Ident.view_exact : Ident.view .exact = id := rfl

theorem Ident.viewWord_exact : Ident.viewBy .exact View.exact.word = id := rfl

theorem Ident.viewType_exact : Ident.viewBy .exact View.exact.type = id := rfl

mutual

/-- In the exact view an expression is what it is. By induction on the tree, with a companion for each kind of list. -/
theorem Expr.view_exact : (e : Expr) → e.view .exact = e
  | .literal .. | .ident .. | .this _ | .super _ => rfl
  | .array items s => by rw [Expr.view, exprsView_exact items, s.view_exact]
  | .object properties s => by rw [Expr.view, propertiesView_exact properties, s.view_exact]
  | .function callable => by rw [Expr.view, callable.view_exact]
  | .unary op operand s => by rw [Expr.view, operand.view_exact, s.view_exact]
  | .update op before target s => by rw [Expr.view, target.view_exact, s.view_exact]
  | .binary op left right s => by rw [Expr.view, left.view_exact, right.view_exact, s.view_exact]
  | .assign op target value s => by rw [Expr.view, target.view_exact, value.view_exact, s.view_exact]
  | .call callee args optional s => by rw [Expr.view, callee.view_exact, exprsView_exact args, s.view_exact]
  | .new callee args s => by rw [Expr.view, callee.view_exact, exprsView_exact args, s.view_exact]
  | .member o name optional s => by rw [Expr.view, o.view_exact, name.view_exact, s.view_exact]
  | .index o key optional s => by rw [Expr.view, o.view_exact, key.view_exact, s.view_exact]

theorem exprsView_exact : (es : List Expr) → exprsView .exact es = es
  | [] => rfl
  | e :: es => by rw [exprsView, e.view_exact, exprsView_exact es]

theorem optExprView_exact : (e : Option Expr) → optExprView .exact e = e
  | none => rfl
  | some e => by rw [optExprView, e.view_exact]

theorem Property.view_exact : (p : Property) → p.view .exact = p
  | ⟨key, value, s⟩ => by rw [Property.view, key.view_exact, value.view_exact, s.view_exact]

theorem propertiesView_exact : (ps : List Property) → propertiesView .exact ps = ps
  | [] => rfl
  | p :: ps => by rw [propertiesView, p.view_exact, propertiesView_exact ps]

theorem Binding.view_exact : (b : Binding) → b.view .exact = b
  | ⟨x, type, value, s⟩ => by
    simp only [Binding.view, Ident.view_exact, Ident.viewType_exact, Option.map_id, id,
      optExprView_exact value, s.view_exact]

theorem bindingsView_exact : (bs : List Binding) → bindingsView .exact bs = bs
  | [] => rfl
  | b :: bs => by rw [bindingsView, b.view_exact, bindingsView_exact bs]

theorem Callable.view_exact : (callable : Callable) → callable.view .exact = callable
  | ⟨name, params, result, body, s⟩ => by
    simp only [Callable.view, Ident.view_exact, Ident.viewType_exact, Option.map_id, id, bindingsView_exact params,
      optBlockView_exact body, s.view_exact]

theorem optBlockView_exact : (b : Option Block) → optBlockView .exact b = b
  | none => rfl
  | some b => by rw [optBlockView, b.view_exact]

theorem Block.view_exact : (b : Block) → b.view .exact = b
  | ⟨body, s⟩ => by rw [Block.view, stmtsView_exact body, s.view_exact]

theorem Declaration.view_exact : (d : Declaration) → d.view .exact = d
  | ⟨kind, bindings, s⟩ => by rw [Declaration.view, bindingsView_exact bindings, s.view_exact]

theorem ForInit.view_exact : (init : ForInit) → init.view .exact = init
  | .declaration d => by rw [ForInit.view, d.view_exact]
  | .expression e => by rw [ForInit.view, e.view_exact]

theorem optForInitView_exact : (init : Option ForInit) → optForInitView .exact init = init
  | none => rfl
  | some init => by rw [optForInitView, init.view_exact]

/-- Statements in the exact view. -/
theorem Stmt.view_exact : (s : Stmt) → s.view .exact = s
  | .declaration d => by rw [Stmt.view, d.view_exact]
  | .function callable => by rw [Stmt.view, callable.view_exact]
  | .classDecl name base interfaces members s => by
    simp only [Stmt.view, Ident.view_exact, List.map_id, id, optExprView_exact base,
      membersView_exact members, s.view_exact]
  | .block block => by rw [Stmt.view, block.view_exact]
  | .ifElse test consequent alternate s => by
    rw [Stmt.view, test.view_exact, consequent.view_exact, optStmtView_exact alternate, s.view_exact]
  | .forLoop init test update body s => by
    rw [Stmt.view, optForInitView_exact init, optExprView_exact test, optExprView_exact update,
      body.view_exact, s.view_exact]
  | .forEach kind x type iterable body s => by
    simp only [Stmt.view, Ident.view_exact, Ident.viewType_exact, Option.map_id, id, iterable.view_exact,
      body.view_exact, s.view_exact]
  | .whileLoop test body s => by rw [Stmt.view, test.view_exact, body.view_exact, s.view_exact]
  | .ret value s => by rw [Stmt.view, optExprView_exact value, s.view_exact]
  | .expression e s => by rw [Stmt.view, e.view_exact, s.view_exact]

theorem optStmtView_exact : (s : Option Stmt) → optStmtView .exact s = s
  | none => rfl
  | some s => by rw [optStmtView, s.view_exact]

theorem stmtsView_exact : (ss : List Stmt) → stmtsView .exact ss = ss
  | [] => rfl
  | s :: ss => by rw [stmtsView, s.view_exact, stmtsView_exact ss]

theorem Member.view_exact : (m : Member) → m.view .exact = m
  | .method name kind callable modifiers decorators s => by
    simp only [Member.view, name.view_exact, callable.view_exact, Ident.viewWord_exact, List.map_id, s.view_exact]
  | .field name type value modifiers decorators s => by
    simp only [Member.view, name.view_exact, Ident.viewType_exact, Ident.viewWord_exact, Option.map_id, List.map_id, id,
      optExprView_exact value, s.view_exact]

theorem membersView_exact : (ms : List Member) → membersView .exact ms = ms
  | [] => rfl
  | m :: ms => by rw [membersView, m.view_exact, membersView_exact ms]

end

/-- A program in the exact view is the program itself. -/
theorem Program.view_exact (p : Program) : p.view .exact = p := by
  rw [Program.view, stmtsView_exact, p.span.view_exact]

end Exact

end Vernacular
