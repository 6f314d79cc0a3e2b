import Vernacular.Proofs.Tree.View
import Vernacular.Script.Render

/-!
# Trees without places, and the trees that generated code stands for

Two trees are the same but for their places in a text if they are equal without them (`Expr.bare`, `Stmt.bare`,
`Program.bare`). Such trees look the same in the view that shows everything but places (`Program.view_placeless`).

Generated code does not stand for the tree it was made from but for its normal form (`Expr.norm`, `Stmt.norm`,
`Program.norm`), which keeps only what shows in the code: types, interfaces, access and decorators are gone, and so are
methods without a body; a body or a last branch without braces has got them; names are exchanged by the tables, where a
name with a point is a property of another. Normal forms have no places.

- `Stmt.plain`, `Program.plain`: no loop over the items of something and no static member anywhere;
- `Expr.functionFree`: no function anywhere.
-/

namespace Vernacular

/-! ## Without places -/

def Ident.bare (id : Ident) : Ident := ⟨id.name, default⟩

mutual

/-- An expression without its places. -/
def Expr.bare : Expr → Expr
  | .literal value _ => .literal value default
  | .ident name _ => .ident name default
  | .this _ => .this default
  | .super _ => .super default
  | .array items _ => .array (exprsBare items) default
  | .object properties _ => .object (propertiesBare properties) default
  | .function callable => .function callable.bare
  | .unary op operand _ => .unary op operand.bare default
  | .update op before target _ => .update op before target.bare default
  | .binary op left right _ => .binary op left.bare right.bare default
  | .assign op target value _ => .assign op target.bare value.bare default
  | .call callee args optional _ => .call callee.bare (exprsBare args) optional default
  | .new callee args _ => .new callee.bare (exprsBare args) default
  | .member object name optional _ => .member object.bare name optional default
  | .index object key optional _ => .index object.bare key.bare optional default

def exprsBare : List Expr → List Expr
  | [] => []
  | e :: es => e.bare :: exprsBare es

def optExprBare : Option Expr → Option Expr
  | none => none
  | some e => some e.bare

def propertiesBare : List Property → List Property
  | [] => []
  | ⟨key, value, _⟩ :: ps => ⟨key, value.bare, default⟩ :: propertiesBare ps

def bindingsBare : List Binding → List Binding
  | [] => []
  | ⟨id, type, value, _⟩ :: bs => ⟨id.bare, type.map Ident.bare, optExprBare value, default⟩ :: bindingsBare bs

def Callable.bare : Callable → Callable
  | ⟨name, params, result, body, _⟩ =>
    ⟨name.map Ident.bare, bindingsBare params, result.map Ident.bare, optBlockBare body, default⟩

def optBlockBare : Option Block → Option Block
  | none => none
  | some block => some block.bare

def Block.bare : Block → Block
  | ⟨body, _⟩ => ⟨stmtsBare body, default⟩

def Declaration.bare : Declaration → Declaration
  | ⟨kind, bindings, _⟩ => ⟨kind, bindingsBare bindings, default⟩

def optForInitBare : Option ForInit → Option ForInit
  | none => none
  | some (.declaration d) => some (.declaration d.bare)
  | some (.expression e) => some (.expression e.bare)

/-- A statement without its places. -/
def Stmt.bare : Stmt → Stmt
  | .declaration d => .declaration d.bare
  | .function callable => .function callable.bare
  | .classDecl name base interfaces members _ =>
    .classDecl name.bare (optExprBare base) (interfaces.map Ident.bare) (membersBare members) default
  | .block block => .block block.bare
  | .ifElse test consequent alternate _ => .ifElse test.bare consequent.bare (optStmtBare alternate) default
  | .forLoop init test update body _ =>
    .forLoop (optForInitBare init) (optExprBare test) (optExprBare update) body.bare default
  | .forEach kind id type iterable body _ =>
    .forEach kind id.bare (type.map Ident.bare) iterable.bare body.bare default
  | .whileLoop test body _ => .whileLoop test.bare body.bare default
  | .ret value _ => .ret (optExprBare value) default
  | .expression e _ => .expression e.bare default

def optStmtBare : Option Stmt → Option Stmt
  | none => none
  | some s => some s.bare

def stmtsBare : List Stmt → List Stmt
  | [] => []
  | s :: ss => s.bare :: stmtsBare ss

def Member.bare : Member → Member
  | .method name kind callable modifiers decorators _ =>
    .method name kind callable.bare modifiers (decorators.map Ident.bare) default
  | .field name type value modifiers decorators _ =>
    .field name (type.map Ident.bare) (optExprBare value) modifiers (decorators.map Ident.bare) default

def membersBare : List Member → List Member
  | [] => []
  | m :: ms => m.bare :: membersBare ms

end

/-- A program without its places. -/
def Program.bare (p : Program) : Program := ⟨stmtsBare p.body, default⟩

/-! ## Places out of view -/

/-- Everything is seen but places. -/
def View.placeless : View := ⟨fun _ => default, id, id⟩

theorem PropertyName.view_placeless (n : PropertyName) : n.view .placeless = n := by
  cases n <;> rfl

theorem ObjectKey.view_placeless (k : ObjectKey) : k.view .placeless = k := by
  cases k <;> rfl

/-- Every place becomes the same one. -/
theorem Span.view_placeless (s : Span) : s.view .placeless = default := rfl

/-- Names keep their texts, whatever they name. -/
theorem Ident.view_placeless : Ident.view .placeless = Ident.bare := rfl

theorem Ident.viewWord_placeless : Ident.viewBy .placeless View.placeless.word = Ident.bare := rfl

theorem Ident.viewType_placeless : Ident.viewBy .placeless View.placeless.type = Ident.bare := rfl

mutual

/-- Seen without places, an expression is the one that `Expr.bare` makes. By induction on the tree. -/
theorem Expr.view_placeless : (e : Expr) → e.view .placeless = e.bare
  | .literal .. | .ident .. | .this _ | .super _ => rfl
  | .array items s => by rw [Expr.view, exprsView_placeless items, s.view_placeless, Expr.bare]
  | .object properties s => by rw [Expr.view, propertiesView_placeless properties, s.view_placeless, Expr.bare]
  | .function callable => by rw [Expr.view, callable.view_placeless, Expr.bare]
  | .unary op operand s => by rw [Expr.view, operand.view_placeless, s.view_placeless, Expr.bare]
  | .update op before target s => by rw [Expr.view, target.view_placeless, s.view_placeless, Expr.bare]
  | .binary op left right s => by rw [Expr.view, left.view_placeless, right.view_placeless, s.view_placeless, Expr.bare]
  | .assign op target value s => by rw [Expr.view, target.view_placeless, value.view_placeless,
      s.view_placeless, Expr.bare]
  | .call callee args optional s => by
    rw [Expr.view, callee.view_placeless, exprsView_placeless args, s.view_placeless, Expr.bare]
  | .new callee args s => by rw [Expr.view, callee.view_placeless, exprsView_placeless args,
      s.view_placeless, Expr.bare]
  | .member o name optional s => by rw [Expr.view, o.view_placeless, name.view_placeless, s.view_placeless, Expr.bare]
  | .index o key optional s => by rw [Expr.view, o.view_placeless, key.view_placeless, s.view_placeless, Expr.bare]

/-- Lists of expressions. -/
theorem exprsView_placeless : (es : List Expr) → exprsView .placeless es = exprsBare es
  | [] => rfl
  | e :: es => by rw [exprsView, e.view_placeless, exprsView_placeless es, exprsBare]

theorem optExprView_placeless : (e : Option Expr) → optExprView .placeless e = optExprBare e
  | none => rfl
  | some e => by rw [optExprView, e.view_placeless, optExprBare]

theorem propertiesView_placeless : (ps : List Property) → propertiesView .placeless ps = propertiesBare ps
  | [] => rfl
  | ⟨key, value, s⟩ :: ps => by
    rw [propertiesView, Property.view, key.view_placeless, value.view_placeless, s.view_placeless,
      propertiesView_placeless ps, propertiesBare]

/-- Bindings with their types and values. -/
theorem bindingsView_placeless : (bs : List Binding) → bindingsView .placeless bs = bindingsBare bs
  | [] => rfl
  | ⟨x, type, value, s⟩ :: bs => by
    rw [bindingsView, Binding.view, Ident.view_placeless, Ident.viewType_placeless, optExprView_placeless value,
      s.view_placeless, bindingsView_placeless bs, bindingsBare]

/-- Callables with their parameters, results and bodies. -/
theorem Callable.view_placeless : (callable : Callable) → callable.view .placeless = callable.bare
  | ⟨name, params, result, body, s⟩ => by
    rw [Callable.view, Ident.view_placeless, Ident.viewType_placeless, bindingsView_placeless params,
      optBlockView_placeless body, s.view_placeless, Callable.bare]

theorem optBlockView_placeless : (b : Option Block) → optBlockView .placeless b = optBlockBare b
  | none => rfl
  | some b => by rw [optBlockView, b.view_placeless, optBlockBare]

theorem Block.view_placeless : (b : Block) → b.view .placeless = b.bare
  | ⟨body, s⟩ => by rw [Block.view, stmtsView_placeless body, s.view_placeless, Block.bare]

theorem Declaration.view_placeless : (d : Declaration) → d.view .placeless = d.bare
  | ⟨kind, bindings, s⟩ => by rw [Declaration.view, bindingsView_placeless bindings, s.view_placeless, Declaration.bare]

theorem optForInitView_placeless : (init : Option ForInit) → optForInitView .placeless init = optForInitBare init
  | none => rfl
  | some (.declaration d) => by rw [optForInitView, ForInit.view, d.view_placeless, optForInitBare]
  | some (.expression e) => by rw [optForInitView, ForInit.view, e.view_placeless, optForInitBare]

/-- Statements seen without places. -/
theorem Stmt.view_placeless : (s : Stmt) → s.view .placeless = s.bare
  | .declaration d => by rw [Stmt.view, d.view_placeless, Stmt.bare]
  | .function callable => by rw [Stmt.view, callable.view_placeless, Stmt.bare]
  | .classDecl name base interfaces members s => by
    rw [Stmt.view, Ident.view_placeless, optExprView_placeless base, membersView_placeless members,
      s.view_placeless, Stmt.bare]
  | .block block => by rw [Stmt.view, block.view_placeless, Stmt.bare]
  | .ifElse test consequent alternate s => by
    rw [Stmt.view, test.view_placeless, consequent.view_placeless, optStmtView_placeless alternate,
      s.view_placeless, Stmt.bare]
  | .forLoop init test update body s => by
    rw [Stmt.view, optForInitView_placeless init, optExprView_placeless test, optExprView_placeless update,
      body.view_placeless, s.view_placeless, Stmt.bare]
  | .forEach kind x type iterable body s => by
    rw [Stmt.view, Ident.view_placeless, Ident.viewType_placeless, iterable.view_placeless, body.view_placeless,
      s.view_placeless, Stmt.bare]
  | .whileLoop test body s => by rw [Stmt.view, test.view_placeless, body.view_placeless, s.view_placeless, Stmt.bare]
  | .ret value s => by rw [Stmt.view, optExprView_placeless value, s.view_placeless, Stmt.bare]
  | .expression e s => by rw [Stmt.view, e.view_placeless, s.view_placeless, Stmt.bare]

theorem optStmtView_placeless : (s : Option Stmt) → optStmtView .placeless s = optStmtBare s
  | none => rfl
  | some s => by rw [optStmtView, s.view_placeless, optStmtBare]

theorem stmtsView_placeless : (ss : List Stmt) → stmtsView .placeless ss = stmtsBare ss
  | [] => rfl
  | s :: ss => by rw [stmtsView, s.view_placeless, stmtsView_placeless ss, stmtsBare]

/-- Members of a class. -/
theorem Member.view_placeless : (m : Member) → m.view .placeless = m.bare
  | .method name kind callable modifiers decorators s => by
    rw [Member.view, name.view_placeless, callable.view_placeless, Ident.viewWord_placeless,
      s.view_placeless, Member.bare]
  | .field name type value modifiers decorators s => by
    rw [Member.view, name.view_placeless, Ident.viewType_placeless, optExprView_placeless value,
      Ident.viewWord_placeless, s.view_placeless, Member.bare]

theorem membersView_placeless : (ms : List Member) → membersView .placeless ms = membersBare ms
  | [] => rfl
  | m :: ms => by rw [membersView, m.view_placeless, membersView_placeless ms, membersBare]

end

/-- Programs seen without places. -/
theorem Program.view_placeless (p : Program) : p.view .placeless = p.bare := by
  rw [Program.view, stmtsView_placeless, p.span.view_placeless, Program.bare]

/-! ## Normal forms -/

/-- The expression that a generated name stands for: a name, or a property if there is a point in it. -/
def Expr.ofPath (text : String) : Expr :=
  match text.toList.dropWhile (· != '.') with
  | [] => .ident text default
  | _ :: name =>
    .member (.ident (String.ofList (text.toList.takeWhile (· != '.'))) default)
      (.plain (String.ofList name)) false default

/-- The name of a property with its plain form exchanged by `f`. -/
def PropertyName.renamed (f : String → String) : PropertyName → PropertyName
  | plain s => plain (f s)
  | hashed s => hashed s

/-- The modifiers that show in generated code. -/
def Modifiers.shown (m : Modifiers) : Modifiers := ⟨none, m.isStatic, false⟩

/-- Whether a statement is a condition. -/
def Stmt.isIf : Stmt → Bool
  | .ifElse .. => true
  | _ => false

/-- A statement in braces, if it has none yet. -/
def Stmt.braced : Stmt → Stmt
  | .block b => .block b
  | s => .block ⟨[s], default⟩

/-- A statement in braces is a block, so it is no condition. -/
theorem Stmt.isIf_braced (s : Stmt) : s.braced.isIf = false := by
  cases s <;> rfl

/-- A last branch: one that is no condition again gets braces. -/
def Stmt.asElse (s : Stmt) : Stmt := if s.isIf then s else s.braced

mutual

/-- The expression that generated code stands for. -/
def Expr.norm (role : Role) : Expr → Expr
  | .literal value _ => .literal value default
  | .ident name _ => .ofPath (identifierName name)
  | .this _ => .this default
  | .super _ => .super default
  | .array items _ => .array (exprsNorm items) default
  | .object properties _ => .object (propertiesNorm properties) default
  | .function callable => .function callable.norm
  | .unary op operand _ => .unary op (operand.norm .value) default
  | .update op before target _ => .update op before (target.norm .value) default
  | .binary op left right _ => .binary op (left.norm .value) (right.norm .value) default
  | .assign op target value _ => .assign op (target.norm .value) (value.norm .value) default
  | .call callee args optional _ => .call (callee.norm .callee) (exprsNorm args) optional default
  | .new callee args _ => .new (callee.norm .value) (exprsNorm args) default
  | .member object name optional _ => .member (object.norm .value) (name.renamed role.rename) optional default
  | .index object key optional _ => .index (object.norm .value) (key.norm .value) optional default

def exprsNorm : List Expr → List Expr
  | [] => []
  | e :: es => e.norm .value :: exprsNorm es

def optExprNorm : Option Expr → Option Expr
  | none => none
  | some e => some (e.norm .value)

def propertiesNorm : List Property → List Property
  | [] => []
  | ⟨key, value, _⟩ :: ps => ⟨key, value.norm .value, default⟩ :: propertiesNorm ps

def bindingsNorm : List Binding → List Binding
  | [] => []
  | ⟨id, _, value, _⟩ :: bs => ⟨id.bare, none, optExprNorm value, default⟩ :: bindingsNorm bs

def Callable.norm : Callable → Callable
  | ⟨name, params, _, body, _⟩ => ⟨name.map Ident.bare, bindingsNorm params, none, optBlockNorm body, default⟩

def optBlockNorm : Option Block → Option Block
  | none => none
  | some ⟨body, _⟩ => some ⟨stmtsNorm body, default⟩

def Declaration.norm : Declaration → Declaration
  | ⟨kind, bindings, _⟩ => ⟨kind, bindingsNorm bindings, default⟩

def optForInitNorm : Option ForInit → Option ForInit
  | none => none
  | some (.declaration d) => some (.declaration d.norm)
  | some (.expression e) => some (.expression (e.norm .value))

/-- The statement that generated code stands for. -/
def Stmt.norm : Stmt → Stmt
  | .declaration d => .declaration d.norm
  | .function callable => .function callable.norm
  | .classDecl name base _ members _ => .classDecl name.bare (optExprNorm base) [] (membersNorm members) default
  | .block ⟨body, _⟩ => .block ⟨stmtsNorm body, default⟩
  | .ifElse test consequent alternate _ =>
    .ifElse (test.norm .value) consequent.norm.braced (elseNorm alternate) default
  | .forLoop init test update body _ =>
    .forLoop (optForInitNorm init) (optExprNorm test) (optExprNorm update) body.norm.braced default
  | .forEach kind id _ iterable body _ => .forEach kind id.bare none (iterable.norm .value) body.norm.braced default
  | .whileLoop test body _ => .whileLoop (test.norm .value) body.norm.braced default
  | .ret value _ => .ret (optExprNorm value) default
  | .expression e _ => .expression (e.norm .value) default

def elseNorm : Option Stmt → Option Stmt
  | none => none
  | some s => some s.norm.asElse

def stmtsNorm : List Stmt → List Stmt
  | [] => []
  | s :: ss => s.norm :: stmtsNorm ss

/-- Methods without a body leave no trace. -/
def membersNorm : List Member → List Member
  | [] => []
  | .method _ _ ⟨_, _, _, none, _⟩ _ _ _ :: ms => membersNorm ms
  | .method name kind ⟨_, params, _, some ⟨body, _⟩, _⟩ modifiers _ _ :: ms =>
    .method name kind ⟨none, bindingsNorm params, none, some ⟨stmtsNorm body, default⟩, default⟩
      modifiers.shown [] default
      :: membersNorm ms
  | .field name _ value modifiers _ _ :: ms =>
    .field name none (optExprNorm value) modifiers.shown [] default :: membersNorm ms

end

/-- The program that generated code stands for. -/
def Program.norm (p : Program) : Program := ⟨stmtsNorm p.body, default⟩

/-! ## Trees without some of the forms -/

mutual

/-- No loop over the items of something and no static member stands anywhere in the expression. -/
def Expr.plain : Expr → Bool
  | .literal .. | .ident .. | .this .. | .super .. => true
  | .array items _ => exprsPlain items
  | .object properties _ => propertiesPlain properties
  | .function callable => callable.plain
  | .unary _ operand _ => operand.plain
  | .update _ _ target _ => target.plain
  | .binary _ left right _ => left.plain && right.plain
  | .assign _ target value _ => target.plain && value.plain
  | .call callee args _ _ => callee.plain && exprsPlain args
  | .new callee args _ => callee.plain && exprsPlain args
  | .member object _ _ _ => object.plain
  | .index object key _ _ => object.plain && key.plain

def exprsPlain : List Expr → Bool
  | [] => true
  | e :: es => e.plain && exprsPlain es

def optExprPlain : Option Expr → Bool
  | none => true
  | some e => e.plain

def propertiesPlain : List Property → Bool
  | [] => true
  | ⟨_, value, _⟩ :: ps => value.plain && propertiesPlain ps

def bindingsPlain : List Binding → Bool
  | [] => true
  | ⟨_, _, value, _⟩ :: bs => optExprPlain value && bindingsPlain bs

def Callable.plain : Callable → Bool
  | ⟨_, params, _, body, _⟩ => bindingsPlain params && optBlockPlain body

def optBlockPlain : Option Block → Bool
  | none => true
  | some ⟨body, _⟩ => stmtsPlain body

def Declaration.plain : Declaration → Bool
  | ⟨_, bindings, _⟩ => bindingsPlain bindings

def optForInitPlain : Option ForInit → Bool
  | none => true
  | some (.declaration d) => d.plain
  | some (.expression e) => e.plain

/-- No loop over the items of something and no static member stands anywhere in the statement. -/
def Stmt.plain : Stmt → Bool
  | .declaration d => d.plain
  | .function callable => callable.plain
  | .classDecl _ base _ members _ => optExprPlain base && membersPlain members
  | .block ⟨body, _⟩ => stmtsPlain body
  | .ifElse test consequent alternate _ => test.plain && consequent.plain && optStmtPlain alternate
  | .forLoop init test update body _ =>
    optForInitPlain init && optExprPlain test && optExprPlain update && body.plain
  | .forEach .. => false
  | .whileLoop test body _ => test.plain && body.plain
  | .ret value _ => optExprPlain value
  | .expression e _ => e.plain

def optStmtPlain : Option Stmt → Bool
  | none => true
  | some s => s.plain

def stmtsPlain : List Stmt → Bool
  | [] => true
  | s :: ss => s.plain && stmtsPlain ss

def membersPlain : List Member → Bool
  | [] => true
  | .method _ _ callable modifiers _ _ :: ms => !modifiers.isStatic && callable.plain && membersPlain ms
  | .field _ _ value modifiers _ _ :: ms => !modifiers.isStatic && optExprPlain value && membersPlain ms

end

/-- No loop over the items of something and no static member stands anywhere in the program. -/
def Program.plain (p : Program) : Bool := stmtsPlain p.body

mutual

/-- No function stands anywhere in the expression. -/
def Expr.functionFree : Expr → Bool
  | .literal .. | .ident .. | .this .. | .super .. => true
  | .array items _ => exprsFunctionFree items
  | .object properties _ => propertiesFunctionFree properties
  | .function _ => false
  | .unary _ operand _ => operand.functionFree
  | .update _ _ target _ => target.functionFree
  | .binary _ left right _ => left.functionFree && right.functionFree
  | .assign _ target value _ => target.functionFree && value.functionFree
  | .call callee args _ _ => callee.functionFree && exprsFunctionFree args
  | .new callee args _ => callee.functionFree && exprsFunctionFree args
  | .member object _ _ _ => object.functionFree
  | .index object key _ _ => object.functionFree && key.functionFree

def exprsFunctionFree : List Expr → Bool
  | [] => true
  | e :: es => e.functionFree && exprsFunctionFree es

def propertiesFunctionFree : List Property → Bool
  | [] => true
  | ⟨_, value, _⟩ :: ps => value.functionFree && propertiesFunctionFree ps

end

end Vernacular
