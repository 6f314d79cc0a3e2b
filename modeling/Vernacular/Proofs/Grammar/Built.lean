import Vernacular.Grammar.Program
import Vernacular.Proofs.Tree.Sound

/-!
# What productions build

A tree that a production gives is built from parts that were read one level further in and from parts that were read at
the same level. So a property of trees holds of all that is read with `n` levels to go, if building leads from the
property that the parts have with `n` levels to go to the one that the whole has with one more (`Builds`). The property
may depend on the level.

Whatever is built keeps the promises of trees that have code, and a lexicon allows its leaves; a property may rely on
that, and it is such a property itself (`builds_soundness`).
-/

namespace Vernacular

/-- A property of expressions and one of statements. -/
structure Invariant where
  expr : Expr → Prop
  stmt : Stmt → Prop

namespace Invariant

variable (I : Invariant) (V : Lexicon)

def Binding (b : Vernacular.Binding) : Prop := V.bound b.id.name ∧ ∀ e ∈ b.value, I.expr e

/-- A callable that was read with the given name. -/
structure Callable (name : Option Ident) (callable : Vernacular.Callable) : Prop where
  named : callable.name = name
  bound : ∀ id ∈ name, V.bound id.name
  params : ∀ b ∈ callable.params, I.Binding V b
  body : ∀ b ∈ callable.body, ∀ s ∈ b.body, I.stmt s

/-- Only an abstract method may come without a body; the function of a method has no name of its own. -/
def Member : Vernacular.Member → Prop
  | .method name kind callable modifiers _ _ =>
    name.SoundFor V kind ∧ (callable.body = none → modifiers.isAbstract = true) ∧ I.Callable V none callable
  | .field name _ value _ _ _ => name.SoundFor V .ordinary ∧ ∀ e ∈ value, I.expr e

def Declaration (d : Vernacular.Declaration) : Prop := d.bindings ≠ [] ∧ ∀ b ∈ d.bindings, I.Binding V b

def Init : ForInit → Prop
  | .declaration d => I.Declaration V d
  | .expression e => I.expr e

def Link : Vernacular.Link → Prop
  | .call args _ => ∀ e ∈ args, I.expr e
  | .member name _ => name.Sound V
  | .index key _ => I.expr key

end Invariant

/-- Building leads from the invariant `I` of what stands one level further in to the invariant `H` of what is read here,
if the lexicon `V` allows the leaves. -/
structure Builds (V : Lexicon) (I H : Invariant) : Prop where
  weaken : ∀ {e : Expr}, I.expr e → H.expr e
  literal : ∀ {value : Literal} {s : Span}, value.Sound V → H.expr (.literal value s)
  ident : ∀ {name : String} {s : Span}, V.ident name → H.expr (.ident name s)
  this : ∀ {s : Span}, H.expr (.this s)
  super : ∀ {s : Span}, H.expr (.super s)
  array : ∀ {items : List Expr} {s : Span}, (∀ e ∈ items, I.expr e) → H.expr (.array items s)
  object : ∀ {properties : List Property} {s : Span}, (∀ p ∈ properties, p.key.Sound V ∧ I.expr p.value) →
    H.expr (.object properties s)
  function : ∀ {name : Option Ident} {callable : Callable}, callable.body.isSome = true → I.Callable V name callable →
    H.expr (.function callable)
  call : ∀ {callee : Expr} {args : List Expr} {optional : Bool} {s : Span}, H.expr callee → (∀ e ∈ args, I.expr e) →
    H.expr (.call callee args optional s)
  new : ∀ {callee : Expr} {args : List Expr} {s : Span}, H.expr callee → (∀ e ∈ args, I.expr e) →
    H.expr (.new callee args s)
  member : ∀ {object : Expr} {name : PropertyName} {optional : Bool} {s : Span}, H.expr object → name.Sound V →
    H.expr (.member object name optional s)
  index : ∀ {object key : Expr} {optional : Bool} {s : Span}, H.expr object → I.expr key →
    H.expr (.index object key optional s)
  stepped : ∀ {op : UpdateOp} {e : Expr} {s : Span}, e.isAssignable = true → H.expr e → H.expr (.update op false e s)
  step : ∀ {op : UpdateOp} {e : Expr} {s : Span}, e.isAssignable = true → I.expr e → H.expr (.update op true e s)
  unary : ∀ {op : UnaryOp} {e : Expr} {s : Span}, I.expr e → H.expr (.unary op e s)
  power : ∀ {left right : Expr} {s : Span}, H.expr left → I.expr right → H.expr (.binary .exponent left right s)
  binary : ∀ {op : BinaryOp} {left right : Expr} {s : Span}, op ≠ .exponent → H.expr left → H.expr right →
    H.expr (.binary op left right s)
  assign : ∀ {op : AssignOp} {target value : Expr} {s : Span}, target.isAssignable = true → H.expr target →
    I.expr value → H.expr (.assign op target value s)
  weakenStmt : ∀ {s : Stmt}, I.stmt s → H.stmt s
  declaration : ∀ {d : Declaration}, I.Declaration V d → H.stmt (.declaration d)
  functionDecl : ∀ {name : Ident} {callable : Callable}, callable.body.isSome = true →
    I.Callable V (some name) callable → H.stmt (.function callable)
  classDecl : ∀ {name : Ident} {base : Option Expr} {interfaces : List Ident} {members : List Member} {s : Span},
    V.bound name.name → (∀ e ∈ base, e.Qualified V ∧ H.expr e) → (∀ m ∈ members, I.Member V m) →
    H.stmt (.classDecl name base interfaces members s)
  block : ∀ {b : Block}, (∀ s ∈ b.body, I.stmt s) → H.stmt (.block b)
  ifElse : ∀ {test : Expr} {consequent : Stmt} {alternate : Option Stmt} {s : Span}, I.expr test → I.stmt consequent →
    (∀ s ∈ alternate, I.stmt s) → H.stmt (.ifElse test consequent alternate s)
  forLoop : ∀ {init : Option ForInit} {test update : Option Expr} {body : Stmt} {s : Span}, (∀ i ∈ init, I.Init V i) →
    (∀ e ∈ test, I.expr e) → (∀ e ∈ update, I.expr e) → H.stmt body → H.stmt (.forLoop init test update body s)
  forEach : ∀ {kind : VariableKind} {id : Ident} {type : Option Ident} {iterable : Expr} {body : Stmt} {s : Span},
    V.bound id.name → I.expr iterable → I.stmt body → H.stmt (.forEach kind id type iterable body s)
  whileLoop : ∀ {test : Expr} {body : Stmt} {s : Span}, I.expr test → I.stmt body → H.stmt (.whileLoop test body s)
  ret : ∀ {value : Option Expr} {s : Span}, (∀ e ∈ value, I.expr e) → H.stmt (.ret value s)
  expression : ∀ {e : Expr} {s : Span}, I.expr e → H.stmt (.expression e s)

namespace Builds

variable {V : Lexicon} {I H : Invariant} (hb : Builds V I H)

include hb

theorem foldl_apply {e : Expr} {links : List (Link × Position)} (he : H.expr e) (hlinks : ∀ x ∈ links, I.Link V x.1) :
    H.expr (links.foldl Link.apply e) := by
  induction links generalizing e with
  | nil => exact he
  | cons x links ih =>
    obtain ⟨hx, hlinks⟩ := List.forall_mem_cons.mp hlinks
    refine ih ?_ hlinks
    obtain ⟨l, stop⟩ := x
    cases l with
    | call args optional => exact hb.call he hx
    | member name optional => exact hb.member he hx
    | index key optional => exact hb.index he hx

theorem foldl_join {e : Expr} {others : List (BinaryOp × Expr)} (he : H.expr e)
    (hothers : ∀ x ∈ others, x.1 ≠ .exponent ∧ H.expr x.2) : H.expr (others.foldl Expr.join e) := by
  induction others generalizing e with
  | nil => exact he
  | cons x others ih =>
    obtain ⟨⟨hop, hx⟩, hrest⟩ := List.forall_mem_cons.mp hothers
    exact ih (hb.binary hop he hx) hrest

end Builds

/-! ## The promises -/

section Soundness

variable {V : Lexicon}

/-- The promises of trees that have code. -/
def soundness (V : Lexicon) : Invariant := ⟨Expr.Sound V, Stmt.Sound V⟩

theorem optExprSound_of_mem {e : Option Expr} (h : ∀ e' ∈ e, e'.Sound V) : OptExprSound V e := by
  cases e with
  | none => trivial
  | some e => exact h e rfl

theorem bindingsSound_of_mem {bs : List Binding} (h : ∀ b ∈ bs, (soundness V).Binding V b) : BindingsSound V bs := by
  refine bindingsSound_iff.mpr fun b hb => ?_
  obtain ⟨id, type, value, span⟩ := b
  exact ⟨(h _ hb).1, optExprSound_of_mem (h _ hb).2⟩

theorem Invariant.Declaration.sound {d : Vernacular.Declaration} (h : (soundness V).Declaration V d) : d.Sound V := by
  obtain ⟨kind, bs, span⟩ := d
  exact ⟨h.1, bindingsSound_of_mem h.2⟩

theorem Invariant.Callable.sound {name : Option Ident} {callable : Vernacular.Callable}
    (h : (soundness V).Callable V name callable) : callable.Sound V := by
  obtain ⟨self, params, result, body, span⟩ := callable
  obtain rfl : self = name := h.named
  refine ⟨h.bound, bindingsSound_of_mem h.params, ?_⟩
  cases body with
  | none => trivial
  | some block =>
    obtain ⟨body, span⟩ := block
    exact stmtsSound_iff.mpr (h.body _ rfl)

theorem Invariant.Member.sound {m : Vernacular.Member} (h : (soundness V).Member V m) : m.Sound V := by
  cases m with
  | method name kind callable modifiers decorators span => exact ⟨h.1, h.2.1, h.2.2.sound⟩
  | field name type value modifiers decorators span => exact ⟨h.1, optExprSound_of_mem h.2⟩

theorem optForInitSound_of_mem {init : Option ForInit} (h : ∀ i ∈ init, (soundness V).Init V i) :
    OptForInitSound V init := by
  cases init with
  | none => trivial
  | some i =>
    have hi : (soundness V).Init V i := h i rfl
    cases i with
    | declaration d => exact Invariant.Declaration.sound hi
    | expression e => exact hi

theorem builds_soundness : Builds V (soundness V) (soundness V) where
  weaken h := h
  literal h := h
  ident h := h
  this := trivial
  super := trivial
  array h := exprsSound_iff.mpr h
  object h := propertiesSound_iff.mpr h
  function hbody h := ⟨hbody, h.sound⟩
  call hcallee h := ⟨hcallee, exprsSound_iff.mpr h⟩
  new hcallee h := ⟨hcallee, exprsSound_iff.mpr h⟩
  member hobject hname := ⟨hobject, hname⟩
  index hobject hkey := ⟨hobject, hkey⟩
  stepped ha h := ⟨ha, h⟩
  step ha h := ⟨ha, h⟩
  unary h := h
  power hleft hright := ⟨hleft, hright⟩
  binary _ hleft hright := ⟨hleft, hright⟩
  assign ha htarget hvalue := ⟨ha, htarget, hvalue⟩
  weakenStmt h := h
  declaration h := h.sound
  functionDecl hbody h := ⟨by rw [h.named]; rfl, hbody, h.sound⟩
  classDecl hname hbase hmembers :=
    ⟨hname, fun e he => (hbase e he).1, optExprSound_of_mem fun e he => (hbase e he).2,
      membersSound_iff.mpr fun m hm => (hmembers m hm).sound⟩
  block {b} h := by
    obtain ⟨body, span⟩ := b
    exact stmtsSound_iff.mpr h
  ifElse {_ _ alternate _} htest hconsequent halternate := by
    refine ⟨htest, hconsequent, ?_⟩
    cases alternate with
    | none => trivial
    | some s => exact halternate s rfl
  forLoop hinit htest hupdate hbody :=
    ⟨optForInitSound_of_mem hinit, optExprSound_of_mem htest, optExprSound_of_mem hupdate, hbody⟩
  forEach hid hiterable hbody := ⟨hid, hiterable, hbody⟩
  whileLoop htest hbody := ⟨htest, hbody⟩
  ret h := optExprSound_of_mem h
  expression h := h

end Soundness

end Vernacular
