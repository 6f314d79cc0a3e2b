import Vernacular.Tree.Basic

/-!
# How deep expressions stand in one another

An expression can stand in another one further in, as the operand of an operator in front of it, the right side of a
power, the value of an assignment, an argument, an item, the value of a property or a computed key (`Expr.Nests`), or as
the class that a construction makes something of. A chain of expressions goes from each to one that stands so in it
(`Chain`).

The height of an expression counts the steps further in, but not those to the class of a construction. So a chain has at
most as many expressions as its first one is high, and one more for each step to a class (`Chain.length_le`).

- `Program.nodes`: all expressions of a program;
- `Shallow`: none of the expressions is higher than a bound.
-/

namespace Vernacular

variable {e : Expr}

/-! ## All expressions of a tree -/

mutual

/-- An expression and all that stand somewhere in it. -/
def Expr.nodes : Expr → List Expr
  | .literal value s => [.literal value s]
  | .ident name s => [.ident name s]
  | .this s => [.this s]
  | .super s => [.super s]
  | .array items s => .array items s :: exprsNodes items
  | .object properties s => .object properties s :: propertiesNodes properties
  | .function callable => .function callable :: callable.nodes
  | .unary op operand s => .unary op operand s :: operand.nodes
  | .update op before target s => .update op before target s :: target.nodes
  | .binary op left right s => .binary op left right s :: (left.nodes ++ right.nodes)
  | .assign op target value s => .assign op target value s :: (target.nodes ++ value.nodes)
  | .call callee args optional s => .call callee args optional s :: (callee.nodes ++ exprsNodes args)
  | .new callee args s => .new callee args s :: (callee.nodes ++ exprsNodes args)
  | .member object name optional s => .member object name optional s :: object.nodes
  | .index object key optional s => .index object key optional s :: (object.nodes ++ key.nodes)

def exprsNodes : List Expr → List Expr
  | [] => []
  | e :: es => e.nodes ++ exprsNodes es

def optExprNodes : Option Expr → List Expr
  | none => []
  | some e => e.nodes

def propertiesNodes : List Property → List Expr
  | [] => []
  | ⟨_, value, _⟩ :: ps => value.nodes ++ propertiesNodes ps

def bindingsNodes : List Binding → List Expr
  | [] => []
  | ⟨_, _, value, _⟩ :: bs => optExprNodes value ++ bindingsNodes bs

def Callable.nodes : Callable → List Expr
  | ⟨_, params, _, body, _⟩ => bindingsNodes params ++ optBlockNodes body

def optBlockNodes : Option Block → List Expr
  | none => []
  | some ⟨body, _⟩ => stmtsNodes body

def Declaration.nodes : Declaration → List Expr
  | ⟨_, bindings, _⟩ => bindingsNodes bindings

def optForInitNodes : Option ForInit → List Expr
  | none => []
  | some (.declaration d) => d.nodes
  | some (.expression e) => e.nodes

/-- All expressions of a statement. -/
def Stmt.nodes : Stmt → List Expr
  | .declaration d => d.nodes
  | .function callable => callable.nodes
  | .classDecl _ base _ members _ => optExprNodes base ++ membersNodes members
  | .block ⟨body, _⟩ => stmtsNodes body
  | .ifElse test consequent alternate _ => test.nodes ++ consequent.nodes ++ optStmtNodes alternate
  | .forLoop init test update body _ => optForInitNodes init ++ optExprNodes test ++ optExprNodes update ++ body.nodes
  | .forEach _ _ _ iterable body _ => iterable.nodes ++ body.nodes
  | .whileLoop test body _ => test.nodes ++ body.nodes
  | .ret value _ => optExprNodes value
  | .expression e _ => e.nodes

def optStmtNodes : Option Stmt → List Expr
  | none => []
  | some s => s.nodes

def stmtsNodes : List Stmt → List Expr
  | [] => []
  | s :: ss => s.nodes ++ stmtsNodes ss

def membersNodes : List Member → List Expr
  | [] => []
  | .method _ _ callable _ _ _ :: ms => callable.nodes ++ membersNodes ms
  | .field _ _ value _ _ _ :: ms => optExprNodes value ++ membersNodes ms

end

/-- All expressions of a program. -/
def Program.nodes (p : Program) : List Expr := stmtsNodes p.body

theorem Expr.self_mem_nodes (e : Expr) : e ∈ e.nodes := by
  cases e <;> simp [Expr.nodes]

/-! ## Chains -/

/-- The second expression stands in the first one, one step further in. -/
inductive Expr.Nests : Expr → Expr → Prop
  | operand {op : UnaryOp} {e : Expr} {s : Span} : Nests (.unary op e s) e
  | target {op : UpdateOp} {e : Expr} {s : Span} : Nests (.update op true e s) e
  | power {left right : Expr} {s : Span} : Nests (.binary .exponent left right s) right
  | assigned {op : AssignOp} {target value : Expr} {s : Span} : Nests (.assign op target value s) value
  | argument {callee e : Expr} {args : List Expr} {optional : Bool} {s : Span} (h : e ∈ args) :
      Nests (.call callee args optional s) e
  | newArgument {callee e : Expr} {args : List Expr} {s : Span} (h : e ∈ args) : Nests (.new callee args s) e
  | item {e : Expr} {items : List Expr} {s : Span} (h : e ∈ items) : Nests (.array items s) e
  | property {p : Property} {properties : List Property} {s : Span} (h : p ∈ properties) :
      Nests (.object properties s) p.value
  | key {object key : Expr} {optional : Bool} {s : Span} : Nests (.index object key optional s) key

/-- Each expression stands in the one before it, one step further in or as the class of a construction; `k` counts the
steps to a class. -/
inductive Chain : List Expr → Nat → Prop
  | single (e : Expr) : Chain [e] 0
  | nests {e e' : Expr} {es : List Expr} {k : Nat} (h : e.Nests e') (rest : Chain (e' :: es) k) :
      Chain (e :: e' :: es) k
  | constructs {callee : Expr} {args es : List Expr} {s : Span} {k : Nat} (rest : Chain (callee :: es) k) :
      Chain (.new callee args s :: callee :: es) (k + 1)

/-! ## Heights -/

mutual

/-- How many expressions stand in one another, where the class of a construction counts as much as the construction. -/
def Expr.height : Expr → Nat
  | .array items _ => exprsHeight items + 1
  | .object properties _ => propertiesHeight properties + 1
  | .unary _ operand _ => operand.height + 1
  | .update _ true target _ => target.height + 1
  | .binary .exponent _ right _ => right.height + 1
  | .assign _ _ value _ => value.height + 1
  | .call _ args _ _ => exprsHeight args + 1
  | .new callee args _ => max callee.height (exprsHeight args + 1)
  | .index _ key _ _ => key.height + 1
  | _ => 1

def exprsHeight : List Expr → Nat
  | [] => 0
  | e :: es => max e.height (exprsHeight es)

def propertiesHeight : List Property → Nat
  | [] => 0
  | ⟨_, value, _⟩ :: ps => max value.height (propertiesHeight ps)

end

theorem height_le_exprsHeight {es : List Expr} (h : e ∈ es) : e.height ≤ exprsHeight es := by
  induction es with
  | nil => cases h
  | cons e' es ih =>
    rw [exprsHeight]
    rcases List.mem_cons.mp h with rfl | h
    · exact Nat.le_max_left ..
    · exact Nat.le_trans (ih h) (Nat.le_max_right ..)

theorem height_le_propertiesHeight {p : Property} {ps : List Property} (h : p ∈ ps) :
    p.value.height ≤ propertiesHeight ps := by
  induction ps with
  | nil => cases h
  | cons p' ps ih =>
    obtain ⟨key, value, s⟩ := p'
    rw [propertiesHeight]
    rcases List.mem_cons.mp h with rfl | h
    · exact Nat.le_max_left ..
    · exact Nat.le_trans (ih h) (Nat.le_max_right ..)

theorem Expr.height_pos (e : Expr) : 0 < e.height := by
  fun_cases Expr.height e <;> omega

/-- A step further in is a step down. -/
theorem Expr.Nests.height_lt {e' : Expr} (h : e.Nests e') : e'.height < e.height := by
  cases h with
  | operand | target | power | assigned | key =>
    rw [Expr.height]
    exact Nat.lt_succ_self _
  | argument h | item h =>
    rw [Expr.height]
    exact Nat.lt_succ_of_le (height_le_exprsHeight h)
  | newArgument h =>
    rw [Expr.height]
    exact Nat.lt_of_lt_of_le (Nat.lt_succ_of_le (height_le_exprsHeight h)) (Nat.le_max_right ..)
  | property h =>
    rw [Expr.height]
    exact Nat.lt_succ_of_le (height_le_propertiesHeight h)

/-- A chain has at most as many expressions as its first one is high, but for the steps to a class. -/
theorem Chain.length_le {es : List Expr} {k : Nat} (h : Chain (e :: es) k) : (e :: es).length ≤ e.height + k := by
  generalize hl : e :: es = l at h
  induction h generalizing e es with
  | single e' =>
    cases hl
    exact e'.height_pos
  | nests hnest rest ih =>
    cases hl
    have := ih rfl
    have := hnest.height_lt
    simp only [List.length_cons] at *
    omega
  | @constructs callee args es s k rest ih =>
    cases hl
    have hcallee := ih rfl
    have hheight : callee.height ≤ (Expr.new callee args s).height := by
      rw [Expr.height]
      exact Nat.le_max_left ..
    simp only [List.length_cons] at *
    omega

/-- Some chain from `e` on has `n` expressions, but for the steps to a class. -/
def Expr.Attains (e : Expr) (n : Nat) : Prop := ∃ es k, Chain (e :: es) k ∧ (e :: es).length = n + k

namespace Expr.Attains

theorem one (e : Expr) : e.Attains 1 := ⟨[], 0, .single e, rfl⟩

theorem nests {e' : Expr} {n : Nat} (h : e.Nests e') (h' : e'.Attains n) : e.Attains (n + 1) := by
  obtain ⟨es, k, hchain, hlength⟩ := h'
  refine ⟨e' :: es, k, .nests h hchain, ?_⟩
  rw [List.length_cons, hlength]
  omega

theorem constructs {callee : Expr} {args : List Expr} {s : Span} {n : Nat} (h : callee.Attains n) :
    (Expr.new callee args s).Attains n := by
  obtain ⟨es, k, hchain, hlength⟩ := h
  refine ⟨callee :: es, k + 1, .constructs hchain, ?_⟩
  rw [List.length_cons, hlength]
  omega

/-- The height of a list is that of an item, if there is one. -/
theorem of_list {es : List Expr} {n : Nat} (h : n = 0 ∨ ∃ e' ∈ es, e'.Attains n) (hnests : ∀ e' ∈ es, e.Nests e') :
    e.Attains (n + 1) := by
  rcases h with rfl | ⟨e', he', h⟩
  · exact one e
  · exact nests (hnests e' he') h

end Expr.Attains

mutual

/-- Heights are no higher than they need to be. -/
theorem Expr.attains_height : ∀ e : Expr, e.Attains e.height
  | .literal .. | .ident .. | .this .. | .super .. | .function .. | .member .. | .update _ false _ _ => .one _
  | .array items _ => .of_list (exprs_attain items) fun _ h => .item h
  | .object properties _ => by
    rw [Expr.height]
    rcases properties_attain properties with hzero | ⟨p, hp, h⟩
    · rw [hzero]
      exact .one _
    · exact .nests (.property hp) h
  | .unary _ operand _ => .nests .operand operand.attains_height
  | .update _ true target _ => .nests .target target.attains_height
  | .binary op left right s => by
    by_cases hop : op = .exponent
    · subst hop
      exact .nests .power right.attains_height
    · have hheight : (Expr.binary op left right s).height = 1 := by
        rw [Expr.height]
        all_goals simp_all
      rw [hheight]
      exact .one _
  | .assign _ _ value _ => .nests .assigned value.attains_height
  | .call _ args _ _ => .of_list (exprs_attain args) fun _ h => .argument h
  | .new callee args s => by
    rw [Expr.height]
    by_cases hle : callee.height ≤ exprsHeight args + 1
    · rw [Nat.max_eq_right hle]
      exact .of_list (exprs_attain args) fun _ h => .newArgument h
    · rw [Nat.max_eq_left (Nat.le_of_not_le hle)]
      exact .constructs callee.attains_height
  | .index _ key _ _ => .nests .key key.attains_height

theorem exprs_attain : ∀ es : List Expr, exprsHeight es = 0 ∨ ∃ e ∈ es, e.Attains (exprsHeight es)
  | [] => .inl rfl
  | e :: es => by
    rw [exprsHeight]
    by_cases hle : exprsHeight es ≤ e.height
    · rw [Nat.max_eq_left hle]
      exact .inr ⟨e, List.mem_cons_self, e.attains_height⟩
    · rw [Nat.max_eq_right (Nat.le_of_not_le hle)]
      exact (exprs_attain es).imp id fun ⟨e', he', h⟩ => ⟨e', List.mem_cons_of_mem _ he', h⟩

theorem properties_attain : ∀ ps : List Property,
    propertiesHeight ps = 0 ∨ ∃ p ∈ ps, p.value.Attains (propertiesHeight ps)
  | [] => .inl rfl
  | ⟨key, value, s⟩ :: ps => by
    rw [propertiesHeight]
    by_cases hle : propertiesHeight ps ≤ value.height
    · rw [Nat.max_eq_left hle]
      exact .inr ⟨⟨key, value, s⟩, List.mem_cons_self, value.attains_height⟩
    · rw [Nat.max_eq_right (Nat.le_of_not_le hle)]
      exact (properties_attain ps).imp id fun ⟨p, hp, h⟩ => ⟨p, List.mem_cons_of_mem _ hp, h⟩

end

/-! ## Bounded heights -/

/-- None of the expressions is higher than `n`. -/
def Shallow (n : Nat) (es : List Expr) : Prop := ∀ e ∈ es, e.height ≤ n

namespace Shallow

variable {n : Nat} {es es' : List Expr}

@[simp] theorem nil : Shallow n [] := by simp [Shallow]

@[simp] theorem cons : Shallow n (e :: es) ↔ e.height ≤ n ∧ Shallow n es := by simp [Shallow]

@[simp] theorem append : Shallow n (es ++ es') ↔ Shallow n es ∧ Shallow n es' := List.forall_mem_append

theorem mono (h : Shallow n es) : Shallow (n + 1) es := fun e he => Nat.le_succ_of_le (h e he)

theorem height_le (h : Shallow n e.nodes) : e.height ≤ n := h e e.self_mem_nodes

theorem exprsHeight_le (h : Shallow n (exprsNodes es)) : exprsHeight es ≤ n := by
  induction es with
  | nil => exact Nat.zero_le n
  | cons e es ih =>
    rw [exprsNodes, append] at h
    exact Nat.max_le.mpr ⟨h.1.height_le, ih h.2⟩

theorem propertiesHeight_le {ps : List Property} (h : Shallow n (propertiesNodes ps)) : propertiesHeight ps ≤ n := by
  induction ps with
  | nil => exact Nat.zero_le n
  | cons p ps ih =>
    obtain ⟨key, value, s⟩ := p
    rw [propertiesNodes, append] at h
    exact Nat.max_le.mpr ⟨h.1.height_le, ih h.2⟩

theorem exprs : Shallow n (exprsNodes es) ↔ ∀ e ∈ es, Shallow n e.nodes := by
  induction es with
  | nil => simp [exprsNodes]
  | cons e es ih => simp [exprsNodes, ih]

theorem properties {ps : List Property} : Shallow n (propertiesNodes ps) ↔ ∀ p ∈ ps, Shallow n p.value.nodes := by
  induction ps with
  | nil => simp [propertiesNodes]
  | cons p ps ih =>
    obtain ⟨key, value, s⟩ := p
    simp [propertiesNodes, ih]

theorem bindings {bs : List Binding} : Shallow n (bindingsNodes bs) ↔ ∀ b ∈ bs, Shallow n (optExprNodes b.value) := by
  induction bs with
  | nil => simp [bindingsNodes]
  | cons b bs ih =>
    obtain ⟨id, type, value, s⟩ := b
    simp [bindingsNodes, ih]

theorem stmts {ss : List Stmt} : Shallow n (stmtsNodes ss) ↔ ∀ s ∈ ss, Shallow n s.nodes := by
  induction ss with
  | nil => simp [stmtsNodes]
  | cons s ss ih => simp [stmtsNodes, ih]

theorem members {ms : List Member} : Shallow n (membersNodes ms) ↔ ∀ m ∈ ms, Shallow n (membersNodes [m]) := by
  induction ms with
  | nil => simp [membersNodes]
  | cons m ms ih => cases m <;> simp [membersNodes, ih]

end Shallow

end Vernacular
