import Vernacular.Tree.Basic

/-!
# Where separators may stand

A place in a list of tokens is named by the number of tokens after it. `Program.seams` reads a tree whose spans tell
their places that way: it gives the places where an item of a list begins (a statement of the program or of a block, a
member of a class), where a brace closes a block or a class, and where the program ends.

- `exprsSeams_eq`, `bindingsSeams_eq` and others: the seams of a list are those of its elements;
- `stmtsSeams_eq`, `membersSeams_eq`: there is one more before each item of a list that takes separators.
-/

namespace Vernacular

/-- The place before the last token of a stretch. -/
def Span.lastPlace (s : Span) : Nat := s.stop.offset + 1

mutual

/-- The seams inside an expression: those of the functions in it. -/
@[simp] def Expr.seams : Expr → List Nat
  | .literal .. | .ident .. | .this .. | .super .. => []
  | .array items _ => exprsSeams items
  | .object properties _ => propertiesSeams properties
  | .function callable => callable.seams
  | .unary _ operand _ => operand.seams
  | .update _ _ target _ => target.seams
  | .binary _ left right _ => left.seams ++ right.seams
  | .assign _ target value _ => target.seams ++ value.seams
  | .call callee args _ _ => callee.seams ++ exprsSeams args
  | .new callee args _ => callee.seams ++ exprsSeams args
  | .member object _ _ _ => object.seams
  | .index object key _ _ => object.seams ++ key.seams

def exprsSeams : List Expr → List Nat
  | [] => []
  | e :: es => e.seams ++ exprsSeams es

def optExprSeams : Option Expr → List Nat
  | none => []
  | some e => e.seams

@[simp] def Property.seams : Property → List Nat
  | ⟨_, value, _⟩ => value.seams

def propertiesSeams : List Property → List Nat
  | [] => []
  | p :: ps => p.seams ++ propertiesSeams ps

@[simp] def Binding.seams : Binding → List Nat
  | ⟨_, _, value, _⟩ => optExprSeams value

def bindingsSeams : List Binding → List Nat
  | [] => []
  | b :: bs => b.seams ++ bindingsSeams bs

@[simp] def Callable.seams : Callable → List Nat
  | ⟨_, params, _, body, _⟩ => bindingsSeams params ++ optBlockSeams body

def optBlockSeams : Option Block → List Nat
  | none => []
  | some block => block.seams

/-- The seams of a block: before each of its statements, inside them, and before the brace that closes it. -/
@[simp] def Block.seams : Block → List Nat
  | ⟨body, span⟩ => stmtsSeams body ++ [span.lastPlace]

@[simp] def Declaration.seams : Declaration → List Nat
  | ⟨_, bindings, _⟩ => bindingsSeams bindings

@[simp] def ForInit.seams : ForInit → List Nat
  | .declaration d => d.seams
  | .expression e => e.seams

def optForInitSeams : Option ForInit → List Nat
  | none => []
  | some init => init.seams

/-- The seams inside a statement. -/
@[simp] def Stmt.seams : Stmt → List Nat
  | .declaration d => d.seams
  | .function callable => callable.seams
  | .classDecl _ base _ members span => optExprSeams base ++ membersSeams members ++ [span.lastPlace]
  | .block block => block.seams
  | .ifElse test consequent alternate _ => test.seams ++ consequent.seams ++ optStmtSeams alternate
  | .forLoop init test update body _ =>
    optForInitSeams init ++ optExprSeams test ++ optExprSeams update ++ body.seams
  | .forEach _ _ _ iterable body _ => iterable.seams ++ body.seams
  | .whileLoop test body _ => test.seams ++ body.seams
  | .ret value _ => optExprSeams value
  | .expression e _ => e.seams

def optStmtSeams : Option Stmt → List Nat
  | none => []
  | some s => s.seams

/-- The seams of a list of statements: before each of them and inside it. -/
def stmtsSeams : List Stmt → List Nat
  | [] => []
  | s :: ss => s.span.start.offset :: s.seams ++ stmtsSeams ss

@[simp] def Member.seams : Member → List Nat
  | .method _ _ callable _ _ _ => callable.seams
  | .field _ _ value _ _ _ => optExprSeams value

/-- The seams of a list of members: before each of them and inside it. -/
def membersSeams : List Member → List Nat
  | [] => []
  | m :: ms => m.span.start.offset :: m.seams ++ membersSeams ms

end

/-- The seams of a program. -/
def Program.seams (p : Program) : List Nat := stmtsSeams p.body ++ [p.span.stop.offset]

/-! ## Lists and options -/

@[simp] theorem exprsSeams_eq (es : List Expr) : exprsSeams es = es.flatMap Expr.seams := by
  induction es with
  | nil => rfl
  | cons e es ih => rw [exprsSeams, ih, List.flatMap_cons]

@[simp] theorem propertiesSeams_eq (ps : List Property) : propertiesSeams ps = ps.flatMap Property.seams := by
  induction ps with
  | nil => rfl
  | cons p ps ih => rw [propertiesSeams, ih, List.flatMap_cons]

@[simp] theorem bindingsSeams_eq (bs : List Binding) : bindingsSeams bs = bs.flatMap Binding.seams := by
  induction bs with
  | nil => rfl
  | cons b bs ih => rw [bindingsSeams, ih, List.flatMap_cons]

@[simp] theorem stmtsSeams_eq (ss : List Stmt) :
    stmtsSeams ss = ss.flatMap fun s => s.span.start.offset :: s.seams := by
  induction ss with
  | nil => rfl
  | cons s ss ih => rw [stmtsSeams, ih, List.flatMap_cons]

@[simp] theorem membersSeams_eq (ms : List Member) :
    membersSeams ms = ms.flatMap fun m => m.span.start.offset :: m.seams := by
  induction ms with
  | nil => rfl
  | cons m ms ih => rw [membersSeams, ih, List.flatMap_cons]

@[simp] theorem optExprSeams_eq (o : Option Expr) : optExprSeams o = o.elim [] Expr.seams := by cases o <;> rfl

@[simp] theorem optBlockSeams_eq (o : Option Block) : optBlockSeams o = o.elim [] Block.seams := by cases o <;> rfl

@[simp] theorem optForInitSeams_eq (o : Option ForInit) :
    optForInitSeams o = o.elim [] ForInit.seams := by cases o <;> rfl

@[simp] theorem optStmtSeams_eq (o : Option Stmt) : optStmtSeams o = o.elim [] Stmt.seams := by cases o <;> rfl

end Vernacular
