import Vernacular.Source.Position

/-!
# Scopes

Names are looked up from the innermost scope outwards. The outermost scope is always there; leaving a scope never
removes it.

- `Scopes.depth_pos`, `Scopes.depth_enter`, `Scopes.depth_exit`: how many scopes are open;
- `Scopes.lookup?_enter`, `Scopes.lookup?_declare`, `Scopes.lookup?_declareGlobal`: what is found after a step.
-/

namespace Vernacular

/-- What a scope belongs to. -/
inductive ScopeKind where
  | global | function | block | loop
deriving DecidableEq, Repr

/-- The names declared in a scope, the latest first, each with its place. -/
abbrev Names : Type := List (String × Span)

/-- A scope inside another. -/
structure Scope where
  kind : ScopeKind
  names : Names
deriving DecidableEq, Repr

/-- The scopes that are open. -/
structure Scopes where
  /-- The scopes inside the outermost one, the innermost first. -/
  inner : List Scope
  /-- The names of the outermost scope. -/
  globals : Names
  /-- How many scopes were ever opened, the outermost included. -/
  opened : Nat
deriving DecidableEq, Repr

namespace Scopes

/-- Only the outermost scope, without names. -/
def start : Scopes := ⟨[], [], 1⟩

/-- The outermost scope. -/
def outermost (s : Scopes) : Scope := ⟨.global, s.globals⟩

/-- All scopes, the innermost first. -/
def toList (s : Scopes) : List Scope := s.inner ++ [s.outermost]

/-- The number of open scopes. -/
def depth (s : Scopes) : Nat := s.toList.length

/-- The innermost scope. -/
def current (s : Scopes) : Scope := s.inner.headD s.outermost

/-- Opens a scope. -/
def enter (s : Scopes) (kind : ScopeKind) : Scopes :=
  { s with inner := ⟨kind, []⟩ :: s.inner, opened := s.opened + 1 }

/-- Leaves the innermost scope, unless it is the outermost. -/
def exit (s : Scopes) : Scopes :=
  { s with inner := s.inner.tail }

/-- Declares a name in the innermost scope. A later declaration hides an earlier one. -/
def declare (s : Scopes) (name : String) (place : Span) : Scopes :=
  match s.inner with
  | [] => { s with globals := (name, place) :: s.globals }
  | scope :: scopes => { s with inner := { scope with names := (name, place) :: scope.names } :: scopes }

/-- Declares a name in the outermost scope, unless it is declared there already. -/
def declareGlobal (s : Scopes) (name : String) (place : Span) : Scopes :=
  if (s.globals.lookup name).isSome then s else { s with globals := (name, place) :: s.globals }

/-- Where a name was declared. -/
def lookup? (s : Scopes) (name : String) : Option Span :=
  s.toList.findSome? fun scope => scope.names.lookup name

/-- Whether a name was declared. -/
def isDeclared (s : Scopes) (name : String) : Bool := (s.lookup? name).isSome

/-- Every name that can be looked up, sorted and without repetition. -/
def visibleNames (s : Scopes) : List String :=
  (s.toList.flatMap fun scope => scope.names.map Prod.fst).eraseDups.mergeSort fun a b => decide (a ≤ b)

/-! ## The number of scopes -/

theorem depth_pos (s : Scopes) : 0 < s.depth := by
  simp [depth, toList]

@[simp] theorem depth_enter (s : Scopes) (kind : ScopeKind) : (s.enter kind).depth = s.depth + 1 := by
  simp [depth, toList, enter]

theorem depth_exit (s : Scopes) : s.exit.depth = max 1 (s.depth - 1) := by
  simp only [depth, toList, exit, List.length_append, List.length_tail, List.length_cons, List.length_nil]
  omega

/-- Leaving a scope that was just opened changes nothing but the count of scopes. -/
theorem exit_enter (s : Scopes) (kind : ScopeKind) : (s.enter kind).exit = { s with opened := s.opened + 1 } := rfl

/-! ## What is found -/

/-- A name at the head of a list of names hides what comes after it. -/
theorem lookup_cons_names (name other : String) (place : Span) (names : Names) :
    List.lookup other ((name, place) :: names) = if other = name then some place else names.lookup other := by
  by_cases h : other = name
  · subst h; simp
  · have hb : (other == name) = false := beq_false_of_ne h
    simp only [List.lookup_cons, hb, h, if_false]

/-- A new scope hides nothing. -/
@[simp] theorem lookup?_enter (s : Scopes) (kind : ScopeKind) (name : String) :
    (s.enter kind).lookup? name = s.lookup? name := rfl

/-- A declared name is found where it was declared last, and no other name is touched. -/
theorem lookup?_declare (s : Scopes) (name other : String) (place : Span) :
    (s.declare name place).lookup? other = if other = name then some place else s.lookup? other := by
  obtain ⟨inner, globals, opened⟩ := s
  cases inner with
  | nil =>
    simp only [lookup?, toList, declare, outermost, List.nil_append, List.findSome?_cons, lookup_cons_names]
    by_cases h : other = name <;> simp [h]
  | cons scope scopes =>
    simp only [lookup?, toList, declare, outermost, List.cons_append, List.findSome?_cons, lookup_cons_names]
    by_cases h : other = name <;> simp [h]

/-- A global declaration is found unless something hides it. -/
theorem lookup?_declareGlobal (s : Scopes) (name other : String) (place : Span) :
    (s.declareGlobal name place).lookup? other = (s.lookup? other).or (if other = name then some place else none) := by
  simp only [lookup?, toList, declareGlobal, outermost, List.findSome?_append, List.findSome?_cons, List.findSome?_nil]
  cases hg : List.lookup name s.globals with
  | some p => by_cases h : other = name <;> simp [h, hg]
  | none =>
    simp only [Option.isSome_none, Bool.false_eq_true, if_false, lookup_cons_names]
    by_cases h : other = name <;> simp [h, hg]

end Scopes

end Vernacular
