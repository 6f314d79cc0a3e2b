import Vernacular.Check.Options
import Vernacular.Check.Scope
import Vernacular.Text.Similarity
import Vernacular.Tree.Basic

/-!
# Findings of a check

A check walks over a program with a `Checker`: the open scopes, the known types, what was found so far and how much was
looked at. Here are its single steps; `Vernacular.Check.Walk` has the walk.
-/

namespace Vernacular

/-- What a check finds fault with. -/
inductive SemanticError where
  /-- A name is used that nothing declares; `suggestion` is a declared name like it. -/
  | undefinedName (name : String) (position : Position) (suggestion : Option String)
  /-- A type is named that there is not. -/
  | unknownType (name : String) (position : Position)
  /-- Two classes at the top level have one name. -/
  | duplicateClass (name : String) (position : Position)
deriving DecidableEq, Repr

namespace SemanticError

def name : SemanticError → String
  | undefinedName n _ _ | unknownType n _ | duplicateClass n _ => n

def position : SemanticError → Position
  | undefinedName _ p _ | unknownType _ p | duplicateClass _ p => p

def suggestion? : SemanticError → Option String
  | undefinedName _ _ s => s
  | _ => none

/-- The name of the kind of error. -/
def label : SemanticError → String
  | undefinedName .. => "UndefinedVariable"
  | unknownType .. => "InvalidType"
  | duplicateClass .. => "DuplicateClass"

/-- The error in words. -/
def message : SemanticError → String
  | undefinedName n p s =>
    "Undefined variable '" ++ n ++ "' at " ++ p.text ++ (s.map fun t => " (did you mean '" ++ t ++ "'?)").getD ""
  | unknownType n p => "Invalid type '" ++ n ++ "' at " ++ p.text
  | duplicateClass n p => "Duplicate class '" ++ n ++ "' at " ++ p.text

end SemanticError

/-- The state of a check. -/
structure Checker where
  scopes : Scopes
  /-- The types that may be named. -/
  types : List String
  /-- What was found so far. -/
  errors : List SemanticError
  /-- How many names were looked up. -/
  references : Nat
  /-- How many types were looked up. -/
  typeUses : Nat
deriving DecidableEq, Repr

namespace Checker

/-- The state before anything was looked at. -/
def start (options : CheckOptions) : Checker := ⟨.start, options.types, [], 0, 0⟩

/-- Reports an error, unless there are enough already. -/
def report (options : CheckOptions) (error : SemanticError) (c : Checker) : Checker :=
  if options.maxErrors.any (· ≤ c.errors.length) then c else { c with errors := c.errors ++ [error] }

def enter (kind : ScopeKind) (c : Checker) : Checker := { c with scopes := c.scopes.enter kind }

def exit (c : Checker) : Checker := { c with scopes := c.scopes.exit }

def declare (id : Ident) (c : Checker) : Checker := { c with scopes := c.scopes.declare id.name id.span }

/-- Makes the name of a class a type. -/
def addType (name : String) (c : Checker) : Checker := { c with types := name :: c.types }

/-- The declared name that is most like an undeclared one. -/
def suggestion? (options : CheckOptions) (name : String) (c : Checker) : Option String :=
  (similarNames name (c.scopes.visibleNames ++ options.names)).head?

/-- Looks a name up. -/
def resolve (options : CheckOptions) (name : String) (position : Position) (c : Checker) : Checker :=
  let c := { c with references := c.references + 1 }
  if options.names.contains name || c.scopes.isDeclared name then c
  else c.report options (.undefinedName name position (c.suggestion? options name))

/-- A written type without its list brackets, both from the end. -/
def dropLists : List Char → List Char
  | ']' :: '[' :: cs => dropLists cs
  | cs => cs

/-- The type of the items in a list of lists of any depth. -/
def itemType (name : String) : String := String.ofList (dropLists name.toList.reverse).reverse

/-- Looks a type up, if one is named. -/
def checkType (options : CheckOptions) (type : Option Ident) (c : Checker) : Checker :=
  match type with
  | none => c
  | some t =>
    let c := { c with typeUses := c.typeUses + 1 }
    if c.types.contains (itemType t.name) then c else c.report options (.unknownType t.name t.span.start)

/-- Declares the name that a statement makes known to all statements beside it. -/
def hoistOne (c : Checker) : Stmt → Checker
  | .function ⟨some name, _, _, _, _⟩ => c.declare name
  | .classDecl name _ _ _ _ => c.declare name
  | _ => c

/-- Declares the functions and classes among statements before any of them is looked at. -/
def hoist (body : List Stmt) (c : Checker) : Checker := body.foldl hoistOne c

/-- Declares the own name of a callable inside it, unless something outside has that name. -/
def declareSelf (name : Option Ident) (c : Checker) : Checker :=
  match name with
  | none => c
  | some id => if c.scopes.isDeclared id.name then c else c.declare id

/-- Makes a class a type from here on, and declares its name unless that was done at the top level. -/
def declareClass (id : Ident) (c : Checker) : Checker :=
  let c := c.addType id.name
  if c.scopes.current.kind = .global then c else c.declare id

end Checker

end Vernacular
