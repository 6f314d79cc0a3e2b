import Vernacular.Check.Options
import Vernacular.Json.Reader

/-!
# Settings of the compiler

Settings are kept as JSON: an object of named fields, or an array of the same fields in order, in which later ones may
be left out. Fields that are not known are skipped; a known one given twice, or of the wrong type, spoils the whole.
-/

namespace Vernacular

/-- Settings of the compiler. -/
structure Options where
  /-- Whether names and types are checked before code is generated. -/
  analyze : Bool := false
  /-- One level of indentation. -/
  indent : String := "  "
  check : CheckOptions := {}
deriving DecidableEq, Repr, Inhabited

namespace Json

def toBool? : Json → Option Bool
  | bool b => some b
  | _ => none

def toText? : Json → Option String
  | string w => unescape? w
  | _ => none

/-- The largest number of sixty-four binary digits. -/
def maxWord : Nat := Nat.pow 2 64 - 1

/-- A natural number of at most sixty-four binary digits, written without sign, point and exponent. -/
def toWord? : Json → Option Nat
  | number w => do
    guard (w.toList.all Char.isDigit)
    let n := w.toList.foldl (fun n c => n * 10 + (c.toNat - '0'.toNat)) 0
    guard (n ≤ maxWord)
    return n
  | _ => none

/-- A value that may be `null`. -/
def toOption? {α : Type} (f : Json → Option α) : Json → Option (Option α)
  | null => some none
  | j => (f j).map some

def toTexts? : Json → Option (List String)
  | array js => js.mapM toText?
  | _ => none

/-- The values of the fields with the given names: by name from an object, by order from an array. -/
def record? (names : List String) : Json → Option (List (Option Json))
  | object fs => do
    let fs ← fs.mapM fun (w, j) => (unescape? w).map (·, j)
    let known := fs.filter fun (n, _) => names.contains n
    guard (names.all fun n => (known.filter (·.1 == n)).length ≤ 1)
    return names.map fun n => known.lookup n
  | array js => do
    guard (js.length ≤ names.length)
    return (List.range names.length).map (js[·]?)
  | _ => none

/-- The value of a field, or its default if the field is left out. -/
def field? {α : Type} (f : Json → Option α) (default : α) : Option Json → Option α
  | none => some default
  | some j => f j

end Json

open Json

/-- Reads settings of a check. -/
def CheckOptions.ofJson? (j : Json) : Option CheckOptions := do
  match ← j.record? ["extra_builtins", "extra_types", "max_errors"] with
  | [names, types, maxErrors] =>
    let default : CheckOptions := {}
    return {
      extraNames := ← field? toTexts? default.extraNames names
      extraTypes := ← field? toTexts? default.extraTypes types
      maxErrors := ← field? (toOption? toWord?) default.maxErrors maxErrors }
  | _ => none

/-- Reads settings. -/
def Options.ofJson? (j : Json) : Option Options := do
  match ← j.record? ["analyze", "indent", "analyzer"] with
  | [analyze, indent, check] =>
    let default : Options := {}
    return {
      analyze := ← field? toBool? default.analyze analyze
      indent := ← field? toText? default.indent indent
      check := ← field? CheckOptions.ofJson? default.check check }
  | _ => none

/-- Reads settings from a text. -/
def Options.read? (text : String) : Option Options :=
  Json.read? text >>= Options.ofJson?

end Vernacular
