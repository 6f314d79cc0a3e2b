import Vernacular.Token.Basic

/-!
# What a check takes for granted
-/

namespace Vernacular

/-- Settings of a check. -/
structure CheckOptions where
  /-- Names that the host provides. -/
  extraNames : List String := []
  /-- Types that the host provides. -/
  extraTypes : List String := []
  /-- The most errors that are reported; `none` for all. -/
  maxErrors : Option Nat := some 100
deriving DecidableEq, Repr, Inhabited

namespace CheckOptions

/-- Names that need no declaration, besides those of objects and primitive types. -/
def standardNames : List String :=
  ["escreva", "mostrar", "imprime", "alerta", "aleatorio", "arredondar", "piso", "teto", "matematica", "verdadeiro",
    "falso", "nulo", "undefined", "NaN", "Infinity", "Number", "Boolean", "Error", "parseInt", "parseFloat", "isNaN"]

/-- Types that need no declaration, besides the primitive ones. -/
def standardTypes : List String :=
  ["vazio", "texto", "numero", "inteiro", "booleano", "decimal", "lista", "qualquer", "nulo"]

/-- All names that need no declaration. Primitive types can be constructed, so their names are among them. -/
def names (o : CheckOptions) : List String :=
  standardNames ++ Kind.builtins ++ Kind.primitiveTypes ++ o.extraNames

/-- All types that need no declaration. -/
def types (o : CheckOptions) : List String :=
  standardTypes ++ Kind.primitiveTypes ++ o.extraTypes

end CheckOptions

end Vernacular
