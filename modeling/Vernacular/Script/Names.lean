/-!
# Names in generated code

Some names stand for functions, properties and methods of the target language. A name is exchanged where it is used,
never where it is declared; a method's name only where the method is called.
-/

namespace Vernacular

/-- Names of functions and objects. -/
def identifierTable : List (String × String) :=
  [("mostrar", "console.log"), ("imprime", "console.log"), ("alerta", "alert"), ("aleatorio", "Math.random"),
    ("arredondar", "Math.round"), ("piso", "Math.floor"), ("teto", "Math.ceil"), ("matematica", "Math")]

/-- Names of properties. -/
def propertyTable : List (String × String) :=
  [("tamanho", "length"), ("prototipo", "prototype")]

/-- Names of methods. -/
def methodTable : List (String × String) :=
  [("naPosicao", "at"), ("concatenar", "concat"), ("preencher", "fill"), ("filtrar", "filter"),
    ("encontrar", "find"), ("encontrarIndice", "findIndex"), ("encontrarUltimo", "findLast"),
    ("encontrarUltimoIndice", "findLastIndex"), ("achatar", "flat"), ("achatarMapear", "flatMap"),
    ("paraCada", "forEach"), ("inclui", "includes"), ("indiceDe", "indexOf"), ("juntar", "join"),
    ("ehLista", "isArray"), ("chaves", "keys"), ("mapear", "map"), ("reduzir", "reduce"),
    ("reduzirDireita", "reduceRight"), ("inverter", "reverse"), ("removerInicio", "shift"),
    ("adicionarInicio", "unshift"), ("fatiar", "slice"), ("algum", "some"), ("ordenar", "sort"),
    ("emendar", "splice"), ("paraTexto", "toString"), ("valorDe", "valueOf"), ("invertida", "toReversed"),
    ("ordenada", "toSorted"), ("emendada", "toSpliced"), ("com", "with"), ("adicionar", "push"),
    ("removerFim", "pop"), ("maiusculo", "toUpperCase"), ("minusculo", "toLowerCase")]

/-- The generated form of a name. -/
def identifierName (name : String) : String := (identifierTable.lookup name).getD name

/-- The generated form of a property's name. -/
def propertyText (name : String) : String := (propertyTable.lookup name).getD name

/-- The generated form of a called method's name; a property may be called too. -/
def methodText (name : String) : String :=
  ((methodTable.lookup name).or (propertyTable.lookup name)).getD name

end Vernacular
