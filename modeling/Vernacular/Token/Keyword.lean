/-!
# Keywords

The dialect has twenty-eight keywords. Each has a Portuguese spelling, which names it here, and some have English
spellings beside it. A word is a keyword if it is one of these spellings (`Keyword.ofWord?`); no spelling is shared by
two keywords.
-/

namespace Vernacular

/-- The keywords, named by their canonical spelling. -/
inductive Keyword where
  | variavel | constante | funcao | classe | construtor | retorne | se | senao | para | enquanto | novo | estende
  | implementa | instanciaDe | tipoDe | verdadeiro | falso | nulo | isso | super | de | get | set | publico | privado
  | protegido | estatico | abstrato
deriving DecidableEq, Repr

namespace Keyword

/-- Every keyword, in the order in which spellings are looked up. -/
def all : List Keyword :=
  [variavel, constante, funcao, classe, construtor, retorne, se, senao, para, enquanto, novo, estende, implementa,
    instanciaDe, tipoDe, verdadeiro, falso, nulo, isso, super, de, get, set, publico, privado, protegido, estatico,
    abstrato]

theorem mem_all (k : Keyword) : k ∈ all := by
  cases k <;> decide

/-- The canonical spelling. -/
def canonical : Keyword → String
  | variavel => "variavel"
  | constante => "constante"
  | funcao => "funcao"
  | classe => "classe"
  | construtor => "construtor"
  | retorne => "retorne"
  | se => "se"
  | senao => "senao"
  | para => "para"
  | enquanto => "enquanto"
  | novo => "novo"
  | estende => "estende"
  | implementa => "implementa"
  | instanciaDe => "instanciaDe"
  | tipoDe => "tipoDe"
  | verdadeiro => "verdadeiro"
  | falso => "falso"
  | nulo => "nulo"
  | isso => "isso"
  | super => "super"
  | de => "de"
  | get => "get"
  | set => "set"
  | publico => "publico"
  | privado => "privado"
  | protegido => "protegido"
  | estatico => "estatico"
  | abstrato => "abstrato"

/-- The spellings besides the canonical one. -/
def others : Keyword → List String
  | variavel => ["var", "let"]
  | constante => ["const"]
  | funcao => ["function"]
  | classe => ["class"]
  | construtor => ["constructor"]
  | retorne => ["return"]
  | se => ["if"]
  | senao => ["else"]
  | para => ["for"]
  | enquanto => ["while"]
  | novo => ["new"]
  | estende => ["extends"]
  | implementa => ["implements"]
  | instanciaDe => ["instanceof"]
  | tipoDe => ["typeof"]
  | verdadeiro => ["true"]
  | falso => ["false"]
  | nulo => ["null"]
  | isso => ["this"]
  | _ => []

/-- Every spelling, the canonical one first. -/
def spellings (k : Keyword) : List String :=
  k.canonical :: k.others

/-- The spellings of all keywords, in order. -/
def allSpellings : List String :=
  all.flatMap spellings

/-- The keyword that a word spells. -/
def ofWord? (word : String) : Option Keyword :=
  all.find? fun k => k.spellings.contains word

/-- Words that may stand in front of a class member. -/
def isModifier : Keyword → Bool
  | publico | privado | protegido | estatico | abstrato => true
  | _ => false

/-- The name under which dumps list the keyword. -/
def label : Keyword → String
  | variavel => "Let"
  | constante => "Const"
  | funcao => "Function"
  | classe => "Class"
  | construtor => "Constructor"
  | retorne => "Return"
  | se => "If"
  | senao => "Else"
  | para => "For"
  | enquanto => "While"
  | novo => "New"
  | estende => "Extends"
  | implementa => "Implements"
  | instanciaDe => "InstanceOf"
  | tipoDe => "TypeOf"
  | verdadeiro => "True"
  | falso => "False"
  | nulo => "Null"
  | isso => "This"
  | super => "Super"
  | de => "Of"
  | get => "Get"
  | set => "Set"
  | publico => "Public"
  | privado => "Private"
  | protegido => "Protected"
  | estatico => "Static"
  | abstrato => "Abstract"

end Keyword

end Vernacular
