import Vernacular.Text.Similarity
import Vernacular.Token.Basic

/-!
# What can be wrong with the order of tokens

Reading stops at the first token that does not fit. The error says what was wanted there, what was found and in which
part of a program; a name that looks like a misspelt keyword brings a hint.
-/

namespace Vernacular

/-- The spelling of a keyword that is most like a word, if any is alike enough. -/
def suggestKeyword? (word : String) : Option String :=
  (similarNames word Keyword.allSpellings).head?

/-- The part of a program in which an error was met. -/
inductive Context where
  | topLevel | statement | block | variableDeclaration | functionDeclaration | functionParameters | classDeclaration
  | classBody | typeName | expression | ifStatement | whileStatement | forStatement | argumentList | arrayLiteral
  | objectLiteral | memberAccess
deriving DecidableEq, Repr

/-- A context as messages name it. -/
def Context.text : Context → String
  | topLevel => "at top level"
  | statement => "in statement"
  | block => "in block"
  | variableDeclaration => "in variable declaration"
  | functionDeclaration => "in function declaration"
  | functionParameters => "in function parameters"
  | classDeclaration => "in class declaration"
  | classBody => "in class body"
  | typeName => "in type annotation"
  | expression => "in expression"
  | ifStatement => "in if statement"
  | whileStatement => "in while loop"
  | forStatement => "in for loop"
  | argumentList => "in argument list"
  | arrayLiteral => "in array literal"
  | objectLiteral => "in object literal"
  | memberAccess => "in member access"

/-- Why a list of tokens is no program. -/
inductive SyntaxError where
  /-- A token was found where one of the expected things should stand. -/
  | unexpectedToken (expected : List String) (found : Token) (context : Context)
  /-- The text ended where one of the expected things should stand. -/
  | unexpectedEnd (expected : List String) (position : Position) (context : Context)
  /-- Something that cannot be assigned to stands where a value is stored. -/
  | notAssignable (target : String) (position : Position)
  /-- Statements or expressions are nested too deeply. -/
  | tooDeep (position : Position) (context : Context)
deriving DecidableEq, Repr

namespace SyntaxError

/-- Where the error was met. -/
def position : SyntaxError → Position
  | unexpectedToken _ found _ => found.start
  | unexpectedEnd _ p _ | notAssignable _ p | tooDeep p _ => p

/-- The name of the kind of error. -/
def label : SyntaxError → String
  | unexpectedToken .. => "UnexpectedToken"
  | unexpectedEnd .. => "UnexpectedEof"
  | notAssignable .. => "InvalidAssignmentTarget"
  | tooDeep .. => "InvalidSyntax"

/-- A choice in words. -/
def choice : List String → String
  | [] => "something else"
  | [only] => only
  | options => String.intercalate ", " options.dropLast ++ " or " ++ options.getLast?.getD ""

/-- The hint for a name that looks like a keyword. -/
def hint? (found : Token) : Option String :=
  if found.kind = .identifier then
    (suggestKeyword? found.text).map fun k => "did you mean '" ++ k ++ "'?"
  else none

/-- The error in words. -/
def message : SyntaxError → String
  | unexpectedToken expected found context =>
    "Unexpected token '" ++ found.text ++ "' " ++ context.text ++ " at " ++ found.start.text ++ ": expected "
      ++ choice expected ++ ((hint? found).map fun h => " (" ++ h ++ ")").getD ""
  | unexpectedEnd expected p context =>
    "Unexpected end of input " ++ context.text ++ " at " ++ p.text ++ ": expected " ++ choice expected
  | notAssignable target p => "Invalid assignment target at " ++ p.text ++ ": " ++ target ++ " is not assignable"
  | tooDeep p context => "Nesting too deep " ++ context.text ++ " at " ++ p.text

end SyntaxError

end Vernacular
