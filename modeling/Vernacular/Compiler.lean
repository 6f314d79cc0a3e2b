import Vernacular.Check.Walk
import Vernacular.Grammar.Program
import Vernacular.Options
import Vernacular.Script.Render
import Vernacular.Tree.Dump
import Vernacular.Token.Scanner

/-!
# From source to code

A source text becomes tokens, the tokens a program, and the program code, with a check of names and types before that if
the settings ask for one. The first stage that fails decides.
-/

namespace Vernacular

/-- The stages in which something can fail. -/
inductive Stage where
  | lex | parse | semantic | generate | execute
deriving DecidableEq, Repr

def Stage.text : Stage → String
  | lex => "lex"
  | parse => "parse"
  | semantic => "semantic"
  | generate => "generate"
  | execute => "execute"

/-- Why a source has no code. -/
inductive CompileError where
  | lexical (error : LexicalError)
  | grammatical (error : SyntaxError)
  | semantic (errors : List SemanticError)
  | generation (error : GenerationError)
deriving DecidableEq, Repr

namespace CompileError

def stage : CompileError → Stage
  | lexical _ => .lex
  | grammatical _ => .parse
  | semantic _ => .semantic
  | generation _ => .generate

/-- Where the first trouble is, if it is anywhere in the source. -/
def position? : CompileError → Option Position
  | lexical e => some e.position
  | grammatical e => some e.position
  | semantic es => es.head?.map SemanticError.position
  | generation _ => none

/-- The error in words, each trouble on a line of its own. -/
def message : CompileError → String
  | lexical e => e.message
  | grammatical e => e.message
  | semantic es => String.intercalate "\n" (es.map SemanticError.message)
  | generation e => e.message

end CompileError

/-- All that a source was made into. -/
structure Compiled where
  tokens : List Token
  program : Program
  script : String

/-- The tokens of a source. -/
def readTokens (source : String) : Except CompileError (List Token) :=
  (tokenize source).mapError .lexical

/-- The program of a list of tokens. -/
def readProgram (tokens : List Token) : Except CompileError Program :=
  (parse tokens).mapError .grammatical

/-- Fails if a check finds fault with a program. -/
def ensureSound (options : CheckOptions) (p : Program) : Except CompileError Unit :=
  match (p.check options).errors with
  | [] => .ok ()
  | errors => .error (.semantic errors)

/-- The code of a program. -/
def writeScript (indent : String) (p : Program) : Except CompileError String :=
  match p.script indent .zero with
  | .ok s _ => .ok s
  | .error e _ => .error (.generation e)

/-- Makes code from a source. -/
def compile (options : Options) (source : String) : Except CompileError Compiled := do
  let tokens ← readTokens source
  let program ← readProgram tokens
  if options.analyze then ensureSound options.check program
  let script ← writeScript options.indent program
  return ⟨tokens, program, script⟩

/-- All that a source was made into, as JSON. -/
def Compiled.toJson (c : Compiled) : Json :=
  .object [("tokens", .array (c.tokens.map Token.toJson)), ("ast", c.program.toJson), ("generated", .text c.script)]

end Vernacular
