import Vernacular.Compiler
import Vernacular.Text.Utf8

/-!
# Running generated code

Generated code runs behind a prelude that defines what it takes from its host. An evaluator is anything that runs such a
script and gives its output. One kind of evaluator stores the script in a file and starts a program on that file
(`Host.evaluator`); what storing and starting come to is the host's affair.
-/

namespace Vernacular

/-- Why a script gave no output. -/
inductive ExecutionError where
  /-- The script could not be stored for the program that should run it. -/
  | unprepared (reason : String)
  /-- The program that should run the script did not start. -/
  | notStarted (program reason : String)
  /-- The program ended with a code other than zero, or by a signal without any. -/
  | failed (code : Option Int) (stderr : String)
deriving DecidableEq, Repr

namespace ExecutionError

/-- The name of the kind of error. -/
def label : ExecutionError → String
  | unprepared _ => "Io"
  | notStarted .. => "Spawn"
  | failed .. => "Failed"

/-- The error in words. -/
def message : ExecutionError → String
  | unprepared reason => "Failed to prepare program for execution: " ++ reason
  | notStarted program reason => "Failed to start '" ++ program ++ "': " ++ reason
  | failed (some code) stderr => "Program exited with status " ++ toString code ++ ": " ++ stderr
  | failed none stderr => "Program exited with a signal: " ++ stderr

end ExecutionError

/-- Runs a script. -/
abbrev Evaluator : Type := String → Except ExecutionError String

/-! ## Programs that run a script -/

/-- What a process left behind: its code is absent if a signal ended it. -/
structure Completed where
  code : Option Int
  stdout : Bytes
  stderr : Bytes

/-- The output, or the failure if the process did not end with the code zero. -/
def Completed.output (c : Completed) : Except ExecutionError String :=
  if c.code = some 0 then .ok c.stdout.toText else .error (.failed c.code c.stderr.toText)

/-- What keeps files and starts programs. Both can fail, for reasons in words. -/
structure Host where
  /-- Stores a script and gives the path of its file. -/
  store : (script : String) → Except String String
  /-- Starts a program with arguments; the last of them is the path under which the script is stored. -/
  start : (program : String) → (args : List String) → (script : String) → Except String Completed

/-- Runs a script by a program, with some arguments before the path of the script. -/
def Host.evaluator (host : Host) (program : String) (args : List String) : Evaluator := fun script => do
  let path ← (host.store script).mapError .unprepared
  let completed ← (host.start program (args ++ [path]) script).mapError (.notStarted program)
  completed.output

/-! ## Runs -/

/-- Why a source was not run. -/
inductive RunError where
  | compile (error : CompileError)
  | execution (error : ExecutionError)
deriving DecidableEq, Repr

namespace RunError

def stage : RunError → Stage
  | compile e => e.stage
  | execution _ => .execute

def message : RunError → String
  | compile e => e.message
  | execution e => e.message

end RunError

/-- What a run gave. -/
structure Execution where
  output : String
  compiled : Compiled

/-- The prelude that writes to the console. What the host defines already stays. -/
def consolePrelude : String :=
  String.intercalate "\n"
    [r#"if (typeof globalThis.escreva === "undefined") {"#,
      "  const escreva = (...args) => console.log(...args);",
      "  escreva.info = (...args) => console.info(...args);",
      "  escreva.erro = (...args) => console.error(...args);",
      "  escreva.warn = (...args) => console.warn(...args);",
      "  escreva.debug = (...args) => console.debug(...args);",
      "  globalThis.escreva = escreva;",
      r"}",
      r#"if (typeof globalThis.alert === "undefined") {"#,
      "  globalThis.alert = (...args) => console.log(...args);",
      r"}",
      r#"if (typeof globalThis.alerta === "undefined") {"#,
      "  globalThis.alerta = (...args) => globalThis.alert(...args);",
      r"}"]

/-- The script that an evaluator is given. -/
def scriptWith (prelude generated : String) : String := prelude ++ "\n" ++ generated ++ "\n"

/-- Compiles a source and runs its code. -/
def run (options : Options) (prelude : String) (evaluate : Evaluator) (source : String) :
    Except RunError Execution := do
  let compiled ← (compile options source).mapError .compile
  let output ← (evaluate (scriptWith prelude compiled.script)).mapError .execution
  return ⟨output, compiled⟩

end Vernacular
