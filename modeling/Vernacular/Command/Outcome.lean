import Vernacular.Command.Basic
import Vernacular.Command.Files
import Vernacular.Execution

/-!
# What commands do

A command reads files and ends with a text to print or a file to write; both are functions of its arguments, of the file
system and of the host that runs scripts. Settings are read before the source, and the first thing that fails decides.
-/

namespace Vernacular

/-- Why a command failed. -/
inductive CommandError where
  | file (path : String) (error : FileError)
  | settings (path : String)
  | compile (error : CompileError)
  | run (error : RunError)
deriving DecidableEq, Repr

/-- The error in words, behind the name of what failed. -/
def CommandError.message : CommandError → String
  | file path e => "[io] " ++ path ++ ": " ++ e.message
  | settings path => "[config] " ++ path ++ ": not a description of settings"
  | compile e => "[" ++ e.stage.text ++ "] " ++ e.message
  | run e => "[" ++ e.stage.text ++ "] " ++ e.message

/-- The error as it is printed. -/
def CommandError.report (e : CommandError) : String := e.message ++ "\n"

/-- What a command ends with. -/
inductive Product where
  | print (text : String)
  | save (path text : String)
deriving DecidableEq, Repr

/-- What a command line leaves behind. -/
structure Outcome where
  exit : Nat
  stdout : String
  stderr : String
  files : FileSystem
deriving DecidableEq, Repr

namespace Command

/-- How the text of a file is found. -/
abbrev FileReader : Type := String → Except FileError String

/-- The text of a file. -/
def readFile (files : FileReader) (path : String) : Except CommandError String :=
  (files path).mapError (.file path)

/-- The source of a command. -/
def readSource (files : FileReader) : Input → Except CommandError String
  | .file path => readFile files path
  | .text s => .ok s

/-- The settings in a file, or those that hold without one. -/
def readSettings (files : FileReader) : Option String → Except CommandError Options
  | none => .ok {}
  | some path => do
    match Options.read? (← readFile files path) with
    | some options => .ok options
    | none => .error (.settings path)

def sourceTokens (source : String) : Except CommandError (List Token) := (readTokens source).mapError .compile

def sourceProgram (source : String) : Except CommandError Program := do
  (readProgram (← sourceTokens source)).mapError .compile

/-- A document on one line or on many. -/
def document (pretty : Bool) (j : Json) : Product := .print ((if pretty then j.pretty else j.compact) ++ "\n")

/-- Carries out a command, with a way to find an evaluator by the name of a program. -/
def perform (files : FileReader) (evaluator : String → Evaluator) : Command → Except CommandError Product
  | compile input output analyze config => do
    let options ← readSettings files config
    let source ← readSource files input
    let compiled ←
      (Vernacular.compile { options with analyze := options.analyze || analyze } source).mapError .compile
    let code := compiled.script ++ "\n"
    return output.elim (.print code) (.save · code)
  | tokens input pretty => do
    let ts ← sourceTokens (← readSource files input)
    return document pretty (.array (ts.map Token.toJson))
  | tree input pretty => do
    let program ← sourceProgram (← readSource files input)
    return document pretty program.toJson
  | check input config => do
    let options ← readSettings files config
    let program ← sourceProgram (← readSource files input)
    (ensureSound options.check program).mapError .compile
    return .print "no problems found\n"
  | run input program config => do
    let options ← readSettings files config
    let source ← readSource files input
    let execution ← (Vernacular.run options consolePrelude (evaluator program) source).mapError .run
    return .print execution.output

/-- The outcome of a command that ends with something. What is saved to a stream of the process is printed there. -/
def settle (fs : FileSystem) : Product → Except CommandError Outcome
  | .print text => .ok ⟨0, text, "", fs⟩
  | .save path text => do
    match ← (fs.place path).mapError (.file path) with
    | .file spot => return ⟨0, "", "", fs.put spot (.file (.ofText text))⟩
    | .device .stdout => return ⟨0, text, "", fs⟩
    | .device .stderr => return ⟨0, "", text, fs⟩
    | .device .full => .error (.file path .full)
    | .device .null | .device .stdin => return ⟨0, "", "", fs⟩

/-- The outcome of a command line in a file system, on a host that runs scripts. -/
def outcome (host : Host) (fs : FileSystem) (args : List String) : Outcome :=
  match readRequest args with
  | .error e => ⟨2, "", e.report, fs⟩
  | .ok (.print text) => ⟨0, text, "", fs⟩
  | .ok (.perform c) =>
    match c.perform fs.readText (host.evaluator · []) >>= settle fs with
    | .ok o => o
    | .error e => ⟨1, "", e.report, fs⟩

end Command

end Vernacular
