import Vernacular.Command.Arguments

/-!
# The forms of command lines

A command line names a command and goes on with its flags and its source. Each command has a form, which is both what
its arguments are read by and what its help is written from.
-/

namespace Vernacular.Command

/-- The name of the program. -/
def programName : String := "vjs"

def programVersion : String := "0.1.0"

def programDescription : String := "VJS to JavaScript transpiler"

/-- A command as it is written on a command line. -/
structure Form where
  name : String
  description : String
  flags : List Flag
deriving DecidableEq, Repr

/-! ## Flags -/

def evalFlag : Flag := ⟨"eval", some 'e', some { name := "SRC", allowsEmpty := true }, "Inline source text"⟩

def outputFlag : Flag :=
  ⟨"output", some 'o', some { name := "OUTPUT" }, "Write the JavaScript here instead of stdout"⟩

def checkFlag : Flag := { long := "check", description := "Run the semantic analyzer first" }

/-- The flag that names a file of settings, with the words that describe it. -/
def configFlag (description : String) : Flag := ⟨"config", none, some { name := "CONFIG" }, description⟩

def prettyFlag : Flag := { long := "pretty", short := some 'p' }

def nodeFlag : Flag := ⟨"node", none, some { name := "NODE", default := some "node" }, "Node executable"⟩

def helpFlag : Flag := ⟨"help", some 'h', none, "Print help"⟩

def versionFlag : Flag := ⟨"version", some 'V', none, "Print version"⟩

/-! ## Commands -/

def compileForm : Form :=
  ⟨"compile", "Translate a program to JavaScript",
    [evalFlag, outputFlag, checkFlag, configFlag "Compiler options as JSON", helpFlag]⟩

def tokensForm : Form := ⟨"tokens", "Dump the token stream as JSON", [evalFlag, prettyFlag, helpFlag]⟩

def treeForm : Form := ⟨"ast", "Dump the syntax tree as JSON", [evalFlag, prettyFlag, helpFlag]⟩

def checkForm : Form := ⟨"check", "Report every semantic diagnostic", [evalFlag, configFlag "", helpFlag]⟩

def runForm : Form := ⟨"run", "Compile and execute with Node.js", [evalFlag, nodeFlag, configFlag "", helpFlag]⟩

def forms : List Form := [compileForm, tokensForm, treeForm, checkForm, runForm]

def helpName : String := "help"

def helpDescription : String := "Print this message or the help of the given subcommand(s)"

/-! ## Help -/

/-- Rows of two columns. The first is as wide as its widest entry; the second stands two blanks behind it. -/
def columns (rows : List (String × String)) : List String :=
  let width := rows.foldl (fun n (left, _) => max n left.length) 0
  rows.map fun (left, right) =>
    "  " ++ left ++ String.ofList (List.replicate (width - left.length) ' ') ++ "  " ++ right

/-- A flag as help shows it. -/
def Flag.usage (f : Flag) : String :=
  let short := match f.short with
    | some c => "-" ++ String.singleton c ++ ", "
    | none => "    "
  let value := match f.value with
    | some v => " <" ++ v.name ++ ">"
    | none => ""
  short ++ "--" ++ f.long ++ value

/-- What help says about a flag: its description, and the value it has if it is left out. -/
def Flag.note (f : Flag) : String :=
  match f.value >>= FlagValue.default with
  | some d => f.description ++ " [default: " ++ d ++ "]"
  | none => f.description

/-- The flags as help lists them. -/
def flagRows (flags : List Flag) : List String := columns (flags.map fun f => (f.usage, f.note))

/-- Lines, each with its end. -/
def unlines (lines : List String) : String := String.join (lines.map (· ++ "\n"))

/-- The help of a command. -/
def Form.help (f : Form) : String :=
  unlines ([f.description, "", "Usage: " ++ programName ++ " " ++ f.name ++ " [OPTIONS] [FILE]", "", "Arguments:",
    "  [FILE]  Source file", "", "Options:"] ++ flagRows f.flags)

/-- The help of the program. -/
def help : String :=
  unlines ([programDescription, "", "Usage: " ++ programName ++ " <COMMAND>", "", "Commands:"] ++
    columns (forms.map (fun f => (f.name, f.description)) ++ [(helpName, helpDescription)]) ++
    ["", "Options:"] ++ flagRows [helpFlag, versionFlag])

/-- The help of the command that prints help. -/
def helpOfHelp : String :=
  unlines [helpDescription, "", "Usage: " ++ programName ++ " " ++ helpName ++ " [COMMAND]...", "", "Arguments:",
    "  [COMMAND]...  Print help for the subcommand(s)"]

/-- The version of the program. -/
def version : String := unlines [programName ++ " " ++ programVersion]

end Vernacular.Command
