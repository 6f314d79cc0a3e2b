import Vernacular.Command.Form

/-!
# Commands

A command reads a source from a file or from the command line. It writes code, tokens or the program tree, checks the
source, or runs it.
-/

namespace Vernacular

/-- Where a source comes from. -/
inductive Input where
  | file (path : String)
  | text (source : String)
deriving DecidableEq, Repr

/-- What is asked for. -/
inductive Command where
  | compile (input : Input) (output : Option String) (analyze : Bool) (config : Option String)
  | tokens (input : Input) (pretty : Bool)
  | tree (input : Input) (pretty : Bool)
  | check (input : Input) (config : Option String)
  | run (input : Input) (program : String) (config : Option String)
deriving DecidableEq, Repr

/-- What a command line asks for: a text about the program, or a command. -/
inductive Request where
  | print (text : String)
  | perform (command : Command)
deriving DecidableEq, Repr

namespace Command

/-- The source: a file, or a text under its flag, and not both. -/
def Arguments.input (a : Arguments) : Except Stop Input :=
  match a.file, a.value? evalFlag.long with
  | some path, none => .ok (.file path)
  | none, some source => .ok (.text source)
  | none, none => .error (.misuse .noInput)
  | some _, some _ => .error (.misuse .twoInputs)

/-- A command from its arguments. -/
def ofArguments (form : Form) (build : Arguments → Input → Command) (args : List String) :
    Except UsageError Request :=
  match (do let a ← readArguments form.flags none {} args; return build a (← a.input)) with
  | .ok c => .ok (.perform c)
  | .error .help => .ok (.print form.help)
  | .error (.misuse e) => .error e

/-- The help of the command that the arguments name. -/
def helpFor : List String → Except UsageError Request
  | [] => .ok (.print help)
  | [name] =>
    if name == helpName then .ok (.print helpOfHelp)
    else
      match forms.find? (·.name == name) with
      | some f => .ok (.print f.help)
      | none => .error (.unknownCommand name)
  | name :: extra :: _ =>
    .error (.unknownCommand (if name == helpName || forms.any (·.name == name) then extra else name))

/-- A flag in front of any command: it asks for help or for the version. -/
def aboutProgram (flag : String) : Except UsageError Request :=
  match flag.toList with
  | '-' :: 'h' :: _ => .ok (.print help)
  | '-' :: 'V' :: _ => .ok (.print version)
  | _ =>
    if flag == "--" ++ helpFlag.long then .ok (.print help)
    else if flag == "--" ++ versionFlag.long then .ok (.print version)
    else if isDashed flag then .error (.unknownFlag flag)
    else .error (.unknownCommand flag)

/-- What a command line asks for. -/
def readRequest : List String → Except UsageError Request
  | [] => .error .noCommand
  | "compile" :: args =>
    ofArguments compileForm
      (fun a input => .compile input (a.value? outputFlag.long) (a.has checkFlag.long) (a.value? "config")) args
  | "tokens" :: args => ofArguments tokensForm (fun a input => .tokens input (a.has prettyFlag.long)) args
  | "ast" :: args => ofArguments treeForm (fun a input => .tree input (a.has prettyFlag.long)) args
  | "check" :: args => ofArguments checkForm (fun a input => .check input (a.value? "config")) args
  | "run" :: args =>
    ofArguments runForm
      (fun a input => .run input ((a.value? nodeFlag.long).getD "node") (a.value? "config")) args
  | "help" :: args => helpFor args
  | flag :: _ => aboutProgram flag

end Command

end Vernacular
