/-!
# Command line arguments

Flags have a long form and some a short one. A value follows its flag as the next argument, after an equals sign, or
directly behind a short flag; short flags without values can share a dash. After two dashes everything is taken as it
stands. No flag is given twice, and besides flags there is at most one argument. Arguments are read from left to right,
and the first that is out of place, or that asks for help, decides.
-/

namespace Vernacular.Command

/-- The value of a flag. -/
structure FlagValue where
  /-- What the value is called in a description. -/
  name : String
  allowsEmpty : Bool := false
  default : Option String := none
deriving DecidableEq, Repr

/-- A flag. -/
structure Flag where
  long : String
  short : Option Char := none
  value : Option FlagValue := none
  description : String := ""
deriving DecidableEq, Repr

/-- What is wrong with a command line. -/
inductive UsageError where
  | noCommand
  | unknownCommand (name : String)
  | unknownFlag (text : String)
  | noValue (flag : String)
  | emptyValue (flag : String)
  | unwantedValue (flag : String)
  | repeated (flag : String)
  | extraArgument (text : String)
  | noInput
  | twoInputs
deriving DecidableEq, Repr

/-- The error in words. -/
def UsageError.message : UsageError → String
  | noCommand => "a command is required"
  | unknownCommand name => "unrecognized command '" ++ name ++ "'"
  | unknownFlag text => "unexpected argument '" ++ text ++ "'"
  | noValue flag => "a value is required for '--" ++ flag ++ "'"
  | emptyValue flag => "a value is required for '" ++ flag ++ "' but none was supplied"
  | unwantedValue flag => "unexpected value for '--" ++ flag ++ "'"
  | repeated flag => "the argument '--" ++ flag ++ "' cannot be used multiple times"
  | extraArgument text => "unexpected argument '" ++ text ++ "'"
  | noInput => "a file or a source text is required"
  | twoInputs => "a file cannot be used with a source text"

/-- The error as it is printed. -/
def UsageError.report (e : UsageError) : String := "error: " ++ e.message ++ "\n"

/-- Why the reading of arguments stopped. -/
inductive Stop where
  | help
  | misuse (error : UsageError)
deriving DecidableEq, Repr

/-- The flags given, each with its value if it takes one, and the other argument. -/
structure Arguments where
  flags : List (String × String) := []
  file : Option String := none
deriving DecidableEq, Repr

namespace Arguments

def has (a : Arguments) (long : String) : Bool := (a.flags.lookup long).isSome

def value? (a : Arguments) (long : String) : Option String := a.flags.lookup long

/-- Adds a flag, with its value if it takes one. -/
def addFlag (a : Arguments) (f : Flag) (text : String) : Except Stop Arguments :=
  if f.long == "help" then .error .help
  else if a.has f.long then .error (.misuse (.repeated f.long))
  else if text == "" && f.value.any (!·.allowsEmpty) then .error (.misuse (.emptyValue f.long))
  else .ok { a with flags := a.flags ++ [(f.long, text)] }

/-- Adds the argument that is no flag. -/
def addFile (a : Arguments) (text : String) : Except Stop Arguments :=
  if a.file.isSome then .error (.misuse (.extraArgument text))
  else if text == "" then .error (.misuse (.emptyValue "FILE"))
  else .ok { a with file := some text }

end Arguments

/-- Whether an argument begins with a dash and is more than that. -/
def isDashed (arg : String) : Bool :=
  match arg.toList with
  | '-' :: _ :: _ => true
  | _ => false

/-- A long flag and the value behind its equals sign, if there is one. -/
def splitLong (cs : List Char) : String × Option String :=
  match cs.span (· != '=') with
  | (name, []) => (String.ofList name, none)
  | (name, _ :: value) => (String.ofList name, some (String.ofList value))

/-- Short flags behind one dash. The first that takes a value takes all that is left behind it; if that is nothing, its
value is still due. -/
def readShort (flags : List Flag) (a : Arguments) : List Char → Except Stop (Arguments × Option Flag)
  | [] => .ok (a, none)
  | c :: cs =>
    match flags.find? (·.short == some c) with
    | none => .error (.misuse (.unknownFlag ("-" ++ String.singleton c)))
    | some f =>
      if f.value.isNone then do readShort flags (← a.addFlag f "") cs
      else
        match cs with
        | [] => .ok (a, some f)
        | '=' :: text | text => do return (← a.addFlag f (String.ofList text), none)

/-- A long flag; its value is still due if it takes one and none is attached. -/
def readLong (flags : List Flag) (a : Arguments) (cs : List Char) : Except Stop (Arguments × Option Flag) :=
  let (name, value) := splitLong cs
  match flags.find? (·.long == name) with
  | none => .error (.misuse (.unknownFlag ("--" ++ name)))
  | some f =>
    match f.value, value with
    | some _, none => .ok (a, some f)
    | some _, some text => do return (← a.addFlag f text, none)
    | none, none => do return (← a.addFlag f "", none)
    | none, some _ => .error (.misuse (.unwantedValue name))

/-- Reads arguments; `due` is a flag whose value comes next. -/
def readArguments (flags : List Flag) (due : Option Flag) (a : Arguments) : List String → Except Stop Arguments
  | [] =>
    match due with
    | some f => .error (.misuse (.noValue f.long))
    | none => .ok a
  | arg :: args =>
    match due with
    | some f =>
      if isDashed arg then .error (.misuse (.noValue f.long))
      else do readArguments flags none (← a.addFlag f arg) args
    | none =>
      match arg.toList with
      | ['-', '-'] => args.foldlM Arguments.addFile a
      | '-' :: '-' :: cs => do
        let (a, due) ← readLong flags a cs
        readArguments flags due a args
      | '-' :: c :: cs => do
        let (a, due) ← readShort flags a (c :: cs)
        readArguments flags due a args
      | _ => do readArguments flags none (← a.addFile arg) args

end Vernacular.Command
