import Vernacular.Command.Outcome

/-!
# The command line program

The files that a command names are read before it is carried out, and what it ends with is printed or written after
that. How a script is run is left to the host (`commandLine`).
-/

namespace Vernacular

/-- The paths that a command reads. -/
def Command.reads : Command → List String
  | .compile input _ _ config | .check input config | .run input _ config => paths input ++ config.toList
  | .tokens input _ | .tree input _ => paths input
where
  paths : Input → List String
    | .file path => [path]
    | .text _ => []

/-- The reason behind an error of the host. -/
def FileError.ofHost : IO.Error → FileError
  | .noFileOrDirectory .. => .missing
  | .permissionDenied .. => .denied
  | .inappropriateType .. => .isDirectory
  | _ => .notText

/-- Runs an action on files. -/
def catchFileError {α : Type} (action : IO α) : IO (Except FileError α) := do
  match ← action.toBaseIO with
  | .ok a => return .ok a
  | .error e => return .error (.ofHost e)

/-- Carries out a command. -/
def Command.execute (host : Host) (c : Command) : IO UInt32 := do
  let texts ← c.reads.mapM fun (path : String) => return (path, ← catchFileError (IO.FS.readFile path))
  let files (path : String) : Except FileError String := (texts.lookup path).getD (.error .missing)
  match c.perform files (host.evaluator · []) with
  | .ok (.print text) =>
    IO.print text
    return 0
  | .ok (.save path text) =>
    match ← catchFileError (IO.FS.writeFile path text) with
    | .ok () => return 0
    | .error e =>
      IO.eprint (CommandError.file path e).report
      return 1
  | .error e =>
    IO.eprint e.report
    return 1

/-- Carries out a command line. -/
def commandLine (host : Host) (args : List String) : IO UInt32 := do
  match Command.readRequest args with
  | .ok (.print text) =>
    IO.print text
    return 0
  | .ok (.perform c) => c.execute host
  | .error e =>
    IO.eprint e.report
    return 2

end Vernacular
