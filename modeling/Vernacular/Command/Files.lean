import Vernacular.Text.Utf8

/-!
# Files in memory

A command line reads files and may write one. A file system holds files, folders and devices under paths from its root,
and one folder from which paths without a leading slash are walked. A walk goes part by part: what it passes through has
to be a folder, a single dot stays where it is, and two dots go up. Reading and writing fail for the reasons that an
operating system gives.

- `walk` finds the place of a path, whose folder is there while the place itself may be empty;
- `read` reads the same path with a dot behind a final slash;
- `place` says where a new text goes, and refuses every path that ends in a slash.
-/

namespace Vernacular

/-- Why a path cannot be used. -/
inductive FileError where
  | missing | denied | notDirectory | isDirectory | full | nameTooLong | notText
deriving DecidableEq, Repr

namespace FileError

/-- The reason in the words of the operating system. -/
def text : FileError → String
  | missing => "No such file or directory"
  | denied => "Permission denied"
  | notDirectory => "Not a directory"
  | isDirectory => "Is a directory"
  | full => "No space left on device"
  | nameTooLong => "File name too long"
  | notText => "stream did not contain valid UTF-8"

/-- The number that the operating system gives the reason, if it comes from there. -/
def number? : FileError → Option Nat
  | missing => some 2
  | denied => some 13
  | notDirectory => some 20
  | isDirectory => some 21
  | full => some 28
  | nameTooLong => some 36
  | notText => none

/-- The reason with its number. -/
def message (e : FileError) : String :=
  match e.number? with
  | some n => e.text ++ " (os error " ++ toString n ++ ")"
  | none => e.text

end FileError

/-- A file without content of its own: one that swallows everything, one that is always full, and the streams of the
process that opens it. -/
inductive Device where
  | null | full | stdin | stdout | stderr
deriving DecidableEq, Repr

/-- What stands at a place. -/
inductive Entry where
  | file (content : Bytes)
  | folder
  | device (device : Device)
deriving DecidableEq, Repr

/-- Where a new content goes. -/
inductive Destination where
  | file (path : List String)
  | device (device : Device)
deriving DecidableEq, Repr

/-- Entries under their paths from the root, and the folder in which paths begin that have no leading slash. -/
structure FileSystem where
  entries : List (List String × Entry)
  here : List String
deriving DecidableEq, Repr

namespace FileSystem

/-- The parts of a path. -/
def parts (path : String) : List String := (path.splitOn "/").filter (· != "")

def isAbsolute (path : String) : Bool := path.toList.head? = some '/'

def endsInSlash (path : String) : Bool := path.toList.getLast? = some '/'

/-- What stands at a place. A place below which something stands is a folder. -/
def find? (fs : FileSystem) (spot : List String) : Option Entry :=
  fs.entries.lookup spot <|>
    if spot.isEmpty || fs.entries.any fun (path, _) => spot.isPrefixOf path then some .folder else none

/-- The greatest number of bytes in a part of a path. -/
def maxPart : Nat := 255

/-- The greatest number of bytes in a path. -/
def maxPath : Nat := 4095

/-- Walks along some parts, beginning at a place. -/
def walk (fs : FileSystem) (start : List String) : List String → Except FileError (List String)
  | [] => .ok start
  | part :: rest =>
    match fs.find? start with
    | none => .error .missing
    | some .folder =>
      if part = "." then fs.walk start rest
      else if part = ".." then fs.walk start.dropLast rest
      else if maxPart < part.utf8ByteSize then .error .nameTooLong
      else fs.walk (start ++ [part]) rest
    | some _ => .error .notDirectory

/-- Walks along a path that may begin at the root. An empty path leads nowhere. -/
def walkFrom (fs : FileSystem) (path : String) (steps : List String) : Except FileError (List String) :=
  if path.isEmpty then .error .missing
  else if maxPath < path.utf8ByteSize then .error .nameTooLong
  else fs.walk (if isAbsolute path then [] else fs.here) steps

/-- The place of a path; one that ends in a slash has to be a folder. -/
def locate (fs : FileSystem) (path : String) : Except FileError (List String) :=
  fs.walkFrom path (if endsInSlash path then parts path ++ ["."] else parts path)

/-- The content at a path. -/
def read (fs : FileSystem) (path : String) : Except FileError Bytes := do
  match fs.find? (← fs.locate path) with
  | none => .error .missing
  | some .folder => .error .isDirectory
  | some (.file content) => .ok content
  | some (.device _) => .ok []

/-- The content at a path as text. -/
def readText (fs : FileSystem) (path : String) : Except FileError String := do
  let content ← fs.read path
  let text := content.toText
  if Bytes.ofText text = content then .ok text else .error .notText

/-- Where a new content for a path goes. -/
def place (fs : FileSystem) (path : String) : Except FileError Destination := do
  if endsInSlash path then
    let _ ← fs.walkFrom path ((parts path).dropLast ++ ["."])
    .error .isDirectory
  else
    let spot ← fs.locate path
    match fs.find? spot with
    | some .folder => .error .isDirectory
    | some (.device d) => .ok (.device d)
    | some (.file _) | none => .ok (.file spot)

/-- Puts an entry at a place. -/
def put (fs : FileSystem) (spot : List String) (entry : Entry) : FileSystem :=
  { fs with entries := (spot, entry) :: fs.entries.filter (·.1 != spot) }

/-! ## A working folder -/

/-- The folders and devices that every host has. -/
def standing : List (List String × Entry) :=
  [(["dev", "null"], .device .null), (["dev", "full"], .device .full), (["dev", "stdin"], .device .stdin),
    (["dev", "stdout"], .device .stdout), (["dev", "stderr"], .device .stderr), (["tmp"], .folder), (["etc"], .folder),
    (["home"], .folder), (["root"], .folder), (["var"], .folder), (["usr", "bin"], .folder), (["bin"], .folder)]

/-- The folder in which programs are started. -/
def workingFolder : List String := ["tmp", "work"]

/-- A file system whose working folder holds some files. -/
def ofList (files : List (String × String)) : FileSystem :=
  ⟨files.map (fun (path, text) => (workingFolder ++ parts path, .file (.ofText text))) ++
    (workingFolder, .folder) :: standing, workingFolder⟩

/-- The files below the working folder that another file system does not have, with their paths from there. -/
def newSince (fs before : FileSystem) : List (String × String) :=
  fs.entries.filterMap fun (path, entry) =>
    match entry with
    | .file content =>
      if fs.here.isPrefixOf path && (before.find? path).isNone then
        some (String.intercalate "/" (path.drop fs.here.length), content.toText)
      else none
    | _ => none

end FileSystem

end Vernacular
