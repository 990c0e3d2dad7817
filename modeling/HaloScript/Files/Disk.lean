/-
# The disk

The files and directories below the working directory, by path in normal form.  Every directory
that a path leads through is there as well, and so is the working directory itself.  Paths that
lead out of it are not known.
-/
import HaloScript.Files.Library

namespace HaloScript

/-- What is found under a path. -/
inductive DiskEntry where
  | file (content : Text)
  | directory
deriving DecidableEq, Inhabited

/-- The files and directories below the working directory. -/
structure Disk where
  entries : List (Text × DiskEntry) := []
deriving Inhabited

/-- Why a path cannot be used. -/
inductive DiskFault where
  | missing
  /-- A directory where a file is needed. -/
  | isDirectory
  /-- A file where a directory is needed. -/
  | notDirectory
deriving DecidableEq, Inhabited

def DiskFault.message : DiskFault → Text
  | .missing => "no such file or directory"
  | .isDirectory => "is a directory"
  | .notDirectory => "not a directory"

namespace Disk

/-- Whether a path leads through another one, or is that path. -/
def leadsThrough (path through : Text) : Bool :=
  through == ("." : Text) || path == through || (through ++ [Text.slash]).isPrefixOf path

def find? (d : Disk) (path : Text) : Option DiskEntry :=
  match d.entries.lookup path with
  | some e => some e
  | none =>
    if path == ("." : Text) || d.entries.any (leadsThrough ·.1 path) then some .directory else none

def above (path : Text) : List Text :=
  let elements := path.splitOn Text.slash
  (List.range (elements.length - 1)).map fun n => Text.join "/" (elements.take (n + 1))

def throughFile (d : Disk) (path : Text) : Option Text :=
  (above path).find? fun p => d.find? p matches some (.file _)

def read (d : Disk) (path : Text) : Except DiskFault Text :=
  match d.throughFile path, d.find? path with
  | some _, _ => .error .notDirectory
  | none, some (.file content) => .ok content
  | none, some .directory => .error .isDirectory
  | none, none => .error .missing

/-- What a failed attempt to read a file is called; a directory can be opened but not read. -/
def readFailure (path : Text) (fault : DiskFault) : Text :=
  (if fault == .isDirectory then "read " else "open ") ++ path ++ ": " ++ fault.message

def list (d : Disk) (path : Text) : List (Text × DiskEntry) :=
  let names := d.entries.filterMap fun e =>
    let below :=
      if path == ("." : Text) then some e.1
      else if (path ++ [Text.slash]).isPrefixOf e.1 then some (e.1.drop (path.length + 1))
      else none
    below.map fun p => p.takeWhile (· != Text.slash)
  let sorted := (names.eraseDups).mergeSort Text.le
  sorted.filterMap fun n => (d.find? (Path.join [path, n])).map fun e => (n, e)

def makeDirectory (d : Disk) (path : Text) : Except (Text × DiskFault) Disk :=
  let isFile := fun p => d.find? p matches some (.file _)
  match (above path ++ [path]).find? isFile with
  | some p => .error (p, .notDirectory)
  | none =>
    match d.find? path with
    | some _ => .ok d
    | none => .ok ⟨d.entries ++ [(path, .directory)]⟩

def write (d : Disk) (path content : Text) : Except DiskFault Disk :=
  match d.throughFile path, d.find? path, d.find? (Path.directory path) with
  | some _, _, _ => .error .notDirectory
  | none, some .directory, _ => .error .isDirectory
  | none, some (.file _), _ =>
    .ok ⟨d.entries.map fun e => if e.1 == path then (path, .file content) else e⟩
  | none, none, some _ => .ok ⟨d.entries ++ [(path, .file content)]⟩
  | none, none, none => .error .missing

/-- The files that are new or changed since an earlier state. -/
def changedSince (d before : Disk) : List (Text × Text) :=
  d.entries.filterMap fun e =>
    match e.2 with
    | .directory => none
    | .file content => if before.entries.lookup e.1 == some e.2 then none else some (e.1, content)

/-- The files below a directory, as a library to import from. -/
def library (d : Disk) (path : Text) : Library :=
  let files := d.entries.filterMap fun e =>
    match e.2 with
    | .directory => none
    | .file content =>
      if path == ("." : Text) then some (e.1, content)
      else if (path ++ [Text.slash]).isPrefixOf e.1 then
        some (e.1.drop (path.length + 1), content)
      else none
  { files := files.filter (Path.isLocal ·.1)
    failure := fun name =>
      if !Path.isLocal name || name.contains 0 then
        .unreadable ("readfile " ++ name ++ ": invalid argument")
      else match d.read (Path.join [path, name]) with
        | .ok _ | .error .missing => .missing
        | .error fault => .unreadable (readFailure name fault) }

end Disk

end HaloScript
