/-
# Libraries of source files

What imports are read from: a finite set of files by path.  A path that leads to no file may
still lead to something that cannot be read, such as a directory; the library then knows why.
-/
import HaloScript.Files.Path

namespace HaloScript

/-- Why a path did not lead to a file. -/
inductive ReadFailure where
  /-- There is nothing under this path. -/
  | missing
  /-- There is something, but it cannot be read. -/
  | unreadable (reason : Text)
deriving DecidableEq, Inhabited

/-- A finite set of readable files. -/
structure Library where
  /-- The files by path in normal form. -/
  files : List (Text × Text) := []
  /-- Why any other path cannot be read. -/
  failure : Text → ReadFailure := fun _ => .missing

instance : Inhabited Library := ⟨{}⟩

namespace Library

def read (l : Library) (path : Text) : Except ReadFailure Text :=
  match l.files.lookup path with
  | some content => .ok content
  | none => .error (l.failure path)

/-- The directories that the paths of some files lead through, and the root directory. -/
def folders (files : List (Text × Text)) : List Text :=
  "." :: files.flatMap fun f =>
    let elements := f.1.splitOn Text.slash
    (List.range (elements.length - 1)).map fun n => Text.join "/" (elements.take (n + 1))

/-- Files held in memory.  A path that leaves the library leads nowhere. -/
def ofFiles (files : List (Text × Text)) : Library :=
  { files := files.filter (Path.isLocal ·.1)
    failure := fun path =>
      if Path.isLocal path && (folders files).contains path then .unreadable "is a directory"
      else .missing }

end Library

end HaloScript
