/-
# The name table

Globals and scripts share one namespace.  The table lists the declarations a program has, in
the order in which their names were first declared; a declaration that replaces another takes
over its place.
-/
import HaloScript.Program.Declaration

namespace HaloScript

/-- The declarations of a program, at most one per name. -/
structure Table where
  entries : List DeclId := []
deriving DecidableEq, Inhabited

namespace Table

def get? (t : Table) (name : Text) : Option DeclId := t.entries.find? (·.name == name)

def names (t : Table) : List Text := t.entries.map DeclId.name

/-- Adds to a list of entries, taking the place of an entry with the same name. -/
def insert (d : DeclId) : List DeclId → List DeclId
  | [] => [d]
  | e :: rest => if e.name == d.name then d :: rest else e :: insert d rest

/-- Sets the entry for the declaration's name. -/
def add (t : Table) (d : DeclId) : Table := ⟨insert d t.entries⟩

def remove (t : Table) (name : Text) : Table := ⟨t.entries.eraseP (·.name == name)⟩

/-- Deletes the entry under a name and tells whether there was one. -/
def delete (t : Table) (name : Text) : Bool × Table :=
  (t.entries.any (·.name == name), t.remove name)

end Table

end HaloScript
