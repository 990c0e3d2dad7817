/-
# Copying and substituting

A copy of a value has the same content and fresh numbers.  References are copied as they are:
a copy refers to the same declarations.

A substitution replaces leaves.  A replaced value keeps its own number and takes the content and the
place of its replacement, with fresh numbers below it; what has been put in is not searched again,
so all replacements happen at once.  Function names are never replaced.
-/
import HaloScript.Program.Value

namespace HaloScript

/-- A computation that draws numbers for new nodes. -/
abbrev Supply := StateM NodeId

def Supply.fresh : Supply NodeId := fun n => (n, n + 1)

namespace Value

def newLeaf (l : Leaf) : Supply Value := do
  return .leaf ⟨← Supply.fresh, none⟩ l

def newCall (callee : Callee) (clause : Bool) (args : List Value) : Supply Value := do
  let id ← Supply.fresh
  let callId ← Supply.fresh
  return .call ⟨id, none⟩ ⟨callId, none, callee, clause⟩ args

mutual

def copy : Value → Supply Value
  | .leaf t l => do
    let id ← Supply.fresh
    return .leaf { t with id } l
  | .call t h args => do
    let id ← Supply.fresh
    let callId ← Supply.fresh
    let args ← copyAll args
    return .call { t with id } { h with id := callId } args

def copyAll : List Value → Supply (List Value)
  | [] => return []
  | v :: rest => do
    let v ← copy v
    let rest ← copyAll rest
    return v :: rest

end

/-- A copy that takes the place of the value with the number `id`; the numbers below it are
fresh. -/
def copyAt (id : NodeId) : Value → Supply Value
  | .leaf t l => return .leaf { t with id } l
  | .call t h args => do
    let callId ← Supply.fresh
    let args ← copyAll args
    return .call { t with id } { h with id := callId } args

end Value

/-- What leaves are to be replaced by.  Where a leaf is listed twice the later entry counts. -/
structure Substitution where
  /-- The entries, the last one first. -/
  entries : List (Leaf × Value) := []

namespace Substitution

def find? (m : Substitution) (l : Leaf) : Option Value := m.entries.lookup l

/-- One more entry.  A leaf without content cannot be replaced, and neither can a call. -/
def add? (m : Substitution) (old new : Value) : Option Substitution :=
  match old with
  | .leaf _ .blank | .call _ _ _ => none
  | .leaf _ l => some ⟨(l, new) :: m.entries⟩

end Substitution

namespace Value

mutual

/-- Replaces leaves below a value, or the value itself. -/
def substitute (m : Substitution) : Value → Supply Value
  | .leaf t l =>
    match m.find? l with
    | none => return .leaf t l
    | some new => new.copyAt t.id
  | .call t h args => do
    let args ← substituteAll m args
    return .call t h args

def substituteAll (m : Substitution) : List Value → Supply (List Value)
  | [] => return []
  | v :: rest => do
    let v ← substitute m v
    let rest ← substituteAll m rest
    return v :: rest

end

def instantiateAll (m : Substitution) (vs : List Value) : Supply (List Value) := do
  let vs ← copyAll vs
  substituteAll m vs

end Value

end HaloScript
