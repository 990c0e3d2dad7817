/-
# Sketches

A sketch describes a value by names alone.  Building it draws numbers for its nodes and looks
up the declarations it names, as they are at that moment.  What is built has no place in any
source.
-/
import HaloScript.Program.Basic
import HaloScript.Program.Copy

namespace HaloScript

/-- A value described by names. -/
inductive Sketch where
  /-- No content at all. -/
  | blank
  | atom (text : Text)
  /-- A reference to a declaration. -/
  | reference (name : Text)
  /-- A call of a built-in function or an unknown name; it may be a clause of a `cond`. -/
  | call (function : Text) (clause : Bool) (args : List Sketch)
  /-- A call of a script of the program. -/
  | callScript (name : Text) (args : List Sketch)
deriving Inhabited

namespace Sketch

/-- The leaf that refers to a declaration; a name that is not declared stays a word. -/
def leafOf (table : Table) (name : Text) : Leaf :=
  match table.get? name with
  | some d => d.leaf
  | none => .atom name

/-- What a call of a script calls; a name that is no script stays a word. -/
def calleeOf (table : Table) (name : Text) : Callee :=
  match table.get? name with
  | some (.script s) => .script s
  | _ => .word name none

mutual

def size : Sketch → Nat
  | .blank | .atom _ | .reference _ => 1
  | .call _ _ args | .callScript _ args => 1 + sizeAll args

def sizeAll : List Sketch → Nat
  | [] => 0
  | s :: rest => size s + sizeAll rest

end

mutual

def build (table : Table) : Sketch → Supply Value
  | .blank => Value.newLeaf .blank
  | .atom t => Value.newLeaf (.atom t)
  | .reference name => Value.newLeaf (leafOf table name)
  | .call function clause args => do
    let args ← buildAll table args
    Value.newCall (.word function none) clause args
  | .callScript name args => do
    let args ← buildAll table args
    Value.newCall (calleeOf table name) false args

def buildAll (table : Table) : List Sketch → Supply (List Value)
  | [] => return []
  | s :: rest => do
    let v ← build table s
    let rest ← buildAll table rest
    return v :: rest

end

end Sketch

namespace Program

def supply {α : Type} (p : Program) (x : Supply α) : α × Program :=
  let (a, nextNode) := x.run p.nextNode
  (a, { p with nextNode })

def addGlobal (p : Program) (name type : Text) (isConst : Bool) (value : Sketch) : Program :=
  let (value, p) := p.supply (value.build p.table)
  p.declare (.global { id := p.newGlobalId name, type, isConst, value })

def addScript (p : Program) (name : Text) (kind : ScriptKind) (returnType : Text)
    (params : List Param) (body : List Sketch) : Program :=
  let (body, p) := p.supply (Sketch.buildAll p.table body)
  p.declare (.script { id := p.newScriptId name, kind, returnType, params, body })

def substituteIn (p : Program) (m : Substitution) (name : Text) : Program :=
  match p.find? name with
  | some (.global g) =>
    let (value, p) := p.supply (g.value.substitute m)
    p.setGlobal { g with value }
  | some (.script s) =>
    let (body, p) := p.supply (Value.substituteAll m s.body)
    p.setScript { s with body }
  | none => p

end Program

end HaloScript
