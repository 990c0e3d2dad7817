/-
# Programs

A program keeps every declaration that was ever made, by serial number, and a table that says
which of them are declared now.  References reach declarations that the table no longer lists,
so those are kept as well.
-/
import HaloScript.Program.Table

namespace HaloScript

/-- A program under compilation. -/
structure Program where
  globals : Array Global := #[]
  scripts : Array Script := #[]
  table : Table := {}
  /-- The number the next value or call gets. -/
  nextNode : NodeId := 0
deriving Inhabited

/-- A declaration with its content. -/
inductive Declaration where
  | global (g : Global)
  | script (s : Script)
deriving Inhabited

namespace Declaration

def id : Declaration → DeclId
  | .global g => .global g.id
  | .script s => .script s.id

def span : Declaration → Option Span
  | .global g => g.span
  | .script s => s.span

def nodeCount : Declaration → Nat
  | .global g => g.nodeCount
  | .script s => s.nodeCount

end Declaration

namespace Program

def global? (p : Program) (g : GlobalId) : Option Global := p.globals[g.serial]?

def script? (p : Program) (s : ScriptId) : Option Script := p.scripts[s.serial]?

def declaration? (p : Program) : DeclId → Option Declaration
  | .global g => (p.global? g).map .global
  | .script s => (p.script? s).map .script

def declarations (p : Program) : List Declaration := p.table.entries.filterMap p.declaration?

def find? (p : Program) (name : Text) : Option Declaration :=
  (p.table.get? name).bind p.declaration?

def allIds (p : Program) : List DeclId :=
  p.globals.toList.map (.global ·.id) ++ p.scripts.toList.map (.script ·.id)

def nodeCount (p : Program) : Nat :=
  p.declarations.foldr (fun d n => d.nodeCount + n) 0

def setGlobal (p : Program) (g : Global) : Program :=
  { p with globals := p.globals.setIfInBounds g.id.serial g }

def setScript (p : Program) (s : Script) : Program :=
  { p with scripts := p.scripts.setIfInBounds s.id.serial s }

def newGlobalId (p : Program) (name : Text) : GlobalId := ⟨name, p.globals.size⟩

def newScriptId (p : Program) (name : Text) : ScriptId := ⟨name, p.scripts.size⟩

/-- Keeps a new declaration and enters it into the table. -/
def declare (p : Program) : Declaration → Program
  | .global g => { p with globals := p.globals.push g, table := p.table.add (.global g.id) }
  | .script s => { p with scripts := p.scripts.push s, table := p.table.add (.script s.id) }

def remove (p : Program) (name : Text) : Program := { p with table := p.table.remove name }

end Program

end HaloScript
