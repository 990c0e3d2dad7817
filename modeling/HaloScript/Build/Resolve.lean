/-
# Linking names

Once all declarations are known, the names in the newly added ones are linked to what they
denote: a word in value position becomes a reference, and a call of a declared script a call of
that script.  Unknown names stay words, parameters of a macro are never linked inside it, and
the words of a `cond` clause are not function names.  A global called like a function is
reported, and the call stays as it is.
-/
import HaloScript.Program.Basic
import HaloScript.Report.Message

namespace HaloScript

/-- What names mean where they are linked. -/
abbrev Scope := Text → Option DeclId

/-- The names of a table, less the parameters of a macro. -/
def Table.scope (t : Table) (params : List Param) : Scope := fun name =>
  if params.any (·.name == name) then none else t.get? name

def Report.tellCalledGlobal (r : Report) (span : Option Span) (g : GlobalId) : Report :=
  r.tellAt .error (span.getD default)
    ("global " ++ g.name.quote ++ " is being used as a function!")

def Head.resolve (scope : Scope) (h : Head) : StateM Report Head :=
  match h.callee with
  | .script _ => return h
  | .word t s =>
    if h.clause then return h
    else match scope t with
      | none => return h
      | some (.script id) => return { h with callee := .script id }
      | some (.global g) => do
        modify (·.tellCalledGlobal (s.or h.span) g)
        return h

def Leaf.resolve (scope : Scope) : Leaf → Leaf
  | .atom t =>
    match scope t with
    | some d => d.leaf
    | none => .atom t
  | l => l

namespace Value

mutual

/-- A value, linked; complaints come in reading order. -/
def resolve (scope : Scope) : Value → StateM Report Value
  | .leaf t l => return .leaf t (l.resolve scope)
  | .call t h args => do
    let h ← h.resolve scope
    let args ← resolveAll scope args
    return .call t h args

def resolveAll (scope : Scope) : List Value → StateM Report (List Value)
  | [] => return []
  | v :: rest => do
    let v ← resolve scope v
    let rest ← resolveAll scope rest
    return v :: rest

end

end Value

namespace Program

def resolve (p : Program) (d : DeclId) : StateM Report Program :=
  match p.declaration? d with
  | none => return p
  | some (.global g) => do
    let value ← g.value.resolve (p.table.scope [])
    return p.setGlobal { g with value }
  | some (.script s) => do
    let params := if s.isMacro then s.params else []
    let body ← Value.resolveAll (p.table.scope params) s.body
    return p.setScript { s with body }

def resolveAll (p : Program) : List DeclId → StateM Report Program
  | [] => return p
  | d :: rest => do
    let p ← p.resolve d
    p.resolveAll rest

end Program

end HaloScript
