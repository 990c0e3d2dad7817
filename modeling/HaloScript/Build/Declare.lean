/-
# From forms to declarations

A top-level form declares a global or a script, or imports a file.  This module reads the
declarations; names in them are not looked up yet.

Inside a `cond` every argument that is a form is a clause: a call of `if` whose arguments are
all elements of the form.  In the body of a script only the last element may be an atom.
-/
import HaloScript.Form.Basic
import HaloScript.Program.Basic
import HaloScript.Program.Copy

namespace HaloScript

/-- Building draws numbers for nodes and stops at the first fault. -/
abbrev Build := StateT NodeId (Except SourceError)

namespace Build

def fail {α : Type} (f : Fault) (span : Span) : Build α := throw (f.on span)

def fresh : Build NodeId := fun n => .ok (n, n + 1)

/-- The text of a form that has to be an atom, and whether it is quoted. -/
def expectAtom (expected : Expectation) : Form → Build (Text × Bool)
  | .atom s q => return (Form.atomText s q, q)
  | .list s _ => fail (.notAtom expected) s

/-- The first of the remaining elements, which has to be an atom, and the rest. -/
def nextAtom (expected : Expectation) (whole : Span) : List Form → Build ((Text × Bool) × List Form)
  | [] => fail (.endOfForm expected) whole
  | f :: rest => do
    let a ← expectAtom expected f
    return (a, rest)

/-! ## 1. Values and calls -/

mutual

/-- A value.  `inCond` says that it is an argument of a `cond`. -/
def value (inCond : Bool) : Form → Build Value
  | .atom s q => do
    let id ← fresh
    return .leaf ⟨id, some s⟩ (.atom (Form.atomText s q))
  | .list s items => do
    let id ← fresh
    let callId ← fresh
    match items with
    | [] => fail .emptyForm s
    | first :: rest =>
      if inCond then
        let args ← values false (first :: rest)
        return .call ⟨id, some s⟩ ⟨callId, some s, .word "if" none, true⟩ args
      else
        let (name, _) ← expectAtom .functionName first
        let args ← values (name == ("cond" : Text)) rest
        return .call ⟨id, some s⟩ ⟨callId, some s, .word name (some first.span), false⟩ args

def values (inCond : Bool) : List Form → Build (List Value)
  | [] => return []
  | f :: rest => do
    let v ← value inCond f
    let vs ← values inCond rest
    return v :: vs

end

def body : List Form → Build (List Value)
  | [] => return []
  | [f] => do return [← value false f]
  | f :: rest =>
    match f with
    | .atom s _ => fail .atomAsCall s
    | .list _ _ => do
      let v ← value false f
      let vs ← body rest
      return v :: vs

/-! ## 2. Declarations -/

def global (id : Text → GlobalId) (isConst : Bool) (span : Span) (items : List Form) :
    Build Global :=
  match items with
  | [_, type, name, init] => do
    let (type, _) ← expectAtom .globalType type
    let (name, nameQuoted) ← expectAtom .globalName name
    let value ← value false init
    return { id := id name, span := some span, nameQuoted, type, isConst, value }
  | _ => fail .malformedGlobal span

/-- The elements of a parameter list, pairs in brackets opened. -/
def flattenParams : List Form → Build (List Form)
  | [] => return []
  | .list s items :: rest =>
    if items.length = 2 then do return items ++ (← flattenParams rest)
    else fail .malformedParameters s
  | f :: rest => do return f :: (← flattenParams rest)

def pairParams : List Form → Build (List Param)
  | type :: name :: rest => do
    let (type, _) ← expectAtom .parameterType type
    let (name, _) ← expectAtom .parameterName name
    return ⟨type, name⟩ :: (← pairParams rest)
  | _ => return []

/-- The parameters of a macro: types and names in turn, with or without brackets around each
pair. -/
def params (span : Span) (items : List Form) : Build (List Param) := do
  let flat ← flattenParams items
  if flat.length % 2 = 0 then pairParams flat else fail .malformedParameters span

/-- The parameter list, where the type of the script asks for one, and the rest. -/
def nextParams (kind : ScriptKind) (whole : Span) (items : List Form) :
    Build (List Param × List Form) :=
  if kind = .macroScript then
    match items with
    | [] => fail (.endOfForm .parameters) whole
    | .atom s _ :: _ => fail (.notForm .parameters) s
    | .list s params' :: rest => do return (← params s params', rest)
  else return ([], items)

def script (id : Text → ScriptId) (span : Span) (items : List Form) : Build Script := do
  if items.length < 3 then fail .shortScript span
  let typeSpan := (items.headD default).span
  let ((word, _), items) ← nextAtom .scriptType span items
  let kind := ScriptKind.ofName word
  if kind = .invalid then fail (.unknownScriptType word) typeSpan
  let (returnType, items) ←
    if kind.hasReturnType then do
      let ((t, _), items) ← nextAtom .returnType span items
      pure (t, items)
    else pure ([], items)
  let ((name, nameQuoted), items) ← nextAtom .scriptName span items
  let (params, items) ← nextParams kind span items
  let body ← body items
  return { id := id name, span := some span, nameQuoted, kind, returnType, params, body }

/-- The declaration a top-level form makes; an import makes none. -/
def declaration (p : Program) (f : Form) : Build (Option Declaration) :=
  match f.items with
  | [] => fail .emptyForm f.span
  | first :: rest => do
    let (word, _) ← expectAtom .keyword first
    if word == ("global" : Text) then
      return some (.global (← global p.newGlobalId false f.span f.items))
    else if word == ("constglobal" : Text) then
      return some (.global (← global p.newGlobalId true f.span f.items))
    else if word == ("script" : Text) then
      return some (.script (← script p.newScriptId f.span rest))
    else if word == ("import" : Text) then return none
    else fail (.unknownKeyword word) first.span

end Build

/-! ## 3. Entering declarations into the table -/

/-- What becomes of a new declaration. -/
inductive Admission where
  /-- It is entered, in the place of an older one if there is one. -/
  | enter
  /-- It adds nothing to the declaration that is there. -/
  | ignore
deriving DecidableEq

namespace Admission

/-- Whether a new declaration may stand beside the one its name has.  Only a stub and a static
script of the same return type share a name, and the static script is the one that counts. -/
def decide (old new : Declaration) : Except Fault Admission :=
  match old, new with
  | .script o, .script n =>
    if o.returnType ≠ n.returnType then .error .returnTypesDiffer
    else if n.kind = .stub ∧ o.kind = .static then .ok .ignore
    else if n.kind = .static ∧ o.kind = .stub then .ok .enter
    else .error .notOverloadable
  | _, new => .error (.nameTaken new.id.name)

end Admission

/-- A program while forms are turned into declarations. -/
structure Drafting where
  program : Program
  /-- The declarations entered so far, the last one first. -/
  added : List DeclId := []

namespace Drafting

def enter? (d : Drafting) (new : Declaration) : Except SourceError Drafting :=
  let entered : Drafting := ⟨d.program.declare new, new.id :: d.added⟩
  match d.program.find? new.id.name with
  | none => .ok entered
  | some old =>
    match Admission.decide old new with
    | .ok .enter => .ok entered
    | .ok .ignore => .ok d
    | .error f => .error (f.on (new.span.getD default))

def form (d : Drafting) (f : Form) : Except SourceError Drafting :=
  match (Build.declaration d.program f).run d.program.nextNode with
  | .error e => .error e
  | .ok (none, _) => .ok d
  | .ok (some new, next) => { d with program := { d.program with nextNode := next } }.enter? new

/-- All top-level forms, up to the first fault.  What was declared before it stays. -/
def forms (d : Drafting) : List Form → Drafting × Option SourceError
  | [] => (d, none)
  | f :: rest =>
    match d.form f with
    | .ok d' => d'.forms rest
    | .error e => (d, some e)

end Drafting

end HaloScript
