/-
# Selecting lowering steps

Four steps turn a program into one that the game can run.  Whatever is selected runs in the
order macros, loops, constant globals, folding.
-/
import HaloScript.Text.Quoted
import HaloScript.Text.Similar

namespace HaloScript

/-- A lowering step. -/
inductive Pass where
  | macros
  | loops
  | constGlobals
  | folding
deriving DecidableEq, Inhabited

namespace Pass

/-- The steps in the order in which they run. -/
def all : List Pass := [.macros, .loops, .constGlobals, .folding]

def name : Pass → Text
  | .macros => "macro"
  | .loops => "loop"
  | .constGlobals => "constant_global"
  | .folding => "constant_eval"

def bit : Pass → UInt8
  | .macros => 1
  | .loops => 2
  | .constGlobals => 4
  | .folding => 8

end Pass

/-- A selection of lowering steps. -/
structure PassSet where
  bits : UInt8 := 0
deriving DecidableEq, Inhabited

namespace PassSet

def has (s t : PassSet) : Bool := s.bits &&& t.bits == t.bits

def single (p : Pass) : PassSet := ⟨p.bit⟩

def union (s t : PassSet) : PassSet := ⟨s.bits ||| t.bits⟩

def none : PassSet := ⟨0⟩

def minimal : PassSet := ⟨7⟩

def full : PassSet := ⟨15⟩

def toList (s : PassSet) : List Pass := Pass.all.filter fun p => s.has (single p)

def name (s : PassSet) : Text :=
  if s.toList.isEmpty then "none" else Text.join "," (s.toList.map Pass.name)

/-- What names can be used to select steps, in the order in which they are suggested. -/
def knownNames : List Text :=
  ("minimal" : Text) :: ("full" : Text) :: ("none" : Text) :: Pass.all.map Pass.name

/-- A name that selects nothing. -/
structure UnknownPass where
  name : Text
  suggestion : Option Text
deriving DecidableEq

def UnknownPass.message (u : UnknownPass) : Text :=
  "unknown pass " ++ u.name.quote ++
    (match u.suggestion with
      | some s => ", did you mean " ++ s.quote ++ "?"
      | Option.none => [])

def ofName (name : Text) : Except UnknownPass PassSet :=
  if name == ("minimal" : Text) then .ok minimal
  else if name == ("full" : Text) || name == ("all" : Text) then .ok full
  else if name == ("none" : Text) || name.isEmpty then .ok none
  else match Pass.all.find? (·.name == name) with
    | some p => .ok (single p)
    | Option.none => .error ⟨name, name.suggestion? knownNames⟩

/-- The selection several names stand for together; blanks around a name do not matter. -/
def ofNames : List Text → Except UnknownPass PassSet
  | [] => .ok none
  | name :: rest => do
    let s ← ofName name.trimSpace
    return s.union (← ofNames rest)

end PassSet

end HaloScript
