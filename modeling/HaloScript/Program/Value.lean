/-
# Values

The body of a program is made of values.  A value is a leaf (a word or the name of a
declaration) or a call of a function with values as arguments.

Every value and every call carries a number of its own.  The numbers say nothing about the
program; they are what results of evaluation are remembered under, so that two equal values at
different places are told apart, and a value whose content is exchanged stays the same value.

A declaration is referred to by its name and its serial number.  The name alone would not do:
a declaration may be replaced by another of the same name while references to the old one
remain.
-/
import HaloScript.Source.Span

namespace HaloScript

abbrev NodeId := Nat

/-- A global, as references name it. -/
structure GlobalId where
  name : Text
  serial : Nat
deriving DecidableEq, Inhabited

/-- A script, as references name it. -/
structure ScriptId where
  name : Text
  serial : Nat
deriving DecidableEq, Inhabited

instance : Hashable GlobalId := ⟨fun g => hash g.serial⟩

/-- A value without parts. -/
inductive Leaf where
  /-- No content at all. -/
  | blank
  /-- A word or a literal. -/
  | atom (text : Text)
  /-- A reference to a global. -/
  | global (id : GlobalId)
  /-- A reference to a script. -/
  | script (id : ScriptId)
deriving DecidableEq, Inhabited

def Leaf.text? : Leaf → Option Text
  | .blank => none
  | .atom t => some t
  | .global g => some g.name
  | .script s => some s.name

/-- What a call calls. -/
inductive Callee where
  /-- A built-in function or an unknown name, with the place where it is written. -/
  | word (text : Text) (span : Option Span)
  /-- A script of the program. -/
  | script (id : ScriptId)
deriving DecidableEq, Inhabited

def Callee.name : Callee → Text
  | .word t _ => t
  | .script s => s.name

/-- What distinguishes one value from another: its number, and where it was written. -/
structure Tag where
  id : NodeId
  span : Option Span
deriving DecidableEq, Inhabited

/-- A call without its arguments. -/
structure Head where
  id : NodeId
  span : Option Span
  callee : Callee
  /-- The call is a clause of a `cond`: all elements of the clause are its arguments, and it is
  written without a function name. -/
  clause : Bool
deriving DecidableEq, Inhabited

namespace Head

/-- Whether the head is that of an ordinary call of the built-in or unknown function `name`. -/
def isCallOf (h : Head) (name : Text) : Bool :=
  match h.callee with
  | .word t _ => !h.clause && t == name
  | .script _ => false

end Head

/-- A value of the program. -/
inductive Value where
  | leaf (tag : Tag) (leaf : Leaf)
  | call (tag : Tag) (head : Head) (args : List Value)
deriving Inhabited

namespace Value

def tag : Value → Tag
  | .leaf t _ => t
  | .call t _ _ => t

def id (v : Value) : NodeId := v.tag.id

def span (v : Value) : Option Span := v.tag.span

def withTag (t : Tag) : Value → Value
  | .leaf _ l => .leaf t l
  | .call _ h args => .call t h args

def text? : Value → Option Text
  | .leaf _ l => l.text?
  | .call _ _ _ => none

mutual

def nodeCount : Value → Nat
  | .leaf _ _ => 1
  | .call _ _ args => 1 + nodeCountAll args

def nodeCountAll : List Value → Nat
  | [] => 0
  | v :: rest => nodeCount v + nodeCountAll rest

end

end Value

end HaloScript
