/-
# Declarations

A program declares globals and scripts.  A global has a type and a value, and may be constant.
A script has a type that says when it runs, and a body; scripts of some types return a value,
and macros take parameters.  Value types are not checked, so any word is one.
-/
import HaloScript.Program.Value

namespace HaloScript

/-- The type of a script.  A type outside the seven known ones keeps its number. -/
inductive ScriptKind where
  | startup
  | continuous
  | dormant
  | static
  | stub
  | commandScript
  | macroScript
  | other (code : Int)
deriving DecidableEq, Inhabited

namespace ScriptKind

/-- The type that stands for an unknown word. -/
def invalid : ScriptKind := .other 7

def ofCode : Int → ScriptKind
  | 0 => .startup
  | 1 => .continuous
  | 2 => .dormant
  | 3 => .static
  | 4 => .stub
  | 5 => .commandScript
  | 6 => .macroScript
  | n => .other n

def code : ScriptKind → Int
  | .startup => 0
  | .continuous => 1
  | .dormant => 2
  | .static => 3
  | .stub => 4
  | .commandScript => 5
  | .macroScript => 6
  | .other n => n

def name : ScriptKind → Text
  | .startup => "startup"
  | .continuous => "continuous"
  | .dormant => "dormant"
  | .static => "static"
  | .stub => "stub"
  | .commandScript => "command_script"
  | .macroScript => "macro"
  | .other n => "invalid(" ++ Text.ofInt n ++ ")"

def known : List ScriptKind :=
  [.startup, .continuous, .dormant, .static, .stub, .commandScript, .macroScript]

def ofName (word : Text) : ScriptKind := (known.find? (·.name == word)).getD invalid

def hasReturnType (k : ScriptKind) : Bool :=
  k == .static || k == .stub || k == .macroScript

end ScriptKind

/-- A global. -/
structure Global where
  id : GlobalId
  /-- The form it was built from. -/
  span : Option Span := none
  /-- The name was written in quotes. -/
  nameQuoted : Bool := false
  type : Text
  isConst : Bool := false
  value : Value
deriving Inhabited

/-- A parameter of a macro. -/
structure Param where
  type : Text
  name : Text
deriving DecidableEq, Inhabited

/-- A script. -/
structure Script where
  id : ScriptId
  span : Option Span := none
  nameQuoted : Bool := false
  kind : ScriptKind
  /-- Empty unless the type of the script has one. -/
  returnType : Text := []
  /-- Empty except for macros. -/
  params : List Param := []
  body : List Value
deriving Inhabited

namespace Global

def nodeCount (g : Global) : Nat := 1 + g.value.nodeCount

end Global

namespace Script

def nodeCount (s : Script) : Nat := 1 + Value.nodeCountAll s.body

def isMacro (s : Script) : Bool := s.kind == .macroScript

def isParam (s : Script) (name : Text) : Bool := s.params.any (·.name == name)

end Script

/-- A declaration, as references name it. -/
inductive DeclId where
  | global (id : GlobalId)
  | script (id : ScriptId)
deriving DecidableEq, Inhabited

namespace DeclId

def name : DeclId → Text
  | .global g => g.name
  | .script s => s.name

def leaf : DeclId → Leaf
  | .global g => .global g
  | .script s => .script s

end DeclId

end HaloScript
