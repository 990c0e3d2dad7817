/-
# Evaluation

An expression is constant if its value follows from literals and constant globals.  Every
result is remembered under the node it belongs to, so that a node is evaluated once.  A node
is marked as having no value while it is being evaluated: what depends on itself is not
constant.

A constant global is evaluated through its current value.  Each global that is entered is
marked first, so a chain of globals is no longer than the number of globals there are; that
number bounds the recursion.
-/
import Std.Data.HashMap
import HaloScript.Constant.Builtin
import HaloScript.Program.Basic

namespace HaloScript

/-- What a result is remembered under. -/
inductive MemoKey where
  | global (id : GlobalId)
  | value (id : NodeId)
  | call (id : NodeId)
deriving DecidableEq, Hashable

abbrev Memo := Std.HashMap MemoKey (Option Const)

abbrev Eval := StateM Memo

namespace Eval

/-- The remembered result for a key, or the result of a computation, which is then
remembered. -/
def memo (key : MemoKey) (compute : Eval (Option Const)) : Eval (Option Const) := do
  match (← get)[key]? with
  | some result => return result
  | none =>
    modify (·.insert key none)
    let result ← compute
    modify (·.insert key result)
    return result

/-- The value of a leaf; `follow` evaluates globals. -/
def leaf (follow : GlobalId → Eval (Option Const)) : Leaf → Eval (Option Const)
  | .blank => return none
  | .atom t => return some (.atom t)
  | .global g => follow g
  | .script s => return some (.atom s.name)

/-- The value of a call from its arguments.  Calls of scripts are left for the game, and a
clause has a meaning only inside its `cond`. -/
def call (h : Head) (args : List (Eval (Option Const))) : Eval (Option Const) :=
  memo (.call h.id) <|
    match h.callee with
    | .script _ => return none
    | .word name _ =>
      if h.clause then return none
      else match Builtin.ofName? name with
        | none => return none
        | some f => f.apply args

mutual

/-- The value of an expression; `follow` evaluates globals. -/
def value (follow : GlobalId → Eval (Option Const)) : Value → Eval (Option Const)
  | .leaf t l => memo (.value t.id) (leaf follow l)
  | .call t h args => memo (.value t.id) (call h (delayed follow args))

/-- The evaluations of several expressions, none of them begun. -/
def delayed (follow : GlobalId → Eval (Option Const)) : List Value → List (Eval (Option Const))
  | [] => []
  | v :: rest => value follow v :: delayed follow rest

end

end Eval

/-- The globals as evaluation sees them. -/
structure Scene where
  global? : GlobalId → Option Global
  /-- How many globals there are. -/
  size : Nat

namespace Scene

/-- The value of a global, through at most `depth` globals.  Only constant globals have one. -/
def follow (scene : Scene) : Nat → GlobalId → Eval (Option Const)
  | 0, _ => return none
  | depth + 1, id =>
    match scene.global? id with
    | none => return none
    | some g =>
      if g.isConst then Eval.memo (.global id) (Eval.value (scene.follow depth) g.value)
      else return none

def evalGlobal (scene : Scene) (id : GlobalId) : Eval (Option Const) :=
  scene.follow (scene.size + 1) id

def evalValue (scene : Scene) (v : Value) : Eval (Option Const) :=
  Eval.value (scene.follow (scene.size + 1)) v

def evalCall (scene : Scene) (h : Head) (args : List Value) : Eval (Option Const) :=
  Eval.call h (Eval.delayed (scene.follow (scene.size + 1)) args)

end Scene

def Program.scene (p : Program) : Scene := ⟨p.global?, p.globals.size⟩

end HaloScript
