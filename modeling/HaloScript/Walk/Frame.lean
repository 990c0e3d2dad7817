/-
# Frames

A walk through a program edits it in place.  Where the walk stands is described by a stack of
frames: each frame is a list of values of which a part has been walked and the rest has not.
The innermost frame comes first; below the frame of a call's arguments lies the frame of the
list in which the call stands.

Putting the frames back together gives the value of a global that is being walked, as it is at
that moment.  Evaluation needs this: a global may depend on itself, and what it depends on may
already have been edited.
-/
import HaloScript.Constant.Eval

namespace HaloScript

/-- What a list of values belongs to. -/
inductive Owner where
  /-- The value of a global, as a list of one. -/
  | global (id : GlobalId)
  /-- The body of a script. -/
  | script (id : ScriptId)
  /-- The arguments of a call, which is the content of the value with this tag. -/
  | call (tag : Tag) (head : Head)

namespace Owner

/-- Whether a call in the list can be replaced by several values: in the body of a script and
among the arguments of `begin`. -/
def takesStatements : Owner → Bool
  | .global _ => false
  | .script _ => true
  | .call _ h => h.isCallOf "begin"

def isBody : Owner → Bool
  | .script _ => true
  | _ => false

end Owner

/-- A list that is being walked. -/
structure Frame where
  owner : Owner
  /-- The values walked, the last one first. -/
  done : List Value
  /-- The values still to be walked. -/
  todo : List Value

namespace Frame

/-- The list as it is now, with a value between the two parts if one is being walked. -/
def items (f : Frame) (focus : Option Value) : List Value :=
  f.done.reverse ++ focus.toList ++ f.todo

/-- The value of a global that is being walked; `focus` is the call whose arguments were walked
in the frame before. -/
def globalValue? (id : GlobalId) : Option Value → List Frame → Option Value
  | _, [] => none
  | focus, f :: rest =>
    match f.owner with
    | .call tag head => globalValue? id (some (.call tag head (f.items focus))) rest
    | .global g => if g = id then (f.items focus).head? else globalValue? id none rest
    | .script _ => globalValue? id none rest

end Frame

/-- The program as a walk shows it to those who edit it. -/
structure View where
  scene : Scene
  script? : ScriptId → Option Script

namespace View

def during (p : Program) (frames : List Frame) : View :=
  { scene :=
      { global? := fun id => (p.global? id).map fun g =>
          { g with value := (Frame.globalValue? id none frames).getD g.value }
        size := p.globals.size }
    script? := p.script? }

end View

end HaloScript
