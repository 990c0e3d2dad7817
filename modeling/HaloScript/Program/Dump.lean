/-
# Dumps

A program as one S-expression in which every text is quoted and every reference is marked, such
as `(call "+" (atom "1") (global-ref "x"))`.
-/
import HaloScript.Program.Basic
import HaloScript.Text.Quoted

namespace HaloScript

def Leaf.dump : Leaf → Text
  | .blank => "(unknown)"
  | .atom t => "(atom " ++ t.quote ++ ")"
  | .global g => "(global-ref " ++ g.name.quote ++ ")"
  | .script s => "(script-ref " ++ s.name.quote ++ ")"

def Head.dump (h : Head) : Text :=
  if h.clause then "(clause"
  else match h.callee with
    | .word t _ => "(call " ++ t.quote
    | .script s => "(call-script " ++ s.name.quote

namespace Value

mutual

def dump : Value → Text
  | .leaf _ l => l.dump
  | .call _ h args => h.dump ++ dumpAll args ++ ")"

def dumpAll : List Value → Text
  | [] => []
  | v :: rest => " " ++ dump v ++ dumpAll rest

end

end Value

def Global.dump (g : Global) : Text :=
  (if g.isConst then "(constglobal " else "(global ") ++ g.type.quote ++ " " ++ g.id.name.quote ++
    " " ++ g.value.dump ++ ")"

def Param.dump (p : Param) : Text := "(param " ++ p.type.quote ++ " " ++ p.name.quote ++ ")"

def Script.dump (s : Script) : Text :=
  "(script " ++ s.kind.name.quote ++
    (if s.kind.hasReturnType then " " ++ s.returnType.quote else []) ++
    " " ++ s.id.name.quote ++
    (if s.isMacro then " (params" ++ s.params.flatMap (fun p => Text.space :: p.dump) ++ ")"
      else []) ++
    Value.dumpAll s.body ++ ")"

def Declaration.dump : Declaration → Text
  | .global g => g.dump
  | .script s => s.dump

def Program.dump (p : Program) : Text :=
  "(ast" ++ p.declarations.flatMap (fun d => Text.space :: d.dump) ++ ")"

end HaloScript
