/-
# Sessions

A session keeps a program, a report and the memory of evaluation from one operation to the
next.  The memory is not cleared when the program changes: a result that was once remembered
for a node stays until the memory is forgotten as a whole.
-/
import HaloScript.Build.Import
import HaloScript.Lowering.Pipeline

namespace HaloScript

/-- A program with what has been said and found out about it. -/
structure Session where
  program : Program := {}
  report : Report := {}
  memo : Memo := {}

namespace Session

def load (s : Session) (lib : Library) (entry : Entry) : Bool × Session :=
  let loaded := s.program.load s.report lib entry
  (loaded.ok, { s with program := loaded.program, report := loaded.report })

/-- Runs the selected steps, up to the first that leaves an error in the report. -/
def lower (s : Session) (set : PassSet) (limit : Int64) : Session :=
  let lowered := s.program.lower s.report set limit
  { s with program := lowered.program, report := lowered.report }

/-- Runs steps in the given order, whatever they report.  The steps share a budget and what
they remember. -/
def runPasses (s : Session) (passes : List Pass) (limit : Int64) : Session :=
  let start := (s.program, Env.fresh s.program.nextNode s.report limit)
  let (program, e) := passes.foldl (fun acc pass => pass.run acc.1 acc.2) start
  { s with program, report := e.report }

def remove (s : Session) (name : Text) : Bool × Session :=
  let (found, table) := s.program.table.delete name
  (found, { s with program := { s.program with table } })

def eval {α : Type} (s : Session) (x : Eval α) : α × Session :=
  let (a, memo) := x.run s.memo
  (a, { s with memo })

def evalGlobal (s : Session) (id : GlobalId) : Option Const × Session :=
  s.eval (s.program.scene.evalGlobal id)

/-- The values of expressions, one after another. -/
def evalValues (s : Session) (vs : List Value) : List (Option Const) × Session :=
  s.eval (vs.mapM s.program.scene.evalValue)

def remembers (s : Session) (key : MemoKey) : Bool := s.memo.contains key

def forget (s : Session) : Session := { s with memo := {} }

end Session

end HaloScript
