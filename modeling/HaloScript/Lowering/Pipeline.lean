/-
# Running lowering steps

Each step walks the whole program.  Between steps nothing is remembered, so that no result of
evaluation outlives a change of the program.  After a step that reports an error no other step
runs.
-/
import HaloScript.Lowering.ConstGlobals
import HaloScript.Lowering.Folding
import HaloScript.Lowering.Loops
import HaloScript.Lowering.Macros
import HaloScript.Lowering.PassSet
import HaloScript.Report.Log

namespace HaloScript

def Pass.hooks : Pass → Hooks Env
  | .macros => Macros.hooks
  | .loops => Loops.hooks
  | .constGlobals => ConstGlobals.hooks
  | .folding => Folding.hooks

def Pass.run (pass : Pass) (p : Program) (e : Env) : Program × Env :=
  let (p, e) := p.walk pass.hooks true { e with nextNode := p.nextNode, marks := {} }
  ({ p with nextNode := e.nextNode }, e)

/-- What running steps leaves behind. -/
structure Lowered where
  program : Program
  report : Report
  log : List LogEntry

namespace Lowered

/-- Runs the steps of a list, up to the first that leaves an error in the report. -/
def run (limit : Int64) (p : Program) (report : Report) : List Pass → Lowered
  | [] => ⟨p, report, []⟩
  | pass :: rest =>
    let before := p.nodeCount
    let (p, e) := pass.run p (.fresh p.nextNode report limit)
    let finished : LogEntry :=
      ⟨"pass finished", [("pass", pass.name), ("nodes_before", Text.ofNat before),
        ("nodes_after", Text.ofNat p.nodeCount)]⟩
    if e.report.hasErrors then
      ⟨p, e.report, [finished, ⟨"stopping after errors", [("pass", pass.name)]⟩]⟩
    else
      let lowered := run limit p e.report rest
      { lowered with log := finished :: lowered.log }

end Lowered

def Program.lower (p : Program) (report : Report) (set : PassSet) (limit : Int64) : Lowered :=
  Lowered.run limit p report set.toList

end HaloScript
