/-
# Evaluating an expression

An expression on its own is evaluated as the value of a constant global, after declarations
that it may refer to.
-/
import HaloScript.Compiler

namespace HaloScript

/-- The outcome of evaluating an expression. -/
structure Evaluation where
  report : Report
  /-- The global that holds the expression, if the source has no errors. -/
  global : Option Global
  /-- Its value, if it is a constant. -/
  value : Option Const

namespace Evaluation

def source (declarations expression : Text) : Text :=
  declarations ++ "(constglobal unknown eval " ++ expression ++ ")"

def ok (e : Evaluation) : Bool := !e.report.hasErrors

end Evaluation

def evaluate (lib : Library) (declarations expression : Text) : Evaluation :=
  let c := compileSource lib { passes := .none } "eval.hsc"
    (Evaluation.source declarations expression)
  match c.ok, c.program.find? "eval" with
  | true, some (.global g) => ⟨c.report, some g, ((c.program.scene.evalGlobal g.id).run {}).1⟩
  | _, _ => ⟨c.report, none, none⟩

end HaloScript
