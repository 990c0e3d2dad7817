/-
# What lowering steps keep

Two conditions on the state of a lowering step recur.  What is remembered comes from the
program (`Env.Recalls`), and as long as no error has been reported nothing has been set aside
and the budget is not exhausted (`Env.Clear`): a step that gives up on a call says so.

Errors are never taken back, so a step fails for good (`Env.Failed`).
-/
import HaloScript.Lowering.Env
import HaloScript.Lowering.Pipeline
import HaloScript.Proofs.Constant.Results

namespace HaloScript

namespace Env

variable {e e' : Env}

/-! ## 1. Failure -/

/-- An error has been reported. -/
def Failed (e : Env) : Prop := e.report.hasErrors = true

/-! ## 2. Remembered results -/

/-- Every remembered result meets a condition on leaves. -/
def Recalls (leafOk : Leaf → Prop) (e : Env) : Prop := e.memo.All (Const.MeetsLeaf leafOk)

variable {leafOk : Leaf → Prop}

@[simp] theorem recalls_mark (id : NodeId) : (e.mark id).Recalls leafOk ↔ e.Recalls leafOk :=
  Iff.rfl

@[simp] theorem recalls_tellNode (level : Level) (span : Option Span) (content : Text) :
    (e.tellNode level span content).Recalls leafOk ↔ e.Recalls leafOk := Iff.rfl

theorem Recalls.eval (he : e.Recalls leafOk) {x : Eval (Option Const)}
    (hx : x.Yields (Const.MeetsLeaf leafOk)) :
    (∀ c ∈ (e.eval x).1, Const.MeetsLeaf leafOk c) ∧ (e.eval x).2.Recalls leafOk := hx e.memo he

/-! ## 3. Nothing given up -/

/-- Nothing has been set aside and the budget is not exhausted. -/
structure Clear (e : Env) : Prop where
  marks : ∀ id, e.isMarked id = false
  budget : e.budget.exhausted = false

theorem clear_fresh (nextNode : NodeId) (report : Report) (limit : Int64) :
    (Env.fresh nextNode report limit).Clear where
  marks _ := Std.HashSet.contains_empty
  budget := rfl

end Env

/-! ## 4. Spending -/

def Macros.limitExceeded (limit : Int64) : Text :=
  "expansion limit of " ++ Text.ofInt limit.toInt ++ " exceeded; is a macro expanding into itself?"

/-- **What spending can do.** -/
theorem Env.spend_cases (e : Env) (n : Int64) (span : Option Span) :
    (e.budget.exhausted = true ∧ e.spend n span = (false, e)) ∨
    (e.budget.exhausted = false ∧ e.budget.covers n = true ∧ e.spend n span =
      (true, { e with budget := { e.budget with left := e.budget.left - n } })) ∨
    (e.budget.exhausted = false ∧ e.budget.covers n = false ∧ e.spend n span =
      (false, { e.tellNode .error span (Macros.limitExceeded e.budget.limit) with
        budget := { e.budget with exhausted := true } })) := by
  unfold Env.spend
  cases hx : e.budget.exhausted with
  | true => exact .inl ⟨rfl, rfl⟩
  | false =>
    cases hcovers : e.budget.covers n with
    | true => exact .inr (.inl ⟨rfl, rfl, rfl⟩)
    | false => exact .inr (.inr ⟨rfl, rfl, rfl⟩)

/-! ## 5. Steps in turn -/

/-- If a list of steps reports no error, its first step reports none, and the others go on from
there. -/
theorem Lowered.run_cons_ok {limit : Int64} {p : Program} {report : Report} {pass : Pass}
    {rest : List Pass}
    (hok : (Lowered.run limit p report (pass :: rest)).report.hasErrors = false) :
    ¬ (pass.run p (.fresh p.nextNode report limit)).2.Failed ∧
      (Lowered.run limit (pass.run p (.fresh p.nextNode report limit)).1
        (pass.run p (.fresh p.nextNode report limit)).2.report rest).report.hasErrors = false ∧
      (Lowered.run limit p report (pass :: rest)).program =
        (Lowered.run limit (pass.run p (.fresh p.nextNode report limit)).1
          (pass.run p (.fresh p.nextNode report limit)).2.report rest).program := by
  revert hok
  rw [Lowered.run]
  dsimp only
  split
  · next he => exact fun hok => absurd hok (by simp [he])
  · next he => exact fun hok => ⟨he, hok, rfl⟩

end HaloScript
