/-
# Constant globals

A constant global whose value can be written as a literal leaves the program, and every
reference to it is replaced by the literal.  Any other constant global becomes an ordinary
global, with a warning.
-/
import HaloScript.Lowering.Env

namespace HaloScript

namespace ConstGlobals

def literal? (view : View) (id : GlobalId) (e : Env) : Option Text × Env :=
  let (value, e) := e.eval (view.scene.evalGlobal id)
  (value.bind Const.literal?, e)

def downgraded (name : Text) : Text :=
  "unable to evaluate constglobal " ++ name.quote ++
    " at compile time, downgrading to global, was this intentional?"

def judge (view : View) (g : Global) (e : Env) : Verdict × Env :=
  if g.isConst then
    match literal? view g.id e with
    | (some _, e) => (⟨true, true⟩, e)
    | (none, e) => (⟨false, false⟩, e.tellNode .warning g.span (downgraded g.id.name))
  else (⟨false, false⟩, e)

/-- A reference to a constant global, replaced by its literal. -/
def inline (view : View) (v : Value) (e : Env) : Value × Env :=
  match v with
  | .leaf t (.global id) =>
    if (view.scene.global? id).any Global.isConst then
      match literal? view id e with
      | (some text, e) => (.leaf t (.atom text), e)
      | (none, e) => (.leaf t (.global id), e)
    else (.leaf t (.global id), e)
  | v => (v, e)

theorem judge_potential (view : View) (g : Global) (e : Env) :
    (judge view g e).2.potential = e.potential := by
  unfold judge
  split
  · split
    · next hx => exact congrArg (fun r => r.2.potential) hx.symm
    · next hx => exact congrArg (fun r => r.2.potential) hx.symm
  · rfl

theorem inline_potential (view : View) (v : Value) (e : Env) :
    (inline view v e).2.potential = e.potential ∧ (inline view v e).1.nodeCount = v.nodeCount := by
  unfold inline
  split
  · split
    · split
      · next hx => exact ⟨congrArg (fun r => r.2.potential) hx.symm, rfl⟩
      · next hx => exact ⟨congrArg (fun r => r.2.potential) hx.symm, rfl⟩
    · exact ⟨rfl, rfl⟩
  · exact ⟨rfl, rfl⟩

def hooks : Hooks Env :=
  { Env.idle with
    onGlobal := judge
    onValue := inline
    onGlobal_le := fun view g e => Nat.le_of_eq (judge_potential view g e)
    onValue_lt := fun view v e =>
      .inr ⟨Nat.le_of_eq (inline_potential view v e).1,
        Nat.le_of_eq (inline_potential view v e).2⟩ }

end ConstGlobals

end HaloScript
