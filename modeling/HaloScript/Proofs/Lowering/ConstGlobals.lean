/-
# What folding constant globals puts in

A literal that takes the place of a reference is a word of the program, a number or a truth
value, and nothing else is put in.
-/
import HaloScript.Lowering.ConstGlobals
import HaloScript.Proofs.Lowering.Env

namespace HaloScript

namespace ConstGlobals

variable {leafOk : Leaf → Prop} {callOk : CallCondition} {view : View} {e : Env}

/-- The literal of a global meets the condition on leaves. -/
theorem literal?_meets (hw : Leaf.Writable leafOk) (hview : view.scene.LeavesMeet leafOk)
    {id : GlobalId}
    (hid : ∀ g, view.scene.global? id = some g → g.value.Meets leafOk fun _ _ => True)
    (he : e.Recalls leafOk) :
    (literal? view id e).2.Recalls leafOk ∧
      ∀ t, (literal? view id e).1 = some t → leafOk (.atom t) := by
  obtain ⟨hc, he'⟩ := he.eval (Scene.evalGlobal_yields hw.script hview hid)
  refine ⟨he', fun t ht => ?_⟩
  obtain ⟨c, hmem, hlit⟩ := Option.bind_eq_some_iff.mp ht
  exact Const.literal?_meets hw (hc c hmem) hlit

theorem judge_recalls (hw : Leaf.Writable leafOk) (hview : view.scene.LeavesMeet leafOk)
    (g : Global)
    (hg : ∀ g', view.scene.global? g.id = some g' → g'.value.Meets leafOk fun _ _ => True)
    (he : e.Recalls leafOk) : (judge view g e).2.Recalls leafOk := by
  have hlit := (literal?_meets hw hview hg he).1
  unfold judge
  split
  · split
    · next hx => rw [hx] at hlit; exact hlit
    · next hx => rw [hx] at hlit; exact (Env.recalls_tellNode _ _ _).mpr hlit
  · exact he

/-- A value keeps its calls, and its leaves still meet the condition. -/
theorem inline_meets (hw : Leaf.Writable leafOk) (hview : view.scene.LeavesMeet leafOk) (v : Value)
    (he : e.Recalls leafOk) (hv : v.Meets leafOk callOk) :
    (inline view v e).2.Recalls leafOk ∧ (inline view v e).1.Meets leafOk callOk := by
  unfold inline
  split
  · next t id =>
    have hleaf := (Value.meets_leaf _ _).mp hv
    have hlit := literal?_meets hw hview (hview id · hleaf) he
    split
    · split
      · next text _ hx =>
        rw [hx] at hlit
        exact ⟨hlit.1, (Value.meets_leaf _ _).mpr (hlit.2 text rfl)⟩
      · next hx => rw [hx] at hlit; exact ⟨hlit.1, hv⟩
    · exact ⟨he, hv⟩
  · exact ⟨he, hv⟩

end ConstGlobals

end HaloScript
