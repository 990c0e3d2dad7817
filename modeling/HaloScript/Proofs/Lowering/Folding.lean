/-
# What folding does

Folding replaces calls by literals or by their own arguments (`Folding.Reduces`), and a statement by
an empty `begin` or by nothing (`Folding.Offered`).  So what it leaves meets whatever conditions the
program meets, if the literals do.  On the way it evaluates calls and conditions and sets marks, and
this is all it does to the state (`Folding.Keeps`).
-/
import HaloScript.Lowering.Folding
import HaloScript.Proofs.Lowering.Env
import HaloScript.Proofs.Walk.Enclosed

namespace HaloScript

open List

namespace Folding

variable {view : View} {v w : Value} {args : List Value} {e : Env}

/-! ## 1. The state -/

/-- The state stays calm when values of a kind are evaluated. -/
structure Keeps (view : View) (kind : Value → Prop) (calm : Env → Prop) : Prop where
  args : ∀ {v}, kind v → ∀ w ∈ v.args, kind w
  call : ∀ {t h args e}, kind (.call t h args) → calm e → calm (literal? view h args e).2
  value : ∀ {v e}, kind v → calm e → calm (e.eval (view.scene.evalValue v)).2

namespace Keeps

variable {kind : Value → Prop} {calm : Env → Prop} (hk : Keeps view kind calm)

include hk

theorem condition (h : Head) (hargs : ∀ w ∈ args, kind w) (he : calm e) :
    calm (condition? view h args e).2 := by
  unfold condition?
  split
  · split
    · exact hk.value (hargs _ mem_cons_self) he
    · exact he
  · exact he

theorem simplify (h : Head) (hargs : ∀ w ∈ args, kind w) (he : calm e) :
    calm (simplify? view h args e).2 := by
  have hc := hk.condition h hargs he
  unfold simplify?
  split
  · exact he
  · split
    · next hx => rw [hx] at hc; exact hc
    · next hx => rw [hx] at hc; exact hc
    · next hx => rw [hx] at hc; exact hc

theorem simplifyValue (v : Value) (hargs : ∀ w ∈ v.args, kind w) (he : calm e) :
    calm (simplifyValue view v e).2 := by
  fun_induction Folding.simplifyValue view v e with
  | case1 => exact he
  | case2 e t h args e' hx | case3 e t h args w e' hx =>
    have hs : calm (simplify? view h args e).2 := hk.simplify h hargs he
    rwa [hx] at hs
  | case4 e t h args w e' hx hm ih =>
    have hs : calm (simplify? view h args e).2 := hk.simplify h hargs he
    rw [hx] at hs
    have hw := hk.args (hargs w ((simplify?_spec hx).2 w rfl))
    refine ih ?_ hs
    cases w <;> exact hw

theorem foldValue (hv : kind v) (he : calm e) : calm (foldValue view v e).2 := by
  unfold Folding.foldValue
  split
  · exact he
  · have hl := hk.call hv he
    split
    · next hx =>
      rw [hx] at hl
      split
      · exact hl
      · exact hl
    · next hx =>
      rw [hx] at hl
      exact hk.simplifyValue _ (hk.args hv) hl

theorem foldConditional (place : Place) (t : Tag) (h : Head) (hargs : ∀ w ∈ args, kind w)
    (he : calm e) : calm (foldConditional view place t h args e).2 := by
  have hc := hk.condition h hargs he
  unfold Folding.foldConditional
  split
  · next hx =>
    rw [hx] at hc
    split
    · split
      · exact hc
      · exact hc
    · exact hc
  · next hx =>
    rw [hx] at hc
    exact hc

theorem foldElement (hmark : ∀ {e}, calm e → calm (e.mark v.id)) (place : Place) (hv : kind v)
    (he : calm e) : calm (foldElement view place v e).2 := by
  unfold Folding.foldElement
  split
  · exact he
  · have hl := hk.call hv he
    split
    · split
      · split
        · next hx => rw [hx] at hl; exact hl
        · next hx =>
          rw [hx] at hl
          exact hk.foldConditional place _ _ (hk.args hv) (hmark hl)
      · exact hk.foldConditional place _ _ (hk.args hv) he
    · exact he

end Keeps

/-! ## 2. The edits -/

/-- What becomes of a value that is simplified: it stays, or one of its arguments takes its place
and is simplified in turn. -/
inductive Reduces : Value → Value → Prop
  | refl (v : Value) : Reduces v v
  | branch {t : Tag} {h : Head} {args : List Value} {w v : Value} (hw : w ∈ args)
      (hv : Reduces (w.withTag t) v) : Reduces (.call t h args) v

/-- What becomes of an element that is offered. -/
inductive Offered : Value → Offer → Prop
  | keep (v : Value) : Offered v (.keep v [])
  | drop (v : Value) : Offered v (.drop [])
  | empty (t : Tag) (h : Head) (args : List Value) :
      Offered (.call t h args) (.keep (.call t h.becomeBegin []) [])

theorem simplifyValue_reduces (view : View) (v : Value) (e : Env) :
    Reduces v (simplifyValue view v e).1 := by
  fun_induction simplifyValue view v e with
  | case1 | case2 | case3 => exact .refl _
  | case4 e t h args w e' hx hm ih => exact .branch ((simplify?_spec hx).2 w rfl) ih

theorem foldValue_reduces (view : View) (v : Value) (e : Env) : Reduces v (foldValue view v e).1 ∨
    ∃ t h args text, v = .call t h args ∧ (literal? view h args e).1 = some text ∧
      (foldValue view v e).1 = .leaf t (.atom text) := by
  unfold foldValue
  split
  · exact .inl (.refl _)
  · next t h args =>
    split
    · next text _ hx =>
      split
      · exact .inl (.refl _)
      · exact .inr ⟨t, h, args, text, rfl, by rw [hx], rfl⟩
    · exact .inl (simplifyValue_reduces view _ _)

theorem foldConditional_offered (view : View) (place : Place) (t : Tag) (h : Head)
    (args : List Value) (e : Env) :
    Offered (.call t h args) (foldConditional view place t h args e).1 := by
  unfold foldConditional
  split
  · split
    · split
      · exact .empty t h args
      · exact .drop _
    · exact .keep _
  · exact .keep _

theorem foldElement_offered (view : View) (place : Place) (v : Value) (e : Env) :
    Offered v (foldElement view place v e).1 := by
  unfold foldElement
  split
  · exact .keep _
  · split
    · split
      · split
        · exact .drop _
        · exact foldConditional_offered view place _ _ _ _
      · exact foldConditional_offered view place _ _ _ _
    · exact .keep _

theorem Reduces.tag_eq (h : Reduces v w) : w.tag = v.tag := by
  induction h with
  | refl => rfl
  | @branch t h args w v hw _ ih => cases w <;> exact ih

theorem foldValue_tag (view : View) (v : Value) (e : Env) : (foldValue view v e).1.tag = v.tag := by
  rcases foldValue_reduces view v e with hred | ⟨t, h, args, text, rfl, -, heq⟩
  · exact hred.tag_eq
  · rw [heq]
    rfl

/-! ## 3. Conditions on values -/

section

variable {leafOk : Leaf → Prop} {callOk : CallCondition}

theorem Reduces.meets (h : Reduces v w) (hv : v.Meets leafOk callOk) : w.Meets leafOk callOk := by
  induction h with
  | refl => exact hv
  | branch hw _ ih =>
    exact ih ((Value.meets_withTag _ _).mpr (((Value.meets_call _ _ _).mp hv).2 _ hw))

theorem foldValue_meets (hv : v.Meets leafOk callOk)
    (hliteral : ∀ t h args text, v = .call t h args → (literal? view h args e).1 = some text →
      leafOk (.atom text)) : (foldValue view v e).1.Meets leafOk callOk := by
  rcases foldValue_reduces view v e with hred | ⟨t, h, args, text, hcall, htext, heq⟩
  · exact hred.meets hv
  · rw [heq]
    exact (Value.meets_leaf _ _).mpr (hliteral t h args text hcall htext)

theorem foldElement_meets (hbegin : callOk (.word "begin" none) false) (place : Place)
    (hv : v.Meets leafOk callOk) :
    ∀ w ∈ (foldElement view place v e).1.values, w.Meets leafOk callOk := by
  have hoffered := foldElement_offered view place v e
  generalize (foldElement view place v e).1 = o at hoffered
  cases hoffered with
  | keep => exact forall_mem_singleton.mpr hv
  | drop => exact fun w hw => absurd hw not_mem_nil
  | empty t h => exact forall_mem_singleton.mpr ((Value.meets_call _ _ _).mpr ⟨hbegin, by simp⟩)

theorem hooks_keep (hatom : ∀ t, leafOk (.atom t)) (hbegin : callOk (.word "begin" none) false) :
    hooks.Keep leafOk callOk :=
  ⟨fun _ place _ _ hv => foldElement_meets hbegin place hv,
    fun _ _ _ hv => foldValue_meets hv fun _ _ _ text _ _ => hatom text⟩

section

variable (hw : Leaf.Writable leafOk) (hview : view.scene.LeavesMeet leafOk)

include hw hview

/-- **Literals come from what is remembered and from the globals in sight.** -/
theorem literal?_meets (he : e.Recalls leafOk) {t : Tag} {h : Head}
    (hv : (Value.call t h args).Meets leafOk callOk) {text : Text}
    (htext : (literal? view h args e).1 = some text) : leafOk (.atom text) := by
  have hargs := ((Value.meets_call _ _ _).mp hv).2
  obtain ⟨c, hmem, hlit⟩ := Option.bind_eq_some_iff.mp htext
  exact Const.literal?_meets hw
    ((he.eval (Scene.evalCall_yields hw.script hview h hargs)).1 c hmem) hlit

theorem keeps_recalls : Keeps view (Value.Meets leafOk callOk) (Env.Recalls leafOk) where
  args {v} hv := by
    cases v with
    | leaf => exact fun w hw => absurd hw not_mem_nil
    | call => exact ((Value.meets_call _ _ _).mp hv).2
  call hv he :=
    (he.eval (Scene.evalCall_yields hw.script hview _ ((Value.meets_call _ _ _).mp hv).2)).2
  value hv he := (he.eval (Scene.evalValue_yields hw.script hview hv)).2

end

end

end Folding

end HaloScript
