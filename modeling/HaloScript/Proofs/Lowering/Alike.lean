/-
# Values that unroll alike

Loop unrolling replaces the counter of a loop by text, wherever it occurs in the body, and what it
leaves shows neither the counter nor how the body was written.  So two loops may differ in both:
they are alike if their bounds are, and if their bodies are in every step, once the counter has been
replaced (`Loops.Alike`).  Evaluation, which does not look into loops, cannot tell like values apart
(`Loops.Alike.value_eq`), and unrolling makes like values of like values (`Loops.hooks_abreast`).
Where no loop is left, like values are equal (`Loops.Alike.eq`).
-/
import HaloScript.Proofs.Lowering.Unrolling
import HaloScript.Proofs.Walk.Abreast

namespace HaloScript

open List Value

open List (Forall₂)

namespace Value

mutual

theorem copy_copy (v : Value) (n m : NodeId) : (v.copy n).1.copy m = v.copy m := by
  match v with
  | .leaf t l => rfl
  | .call t h args => rw [copy_call_run, copy_call_run, copyAll_copyAll args, copy_call_run]

theorem copyAll_copyAll (vs : List Value) (n m : NodeId) :
    copyAll (copyAll vs n).1 m = copyAll vs m := by
  match vs with
  | [] => rfl
  | v :: rest =>
    rw [copyAll_cons_run, copyAll_cons_run, copy_copy v, copyAll_copyAll rest, copyAll_cons_run]

end

theorem length_copyAll (vs : List Value) (n : NodeId) : (copyAll vs n).1.length = vs.length := by
  induction vs generalizing n with
  | nil => rfl
  | cons v rest ih => rw [copyAll_cons_run, length_cons, length_cons, ih]

mutual

theorem nodeCount_fill (ρ : Leaf → Option Int) (v : Value) :
    (v.fill ρ).nodeCount = v.nodeCount := by
  match v with
  | .leaf t l =>
    rw [fill]
    cases ρ l <;> rfl
  | .call t h args => rw [fill, nodeCount, nodeCount, nodeCountAll_fillAll ρ args]

theorem nodeCountAll_fillAll (ρ : Leaf → Option Int) (vs : List Value) :
    nodeCountAll (fillAll ρ vs) = nodeCountAll vs := by
  match vs with
  | [] => rfl
  | v :: rest =>
    rw [fillAll, nodeCountAll, nodeCountAll, nodeCount_fill ρ v, nodeCountAll_fillAll ρ rest]

end

end Value

namespace Loops

/-! ## 1. The relation -/

mutual

/-- Values that unroll alike.  Loops with too few arguments cannot be unrolled, and only have to
draw as many numbers when they are copied. -/
inductive Alike : Value → Value → Prop
  | leaf (t : Tag) (l : Leaf) : Alike (.leaf t l) (.leaf t l)
  | call (t : Tag) {h : Head} (hh : isLoop h = false) {args args' : List Value}
    (hargs : AlikeAll args args') : Alike (.call t h args) (.call t h args')
  | short (t : Tag) {h : Head} (hh : isLoop h = true) {args args' : List Value}
    (hargs : args.length < 3) (hargs' : args'.length < 3)
    (hdraw : ∀ n, (copyAll args' n).2 = (copyAll args n).2) :
    Alike (.call t h args) (.call t h args')
  | loop (t : Tag) {h : Head} (hh : isLoop h = true) {c c' low low' high high' : Value}
    {body body' : List Value} (hdraw : ∀ n, (c'.copy n).2 = (c.copy n).2) (hlow : Alike low low')
    (hhigh : Alike high high')
    (hbody : ∀ i, AlikeAll (fillAll (counting c i) body)
      (fillAll (counting c' i) body')) :
    Alike (.call t h (c :: low :: high :: body)) (.call t h (c' :: low' :: high' :: body'))

inductive AlikeAll : List Value → List Value → Prop
  | nil : AlikeAll [] []
  | cons {v v' : Value} {rest rest' : List Value} (hv : Alike v v') (hrest : AlikeAll rest rest') :
    AlikeAll (v :: rest) (v' :: rest')

end

theorem alikeAll_iff {vs vs' : List Value} : AlikeAll vs vs' ↔ Forall₂ Alike vs vs' := by
  constructor
  · intro h
    induction vs generalizing vs' with
    | nil =>
      cases h
      exact .nil
    | cons v rest ih =>
      cases h with
      | cons hv hrest => exact .cons hv (ih hrest)
  · intro h
    induction h with
    | nil => exact .nil
    | cons hv _ ih => exact .cons hv ih

theorem alikeAll_map {f g : Value → Value} {vs : List Value} (h : ∀ v ∈ vs, Alike (f v) (g v)) :
    AlikeAll (vs.map f) (vs.map g) :=
  alikeAll_iff.mpr (forall₂_map_left_iff.mpr (forall₂_map_right_iff.mpr
    (forall₂_same.mpr h)))

theorem AlikeAll.append {vs vs' ws ws' : List Value} (hvs : AlikeAll vs vs')
    (hws : AlikeAll ws ws') :
    AlikeAll (vs ++ ws) (vs' ++ ws') :=
  alikeAll_iff.mpr (rel_append (alikeAll_iff.mp hvs) (alikeAll_iff.mp hws))

theorem Alike.span_eq {v v' : Value} (h : Alike v v') : v'.span = v.span := by
  cases h <;> rfl

theorem Alike.args {t : Tag} {h : Head} {args args' : List Value}
    (hv : Alike (.call t h args) (.call t h args')) (hh : isLoop h = false) :
    AlikeAll args args' := by
  cases hv with
  | call _ _ hargs => exact hargs
  | short _ hloop | loop _ hloop => exact absurd (hh.symm.trans hloop) Bool.false_ne_true

theorem Alike.shape {v v' : Value} (h : Alike v v') :
    (∃ t l, v = .leaf t l ∧ v' = .leaf t l) ∨
      ∃ t head args args', v = .call t head args ∧ v' = .call t head args' := by
  cases h with
  | leaf t l => exact .inl ⟨t, l, rfl, rfl⟩
  | call t | short t | loop t => exact .inr ⟨t, _, _, _, rfl, rfl⟩

mutual

theorem Alike.copy_snd {v v' : Value} (h : Alike v v') (n : NodeId) :
    (v'.copy n).2 = (v.copy n).2 := by
  match h with
  | .leaf t l => rfl
  | .call t hh hargs => exact hargs.copyAll_snd _
  | .short t hh hargs hargs' hdraw => exact hdraw _
  | .loop t hh hdraw hlow hhigh hbody =>
    have hstep := (hbody 0).copyAll_snd
    simp only [copyAll_fillAll] at hstep
    simp only [copy_call_run, copyAll_cons_run, hdraw, hlow.copy_snd, hhigh.copy_snd,
      hstep]

theorem AlikeAll.copyAll_snd {vs vs' : List Value} (h : AlikeAll vs vs') (n : NodeId) :
    (copyAll vs' n).2 = (copyAll vs n).2 := by
  match h with
  | .nil => rfl
  | .cons hv hrest =>
    rw [copyAll_cons_run, copyAll_cons_run, hv.copy_snd]
    exact hrest.copyAll_snd _

end

/-- The call is no loop, or has too few arguments for one. -/
def Plain (h : Head) (args : List Value) : Prop := isLoop h = false ∨ args.length < 3

theorem plain_or_loop (h : Head) (args : List Value) :
    Plain h args ∨ isLoop h = true ∧ ∃ c low high body, args = c :: low :: high :: body := by
  cases hh : isLoop h with
  | false => exact .inl (.inl hh)
  | true =>
    match args with
    | [] | [_] | [_, _] => exact .inl (.inr (by simp))
    | c :: low :: high :: body => exact .inr ⟨rfl, c, low, high, body, rfl⟩

theorem Alike.of_args (t : Tag) {h : Head} {args args' : List Value} (hplain : Plain h args)
    (hargs : AlikeAll args args') : Alike (.call t h args) (.call t h args') := by
  cases hh : isLoop h with
  | false => exact .call t hh hargs
  | true =>
    have hshort : args.length < 3 := hplain.resolve_left (Bool.not_eq_false _ ▸ hh)
    have hlength : args.length = args'.length := (alikeAll_iff.mp hargs).length_eq
    exact .short t hh hshort (hlength ▸ hshort) hargs.copyAll_snd

mutual

theorem alike_refl (v : Value) : Alike v v := by
  match v with
  | .leaf t l => exact .leaf t l
  | .call t h args =>
    obtain hplain | ⟨hh, c, low, high, body, hargs⟩ := plain_or_loop h args
    · exact .of_args t hplain (alikeAll_refl args)
    · rw [hargs]
      exact .loop t hh (fun _ => rfl) (alike_refl low) (alike_refl high) fun i =>
        alikeAll_refl (fillAll (counting c i) body)
termination_by 2 * v.nodeCount
decreasing_by
  · simp only [nodeCount]
    omega
  all_goals
    simp only [nodeCount, hargs, nodeCountAll, nodeCountAll_fillAll]
    omega

theorem alikeAll_refl (vs : List Value) : AlikeAll vs vs := by
  match vs with
  | [] => exact .nil
  | v :: rest => exact .cons (alike_refl v) (alikeAll_refl rest)
termination_by 2 * nodeCountAll vs + 1
decreasing_by
  all_goals
    have hpos := Machine.nodeCount_pos v
    simp only [nodeCountAll]
    omega

end

theorem counting_copy (c : Value) (n : NodeId) (i : Int) :
    counting (c.copy n).1 i = counting c i := by
  cases c <;> rfl

mutual

/-- **Copies of like values are alike.** -/
theorem Alike.copy {v v' : Value} (h : Alike v v') (n : NodeId) :
    Alike (v.copy n).1 (v'.copy n).1 := by
  match h with
  | .leaf t l => exact .leaf _ l
  | .call t hh hargs =>
    rw [copy_call_run, copy_call_run]
    refine .call _ ?_ (hargs.copyAll _)
    exact hh
  | .short t hh hargs hargs' hdraw =>
    rw [copy_call_run, copy_call_run]
    refine .short _ ?_ ?_ ?_ fun m => ?_
    · exact hh
    · rwa [length_copyAll]
    · rwa [length_copyAll]
    · rw [copyAll_copyAll, copyAll_copyAll, hdraw]
  | .loop t hh hdraw hlow hhigh hbody =>
    simp only [copy_call_run, copyAll_cons_run, hdraw, hlow.copy_snd, hhigh.copy_snd]
    refine .loop _ ?_ (fun m => ?_) (hlow.copy _) (hhigh.copy _) fun i => ?_
    · exact hh
    · rw [copy_copy, copy_copy, hdraw]
    · rw [counting_copy, counting_copy]
      have hstep := fun m => (hbody i).copyAll m
      simp only [copyAll_fillAll] at hstep
      exact hstep _

theorem AlikeAll.copyAll {vs vs' : List Value} (h : AlikeAll vs vs') (n : NodeId) :
    AlikeAll (copyAll vs n).1 (copyAll vs' n).1 := by
  match h with
  | .nil => exact .nil
  | .cons hv hrest =>
    rw [copyAll_cons_run, copyAll_cons_run, hv.copy_snd]
    exact .cons (hv.copy n) (hrest.copyAll _)

end

mutual

/-- **Where no loop is left, like values are equal.** -/
theorem Alike.eq {v v' : Value} (h : Alike v v') (hv : v.Meets (fun _ => True) Callee.NotLoop) :
    v' = v := by
  match h with
  | .leaf t l => rfl
  | .call t hh hargs => rw [hargs.eq ((meets_call _ _ _).mp hv).2]
  | .short t hh .. | .loop t hh .. =>
    have hno := (Head.notLoop_iff _).mp ((meets_call _ _ _).mp hv).1
    exact absurd (hno.symm.trans hh) Bool.false_ne_true

theorem AlikeAll.eq {vs vs' : List Value} (h : AlikeAll vs vs')
    (hvs : ∀ v ∈ vs, v.Meets (fun _ => True) Callee.NotLoop) : vs' = vs := by
  match h with
  | .nil => rfl
  | .cons hv hrest =>
    obtain ⟨hfirst, hlater⟩ := forall_mem_cons.mp hvs
    rw [hv.eq hfirst, hrest.eq hlater]

end

/-- The relation as walks use it: they go into calls that are no loops. -/
def pairing : Pairing where
  rel := Alike
  opens h := isLoop h = false
  leaf := .leaf
  call hh hargs := .call _ hh (alikeAll_iff.mpr hargs)

/-! ## 2. Evaluation -/

theorem call_loop {h : Head} (hh : isLoop h = true) (args args' : List (Eval (Option Const))) :
    Eval.call h args' = Eval.call h args := by
  obtain ⟨id, span, callee, clause⟩ := h
  cases callee with
  | script => rfl
  | word name =>
    have hname : name = "loop" := by
      simp only [isLoop, Head.isCallOf, Bool.and_eq_true, beq_iff_eq] at hh
      exact hh.2
    subst hname
    rfl

mutual

/-- **Evaluation does not tell like values apart.** -/
theorem Alike.value_eq {v v' : Value} (h : Alike v v') (follow : GlobalId → Eval (Option Const)) :
    Eval.value follow v' = Eval.value follow v := by
  match h with
  | .leaf t l => rfl
  | .call t hh hargs => rw [Eval.value, Eval.value, hargs.delayed_eq]
  | .short t hh .. | .loop t hh .. => rw [Eval.value, Eval.value, call_loop hh]

theorem AlikeAll.delayed_eq {vs vs' : List Value} (h : AlikeAll vs vs')
    (follow : GlobalId → Eval (Option Const)) :
    Eval.delayed follow vs' = Eval.delayed follow vs := by
  match h with
  | .nil => rfl
  | .cons hv hrest => rw [Eval.delayed, Eval.delayed, hv.value_eq, hrest.delayed_eq]

end

section

variable {view view' : View} (hview : view.Beside pairing view')

include hview

theorem follow_eq (depth : Nat) : view'.scene.follow depth = view.scene.follow depth := by
  induction depth with
  | zero => rfl
  | succ depth ih =>
    funext id
    have hglobal := hview.global? id
    rw [Scene.follow, Scene.follow]
    generalize view.scene.global? id = x at hglobal
    generalize view'.scene.global? id = y at hglobal
    cases hglobal with
    | none => rfl
    | @some g g' hg =>
      have hconst : g'.isConst = g.isConst := by rw [hg.same]
      have hvalue : Alike g.value g'.value := hg.value
      simp only [hconst, ih, hvalue.value_eq]

theorem evalValue_eq {v v' : Value} (hv : Alike v v') :
    view'.scene.evalValue v' = view.scene.evalValue v := by
  rw [Scene.evalValue, Scene.evalValue, hview.size, follow_eq hview, hv.value_eq]

/-! ## 3. Unrolling -/

theorem bound?_alike (name : Text) {v v' : Value} (hv : Alike v v') (e : Env) :
    bound? view' name v' e = bound? view name v e := by
  rw [bound?, bound?, evalValue_eq hview hv, hv.span_eq]

end

/-- Like loops have like copies. -/
theorem copies_alike {c c' : Value} {body body' : List Value}
    (hbody : ∀ i, AlikeAll (fillAll (counting c i) body)
      (fillAll (counting c' i) body'))
    (start stop : Int64) (n : NodeId) :
    AlikeAll (copies c body start stop n).1 (copies c' body' start stop n).1 ∧
      (copies c' body' start stop n).2 = (copies c body start stop n).2 := by
  rw [copies_eq, copies_eq]
  induction counts start stop generalizing n with
  | nil => exact ⟨.nil, rfl⟩
  | cons i rest ih =>
    have hnext : (copyFor c' body' i n).2 = (copyFor c body i n).2 := by
      rw [copyFor_eq, copyFor_eq, (hbody i.toInt).copyAll_snd]
    have hcopy : AlikeAll (copyFor c body i n).1 (copyFor c' body' i n).1 := by
      rw [copyFor_eq, copyFor_eq]
      exact (hbody i.toInt).copyAll _
    obtain ⟨hrest, hlast⟩ := ih (copyFor c body i n).2
    rw [mapM_cons, mapM_cons]
    constructor
    · refine hcopy.append ?_
      show AlikeAll _ ((rest.mapM (copyFor c' body') (copyFor c' body' i n).2).1.flatten)
      rw [hnext]
      exact hrest
    · show ((rest.mapM (copyFor c' body') (copyFor c' body' i n).2).2) = _
      rw [hnext]
      exact hlast

theorem tryUnroll_short (view : View) {h : Head} {args : List Value} (hargs : args.length < 3)
    (e : Env) : tryUnroll view h args e =
      (none, e.tellNode .error h.span <|
        "invalid loop expression, expecting (loop <counter> <start value> <end value> " ++
          "[expressions])") := by
  match args with
  | [] | [_] | [_, _] => rfl
  | _ :: _ :: _ :: body => exact absurd hargs (by simp)

section

variable {view view' : View} (hview : view.Beside pairing view')

include hview

/-- Like loops become like lists of values, at the same price and with the same messages. -/
theorem tryUnroll_alike {t : Tag} {h : Head} (hh : isLoop h = true) {args args' : List Value}
    (hv : Alike (.call t h args) (.call t h args')) (e : Env) :
    Option.Rel AlikeAll (tryUnroll view h args e).1 (tryUnroll view' h args' e).1 ∧
      (tryUnroll view' h args' e).2 = (tryUnroll view h args e).2 := by
  cases hv with
  | call _ hno => exact absurd (hno.symm.trans hh) Bool.false_ne_true
  | short _ _ hargs hargs' =>
    rw [tryUnroll_short view hargs, tryUnroll_short view' hargs']
    exact ⟨.none, rfl⟩
  | @loop _ _ _ c c' low low' high high' body body' _ hlow hhigh hbody =>
    have hlength := (alikeAll_iff.mp (hbody 0)).length_eq
    simp only [fillAll_eq_map, length_map] at hlength
    simp only [tryUnroll, bound?_alike hview _ hlow, bound?_alike hview _ hhigh, ← hlength]
    split
    · exact ⟨.none, rfl⟩
    · split
      · exact ⟨.none, rfl⟩
      · split
        · exact ⟨.some .nil, rfl⟩
        · split
          · exact ⟨.none, rfl⟩
          · next start _ _ _ stop _ _ _ _ e₃ _ =>
            obtain ⟨hcopies, hnext⟩ := copies_alike hbody start stop e₃.nextNode
            exact ⟨.some hcopies, congrArg (fun n => { e₃ with nextNode := n }) hnext⟩

/-- Loops that are alike unroll alike, from the same state into the same state. -/
theorem unroll?_alike {t : Tag} {h : Head} {args args' : List Value}
    (hv : Alike (.call t h args) (.call t h args')) (e : Env) :
    ∃ r r' e', unroll? view h args e = (r, e') ∧ unroll? view' h args' e = (r', e') ∧
      Option.Rel AlikeAll r r' := by
  cases hh : isLoop h with
  | false =>
    refine ⟨none, none, e, ?_, ?_, .none⟩ <;> simp [unroll?, hh]
  | true =>
    obtain ⟨hrel, hsame⟩ := tryUnroll_alike hview hh hv e
    simp only [unroll?, hh, Bool.not_true, Bool.false_or]
    split
    · exact ⟨none, none, e, rfl, rfl, .none⟩
    · generalize tryUnroll view h args e = x at hrel hsame
      generalize tryUnroll view' h args' e = y at hrel hsame
      obtain ⟨result, e₁⟩ := x
      obtain ⟨result', e₂⟩ := y
      obtain rfl : e₂ = e₁ := hsame
      cases hrel with
      | none => exact ⟨none, none, _, rfl, rfl, .none⟩
      | some hvs => exact ⟨_, _, _, rfl, rfl, .some hvs⟩

theorem unrollElement_alike (place : Place) {v v' : Value} (hv : Alike v v') (e : Env) :
    (unrollElement view place v e).1.Beside pairing (unrollElement view' place v' e).1 ∧
      (unrollElement view' place v' e).2 = (unrollElement view place v e).2 := by
  obtain ⟨t, l, rfl, rfl⟩ | ⟨t, h, args, args', rfl, rfl⟩ := hv.shape
  · exact ⟨.keep hv .nil, rfl⟩
  · obtain ⟨r, r', e', hr, hr', hrel⟩ := unroll?_alike hview hv e
    simp only [unrollElement, hr, hr']
    split
    · cases hrel with
      | none => exact ⟨.keep hv .nil, rfl⟩
      | @some vs vs' hvs =>
        have hempty : vs'.isEmpty = vs.isEmpty := isEmpty_eq_of_rel (alikeAll_iff.mp hvs)
        simp only [hempty]
        split
        · exact ⟨.keep (alike_refl _) .nil, rfl⟩
        · exact ⟨.drop (alikeAll_iff.mp hvs), rfl⟩
    · exact ⟨.keep hv .nil, rfl⟩

theorem unrollValue_alike {v v' : Value} (hv : Alike v v') (e : Env) :
    Alike (unrollValue view v e).1 (unrollValue view' v' e).1 ∧
      (unrollValue view' v' e).2 = (unrollValue view v e).2 := by
  obtain ⟨t, l, rfl, rfl⟩ | ⟨t, h, args, args', rfl, rfl⟩ := hv.shape
  · exact ⟨hv, rfl⟩
  · obtain ⟨r, r', e', hr, hr', hrel⟩ := unroll?_alike hview hv e
    simp only [unrollValue, hr, hr']
    cases hrel with
    | none => exact ⟨hv, rfl⟩
    | some hvs => exact ⟨.call t rfl hvs, rfl⟩

end

/-- **Loop unrolling does not tell like values apart.** -/
theorem hooks_abreast : hooks.Abreast pairing Env.Clear Env.Failed where
  onGlobal _ _ _ := rfl
  onScript _ _ := rfl
  onCall _ _ := rfl
  onElement {view view' v v'} place e hview hv he hok :=
    ⟨hooks_follows.element_clear grounds_errs trivial place v he hok,
      unrollElement_alike hview place hv e⟩
  onValue {view view' v v' e} hview hv he hok := by
    obtain ⟨hclear, htries⟩ :=
      (hooks_follows.onValue view v e trivial).clear grounds_errs he hok
    obtain ⟨hrel, hsame⟩ := unrollValue_alike hview hv e
    refine ⟨hclear, ?_, hsame⟩
    change grounds.triesValue (unrollValue view v e).1 = false at htries
    show pairing.Opened (unrollValue view v e).1 (unrollValue view' v' e).1
    obtain ⟨t, l, hleaf, hleaf'⟩ | ⟨t, h, args, args', hcall, hcall'⟩ := hrel.shape
    · rw [hleaf, hleaf']
      exact .leaf t l
    · rw [hcall, hcall'] at hrel
      rw [hcall] at htries
      have hh : isLoop h = false := htries
      rw [hcall, hcall']
      exact .call t hh (alikeAll_iff.mp (hrel.args hh))
  onElement_failed _ place v _ hf := hooks_follows.element_failed trivial place v hf
  onValue_failed view v e hf := (hooks_follows.onValue view v e trivial).failed hf

end Loops

end HaloScript
