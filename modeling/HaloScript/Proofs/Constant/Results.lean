/-
# Where constants come from

Evaluation makes reals and truth values; every other constant it finds is a word that stands in
the program, or one that was remembered.  So a condition on words that holds of the program
holds of all results (`evalValue_yields` and its companions), and with it a condition on leaves
carries over to the literals that lowering writes back (`Const.literal?_meets`).
-/
import HaloScript.Constant.Eval
import HaloScript.Proofs.Constant.Strict
import HaloScript.Proofs.Parts

namespace HaloScript

open HaloScript.Const

/-! ## 1. Computations that keep a condition on constants -/

def Memo.All (ok : Const → Prop) (memo : Memo) : Prop :=
  ∀ (key : MemoKey) (c : Const), memo[key]? = some (some c) → ok c

theorem Memo.all_empty (ok : Const → Prop) : Memo.All ok {} := by
  intro key c h
  simp at h

theorem Memo.All.insert {ok : Const → Prop} {memo : Memo} (hm : memo.All ok) (key : MemoKey)
    {r : Option Const} (hr : ∀ c ∈ r, ok c) : Memo.All ok (memo.insert key r) := by
  intro k c hk
  rw [Std.HashMap.getElem?_insert] at hk
  split at hk
  · exact hr c (by simpa using hk)
  · exact hm k c hk

namespace Eval

/-- A computation whose result meets `post` and that remembers only what meets `ok`, if nothing
else was remembered before. -/
def Meets {α : Type} (ok : Const → Prop) (post : α → Prop) (x : Eval α) : Prop :=
  ∀ memo : Memo, memo.All ok → post (x memo).1 ∧ Memo.All ok (x memo).2

/-- A computation of a constant, or of none, that keeps the condition. -/
abbrev Yields (ok : Const → Prop) (x : Eval (Option Const)) : Prop :=
  x.Meets ok fun r => ∀ c ∈ r, ok c

variable {α β : Type} {ok : Const → Prop} {post : α → Prop} {post' : β → Prop}

theorem meets_pure {a : α} (h : post a) : Meets ok post (pure a) := fun _ hm => ⟨h, hm⟩

theorem Meets.bind {x : Eval α} {f : α → Eval β} (hx : x.Meets ok post)
    (hf : ∀ a, post a → (f a).Meets ok post') : Meets ok post' (x >>= f) := by
  intro memo hm
  obtain ⟨ha, hm'⟩ := hx memo hm
  exact hf _ ha _ hm'

theorem yields_none : Yields ok (pure none) := meets_pure (by simp)

theorem yields_some {c : Const} (hc : ok c) : Yields ok (pure (some c)) :=
  meets_pure (by simpa using hc)

/-- What remembering does: a remembered result is given back, and a computation runs while the
key is marked as having no value. -/
theorem memo_run (key : MemoKey) (x : Eval (Option Const)) (memo : Memo) :
    Eval.memo key x memo =
      match memo[key]? with
      | some r => (r, memo)
      | none =>
        ((x (memo.insert key none)).1,
          (x (memo.insert key none)).2.insert key (x (memo.insert key none)).1) := by
  simp only [Eval.memo, bind, StateT.bind, get, getThe, MonadStateOf.get, StateT.get, pure]
  cases memo[key]? <;> rfl

theorem memo_yields (key : MemoKey) {x : Eval (Option Const)} (hx : x.Yields ok) :
    (Eval.memo key x).Yields ok := by
  intro memo hm
  rw [memo_run]
  split
  · next r hr => exact ⟨fun c hc => hm key c (hr.trans (congrArg some hc)), hm⟩
  · have hmarked : Memo.All ok (memo.insert key none) := hm.insert key (by simp)
    obtain ⟨hr, hm'⟩ := hx _ hmarked
    exact ⟨hr, hm'.insert key hr⟩

end Eval

/-! ## 2. Built-in functions -/

/-- A tree of questions makes only what meets the condition, if the answers do. -/
theorem Decision.Grounded.yields {ι : Type} {ok : Const → Prop} {x : ι → Eval (Option Const)}
    (hx : ∀ i, (x i).Yields ok) {d : Decision ι} (h : d.Grounded ok) :
    Eval.Yields ok (d.run x) := by
  induction d with
  | done r => exact Eval.meets_pure h
  | ask i next ih =>
    rw [run_ask]
    refine (hx i).bind fun r hr => ?_
    cases r with
    | none => exact Eval.yields_none
    | some c => exact ih c (h c (hr c rfl))

/-- A built-in function makes only what its arguments yield, reals and truth values. -/
theorem Builtin.apply_yields {ok : Const → Prop} (hok : Made ok) (f : Builtin)
    {args : List (Eval (Option Const))} (h : ∀ x ∈ args, x.Yields ok) :
    Eval.Yields ok (f.apply args) := by
  obtain ⟨d, hd, hgrounded, -⟩ := f.apply_strict args.attach
  have hrun : f.apply (args.attach.map Subtype.val) = d.run Subtype.val := hd Eval Subtype.val
  rw [← args.attach_map_subtype_val, hrun]
  exact (hgrounded ok hok).yields fun x => h x.1 x.2

/-! ## 3. Expressions and globals -/

/-- A condition on leaves that carries over to the constants leaves evaluate to: a reference to
a script evaluates to the script's name. -/
def Const.MeetsLeaf (leafOk : Leaf → Prop) (c : Const) : Prop := ∀ t, c = .atom t → leafOk (.atom t)

theorem Const.made_meetsLeaf (leafOk : Leaf → Prop) : Made (MeetsLeaf leafOk) :=
  ⟨fun _ _ h => by simp at h, fun _ _ h => by simp at h⟩

section

variable {leafOk : Leaf → Prop} {callOk : CallCondition}

namespace Eval

theorem call_yields (h : Head) {args : List (Eval (Option Const))}
    (hargs : ∀ x ∈ args, x.Yields (MeetsLeaf leafOk)) :
    (Eval.call h args).Yields (MeetsLeaf leafOk) := by
  refine memo_yields _ ?_
  split
  · exact yields_none
  · split
    · exact yields_none
    · split
      · exact yields_none
      · next f _ => exact Builtin.apply_yields (made_meetsLeaf leafOk) f hargs

section

variable (hscript : ∀ s, leafOk (.script s) → leafOk (.atom s.name))
  {follow : GlobalId → Eval (Option Const)}
  (hfollow : ∀ id, leafOk (.global id) → (follow id).Yields (MeetsLeaf leafOk))

include hscript hfollow

theorem leaf_yields {l : Leaf} (hl : leafOk l) :
    (Eval.leaf follow l).Yields (MeetsLeaf leafOk) := by
  cases l with
  | blank => exact yields_none
  | atom => exact yields_some fun t' ht => by cases ht; exact hl
  | global g => exact hfollow g hl
  | script s => exact yields_some fun t ht => by cases ht; exact hscript s hl

set_option linter.unusedSectionVars false in
mutual

/-- The value of an expression meets the condition on the expression's leaves. -/
theorem value_yields (v : Value) (hv : v.Meets leafOk callOk) :
    (Eval.value follow v).Yields (MeetsLeaf leafOk) := by
  match v with
  | .leaf t l =>
    rw [Value.meets_leaf] at hv
    exact memo_yields _ (leaf_yields hscript hfollow hv)
  | .call t h args =>
    rw [Value.meets_call] at hv
    exact memo_yields _ (call_yields h (delayed_yields args hv.2))

theorem delayed_yields (vs : List Value) (hvs : ∀ v ∈ vs, v.Meets leafOk callOk) :
    ∀ x ∈ Eval.delayed follow vs, x.Yields (MeetsLeaf leafOk) := by
  match vs with
  | [] => exact fun x hx => absurd hx List.not_mem_nil
  | v :: rest =>
    rw [List.forall_mem_cons] at hvs
    exact List.forall_mem_cons.mpr ⟨value_yields v hvs.1, delayed_yields rest hvs.2⟩

end

end

end Eval

namespace Scene

variable {scene : Scene}

/-- The leaves of the globals that leaves may refer to meet the condition. -/
def LeavesMeet (leafOk : Leaf → Prop) (scene : Scene) : Prop :=
  ∀ id g, leafOk (.global id) → scene.global? id = some g → g.value.Meets leafOk fun _ _ => True

variable (hscript : ∀ s, leafOk (.script s) → leafOk (.atom s.name))
  (hscene : scene.LeavesMeet leafOk)

include hscript hscene

/-- The value of a global comes from the leaves of the globals there are. -/
theorem follow_yields (depth : Nat) {id : GlobalId}
    (hid : ∀ g, scene.global? id = some g → g.value.Meets leafOk fun _ _ => True) :
    (scene.follow depth id).Yields (MeetsLeaf leafOk) := by
  induction depth generalizing id with
  | zero => exact Eval.yields_none
  | succ depth ih =>
    unfold follow
    split
    · exact Eval.yields_none
    · next g hg =>
      split
      · exact Eval.memo_yields _ (Eval.value_yields hscript
          (fun id' hleaf => ih fun g' => hscene id' g' hleaf) g.value (hid g hg))
      · exact Eval.yields_none

theorem evalGlobal_yields {id : GlobalId}
    (hid : ∀ g, scene.global? id = some g → g.value.Meets leafOk fun _ _ => True) :
    (scene.evalGlobal id).Yields (MeetsLeaf leafOk) := follow_yields hscript hscene _ hid

theorem evalValue_yields {v : Value} (hv : v.Meets leafOk callOk) :
    (scene.evalValue v).Yields (MeetsLeaf leafOk) :=
  Eval.value_yields hscript
    (fun id hleaf => follow_yields hscript hscene _ fun g => hscene id g hleaf) v hv

theorem evalCall_yields (h : Head) {args : List Value} (hargs : ∀ v ∈ args, v.Meets leafOk callOk) :
    (scene.evalCall h args).Yields (MeetsLeaf leafOk) :=
  Eval.call_yields h (Eval.delayed_yields hscript
    (fun id hleaf => follow_yields hscript hscene _ fun g => hscene id g hleaf) args hargs)

end Scene

end

/-! ## 4. Literals -/

/-- A condition on leaves that holds of every leaf lowering makes on its own: numbers, truth
values and the names of scripts. -/
structure Leaf.Writable (leafOk : Leaf → Prop) : Prop where
  int : ∀ n : Int, leafOk (.atom (Text.ofInt n))
  real : ∀ x : Single, x.isFinite = true → leafOk (.atom x.render)
  bool : ∀ b : Bool, leafOk (.atom (if b then "true" else "false"))
  script : ∀ s, leafOk (.script s) → leafOk (.atom s.name)

/-- The literal of a constant is a leaf that meets the condition. -/
theorem Const.literal?_meets {leafOk : Leaf → Prop} (hw : Leaf.Writable leafOk) {c : Const}
    (hc : c.MeetsLeaf leafOk) {t : Text} (ht : c.literal? = some t) : leafOk (.atom t) := by
  cases c with
  | void => simp [literal?, toText?] at ht
  | atom s =>
    obtain rfl : s = t := by simpa [literal?, toText?] using ht
    exact hc s rfl
  | long n =>
    obtain rfl : Text.ofInt n.toInt = t := by simpa [literal?, toText?] using ht
    exact hw.int _
  | short n =>
    obtain rfl : Text.ofInt n.toInt = t := by simpa [literal?, toText?] using ht
    exact hw.int _
  | real x =>
    simp only [literal?, Option.ite_none_right_eq_some, Option.some.injEq] at ht
    exact ht.2 ▸ hw.real x ht.1
  | bool b =>
    obtain rfl : (if b then ("true" : Text) else ("false" : Text)) = t := by
      simpa [literal?, toText?] using ht
    have := hw.bool b
    cases b <;> exact this

end HaloScript
