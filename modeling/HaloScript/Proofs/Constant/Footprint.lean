/-
# What evaluation touches

Evaluation writes under the keys of the nodes that it needs, and only where nothing is remembered
yet (`Scene.ask_touches`).  So what has been remembered stays as it is, and an expression without
references to constant globals writes nowhere but under its own nodes and does not look at the
scene (`Scene.ask_touches_nodes`, `Scene.ask_congr`).
-/
import HaloScript.Proofs.Constant.Memo

namespace HaloScript

/-! ## 1. Writing where nothing is remembered -/

namespace Eval

/-- The evaluation writes under some keys only, and there only if nothing is remembered. -/
def Touches (keys : MemoKey → Prop) (x : Eval (Option Const)) : Prop :=
  ∀ memo k, (keys k → memo[k]? ≠ none) → (x memo).2[k]? = memo[k]?

variable {keys keys' : MemoKey → Prop} {x : Eval (Option Const)}

theorem Touches.mono (hx : x.Touches keys) (h : ∀ k, keys k → keys' k) : x.Touches keys' :=
  fun memo k hk => hx memo k fun hkey => hk (h k hkey)

theorem touches_pure (keys : MemoKey → Prop) (r : Option Const) : Touches keys (pure r) :=
  fun _ _ _ => rfl

theorem memo_touches {key : MemoKey} (hkey : keys key) (hx : x.Touches keys) :
    (memo key x).Touches keys := by
  intro m k hk
  rw [memo_run]
  cases hr : m[key]? with
  | some => rfl
  | none =>
    have hne : key ≠ k := by
      rintro rfl
      exact hk hkey hr
    have hmark : (m.insert key none)[k]? = m[k]? := by
      rw [Std.HashMap.getElem?_insert, if_neg (by simpa using hne)]
    show ((x (m.insert key none)).2.insert key _)[k]? = m[k]?
    rw [Std.HashMap.getElem?_insert, if_neg (by simpa using hne), ← hmark]
    exact hx _ k fun hk' => hmark ▸ hk hk'

theorem memo_recorded (key : MemoKey) (x : Eval (Option Const)) (m : Memo) :
    (memo key x m).2[key]? = some (memo key x m).1 := by
  rw [memo_run]
  cases hr : m[key]? with
  | some => exact hr
  | none => exact Std.HashMap.getElem?_insert_self

end Eval

/-- A tree of questions touches what its questions touch. -/
theorem Decision.run_touches {ι : Type} {keys : MemoKey → Prop} {x : ι → Eval (Option Const)}
    (hx : ∀ i, (x i).Touches keys) (d : Decision ι) : (d.run x).Touches keys := by
  induction d with
  | done r => exact Eval.touches_pure keys r
  | ask i next ih =>
    intro memo k hk
    have hfirst := hx i memo k hk
    rw [run_ask_eval]
    generalize x i memo = out at hfirst
    obtain ⟨a, memo'⟩ := out
    cases a with
    | none => exact hfirst
    | some a => exact (ih a memo' k fun hkey => hfirst ▸ hk hkey).trans hfirst

namespace Scene

variable {scene scene' : Scene} {tree : Node → Prop} {K : Node}

/-- The keys of the nodes of a tree under which results are remembered. -/
def Keys (scene : Scene) (tree : Node → Prop) (k : MemoKey) : Prop :=
  ∃ A, tree A ∧ scene.isRemembered A = true ∧ A.key = k

theorem unfold_touches {x : Node → Eval (Option Const)}
    (hx : ∀ A, scene.Needs K A → (x A).Touches (scene.Keys tree)) :
    (scene.unfold x K).Touches (scene.Keys tree) := by
  obtain ⟨d, hd⟩ := scene.exists_unfolds K
  rw [hd]
  exact d.run_touches fun A => hx A.1 A.2

/-- **A question touches what it needs.** -/
theorem ask_touches
    (hclosed : ∀ {K A}, tree K → scene.isRemembered K = true → scene.Needs K A → tree A)
    (hK : tree K) : (scene.ask K).Touches (scene.Keys tree) := by
  rw [ask_eq_eval]
  exact eval_all (P := fun _ x => x.Touches (scene.Keys tree)) hclosed
    (fun _ => Eval.touches_pure _ none)
    (fun hK hrem hx => Eval.memo_touches ⟨_, hK, hrem, rfl⟩ (unfold_touches hx)) _ hK

/-- **What is remembered stays as it is.** -/
theorem ask_keeps (scene : Scene) (K : Node) {memo : Memo} {k : MemoKey} {r : Option Const}
    (h : memo[k]? = some r) : (scene.ask K memo).2[k]? = some r := by
  have htouches : (scene.ask K).Touches (scene.Keys fun _ => True) :=
    ask_touches (fun _ _ _ => trivial) trivial
  exact (htouches memo k fun _ => by simp [h]).trans h

theorem evalGlobal_recorded {id : GlobalId} (h : scene.isRemembered (.global id) = true)
    (memo : Memo) :
    (scene.evalGlobal id memo).2[MemoKey.global id]? = some (scene.evalGlobal id memo).1 := by
  have heval : scene.evalGlobal id =
      Eval.memo (.global id) (scene.unfold (scene.eval scene.size) (.global id)) := by
    have hsucc := scene.eval_global_succ scene.size id
    rwa [if_pos h] at hsucc
  rw [heval]
  exact Eval.memo_recorded _ _ memo

end Scene

/-! ## 2. Expressions without constant globals -/

def Node.leaves : Node → List Leaf
  | .global id => [.global id]
  | .value v => v.leaves
  | .call _ args => Value.leavesAll args

namespace Value

theorem leavesAll_subset_of_mem_nodesAll {K : Node} (vs : List Value) (hK : K ∈ nodesAll vs) :
    K.leaves ⊆ leavesAll vs := by
  have hpart : ∀ w ∈ partsAll vs, w.leaves ⊆ leavesAll vs := by
    intro w hw l hl
    obtain ⟨t, ht⟩ := (mem_leaves_parts w).mp hl
    exact (mem_leavesAll_parts vs).mpr ⟨t, partsAll_trans ht vs hw⟩
  cases K with
  | global => exact absurd (global?_of_mem_nodesAll vs hK) (by simp [Node.global?])
  | value w => exact hpart w (value_mem_nodesAll.mp hK)
  | call =>
    obtain ⟨t, ht⟩ := call_mem_nodesAll.mp hK
    exact hpart _ ht

end Value

namespace Eval

variable {follow follow' : GlobalId → Eval (Option Const)}

mutual

/-- An expression follows the globals that it refers to, and no others. -/
theorem value_congr (v : Value) (h : ∀ id, .global id ∈ v.leaves → follow id = follow' id) :
    value follow v = value follow' v := by
  match v with
  | .leaf t (.global id) => rw [value, value, leaf, leaf, h id (by simp [Value.leaves])]
  | .leaf t (.atom text) => rw [value, value, leaf, leaf]
  | .leaf t (.script id) => rw [value, value, leaf, leaf]
  | .leaf t .blank => rw [value, value, leaf, leaf]
  | .call t head args => rw [value, value, delayed_congr args h]

theorem delayed_congr (vs : List Value)
    (h : ∀ id, .global id ∈ Value.leavesAll vs → follow id = follow' id) :
    delayed follow vs = delayed follow' vs := by
  match vs with
  | [] => rfl
  | v :: rest =>
    rw [delayed, delayed, value_congr v fun id hid => h id (List.mem_append_left _ hid),
      delayed_congr rest fun id hid => h id (List.mem_append_right _ hid)]

end

end Eval

namespace Scene

variable {scene scene' : Scene} {K : Node}

/-- None of the leaves refers to a constant global. -/
def Plain (scene : Scene) (leaves : List Leaf) : Prop :=
  ∀ id, .global id ∈ leaves → scene.isRemembered (.global id) = false

theorem Plain.mono {ls ls' : List Leaf} (h : scene.Plain ls) (hsub : ls' ⊆ ls) : scene.Plain ls' :=
  fun id hid => h id (hsub hid)

/-- A global that can change has no value at any depth. -/
theorem follow_eq_none {id : GlobalId} (h : scene.isRemembered (.global id) = false) (depth : Nat) :
    scene.follow depth id = pure none := by
  cases depth with
  | zero => rfl
  | succ depth =>
    have hsucc := scene.eval_global_succ depth id
    rw [h, if_neg Bool.false_ne_true] at hsucc
    exact hsucc

/-- **An expression without constant globals does not look at the scene.** -/
theorem ask_congr (h : scene.Plain K.leaves) (h' : scene'.Plain K.leaves) :
    scene.ask K = scene'.ask K := by
  have hfollow : ∀ id, .global id ∈ K.leaves →
      scene.follow (scene.size + 1) id = scene'.follow (scene'.size + 1) id := by
    intro id hid
    rw [follow_eq_none (h id hid), follow_eq_none (h' id hid)]
  cases K with
  | global id => exact hfollow id List.mem_cons_self
  | value v => exact Eval.value_congr v hfollow
  | call head args =>
    show Eval.call head _ = Eval.call head _
    rw [Eval.delayed_congr args hfollow]

/-- **An expression without constant globals touches its own nodes only.** -/
theorem ask_touches_nodes {vs : List Value} (h : scene.Plain (Value.leavesAll vs))
    (hK : K ∈ Value.nodesAll vs) :
    (scene.ask K).Touches fun k => ∃ A ∈ Value.nodesAll vs, A.key = k := by
  have htouches : (scene.ask K).Touches (scene.Keys fun A =>
      A ∈ Value.nodesAll vs ∨ scene.isRemembered A = false) := by
    refine ask_touches (fun {K A} hK hrem hA => ?_) (.inl hK)
    rcases hK with hK | hnot
    · cases hsort : A.global? with
      | none =>
        refine .inl (Value.mem_nodesAll_of_needs hA ?_ hsort vs hK)
        cases hK' : K.global? with
        | none => rfl
        | some id =>
          obtain rfl := Node.eq_global hK'
          have hplain := h id (Value.leavesAll_subset_of_mem_nodesAll vs hK List.mem_cons_self)
          rw [hplain] at hrem
          cases hrem
      | some =>
        cases hA with
        | content => cases hsort
        | call => cases hsort
        | arg => cases hsort
        | link t g =>
          refine .inr (h g ?_)
          exact Value.leavesAll_subset_of_mem_nodesAll vs hK List.mem_cons_self
    · rw [hnot] at hrem
      cases hrem
  refine htouches.mono ?_
  rintro k ⟨A, hA | hnot, hrem, hkey⟩
  · exact ⟨A, hA, hkey⟩
  · rw [hnot] at hrem
    cases hrem

end Scene

end HaloScript
