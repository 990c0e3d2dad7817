/-
# Remembering is invisible

While a node is evaluated it is marked as having no value, and what is evaluated meanwhile is
remembered with results that may rest on this mark.  Still no answer ever depends on what was
asked before: each is the one that an evaluation without any memory gives, where this ends, and
none where it does not (`Program.answers_eq`).

That whatever is found is right is clear (`Scene.ask_finds`).  The reason that nothing is missed
(`Scene.ask_answers`) is that evaluation is strict.  What is being evaluated needs all nodes above
it in the chain of unfinished evaluations, so if one of these had a derivation, the node would have
a shorter one.  A node that comes upon its own mark would have a derivation shorter than itself.
So it has none, and the mark is the right answer.

A lowering step can make constant globals ordinary while it goes on evaluating with one memory.  So
both results are about scenes that lose constants: what is found is what the scene has derived that
there was at first, and what follows from globals that are kept all the time is not missed.

The sample is evaluated by `cbv`, which needs equations that only the whole library has.
-/
import HaloScript.Proofs.Constant.Derivations
import HaloScript.Proofs.Constant.Results
import Mathlib

namespace HaloScript

open List Option

/-! ## 1. Evaluation with a memory -/

namespace Decision

variable {ι : Type}

theorem run_ask_eval (x : ι → Eval (Option Const)) (i : ι) (next : Const → Decision ι)
    (memo : Memo) :
    (ask i next).run x memo = after x next (x i memo).1 (x i memo).2 := by
  rw [run_ask]
  rfl

theorem run_ask_state (x : ι → StateT Memo Option (Option Const)) (i : ι)
    (next : Const → Decision ι) (memo : Memo) :
    (ask i next).run x memo = (x i memo).bind fun out => after x next out.1 out.2 := by
  rw [run_ask]
  rfl

theorem run_mono_state {x y : ι → StateT Memo Option (Option Const)}
    (h : ∀ i memo out, x i memo = some out → y i memo = some out) (d : Decision ι) {memo : Memo}
    {out : Option Const × Memo} (hout : d.run x memo = some out) : d.run y memo = some out := by
  induction d generalizing memo with
  | done => exact hout
  | ask i next ih =>
    rw [run_ask_state] at hout ⊢
    obtain ⟨⟨a, memo'⟩, ha, hout⟩ := bind_eq_some_iff.mp hout
    refine bind_eq_some_iff.mpr ⟨(a, memo'), h i memo _ ha, ?_⟩
    cases a with
    | none => exact hout
    | some a => exact ih a hout

end Decision

namespace Scene

variable {scene : Scene} {K : Node}

/-- The value of a node, through at most `depth` globals. -/
def eval (scene : Scene) (depth : Nat) : Node → Eval (Option Const)
  | .global id => scene.follow depth id
  | .value v => Eval.value (scene.follow depth) v
  | .call h args => Eval.call h (Eval.delayed (scene.follow depth) args)

/-- A question for the value of a node. -/
def ask (scene : Scene) : Node → Eval (Option Const)
  | .global id => scene.evalGlobal id
  | .value v => scene.evalValue v
  | .call h args => scene.evalCall h args

theorem ask_eq_eval (scene : Scene) (K : Node) : scene.ask K = scene.eval (scene.size + 1) K := by
  cases K <;> rfl

/-- Whether the result for a node is remembered: all are but those of globals that can change. -/
def isRemembered (scene : Scene) : Node → Bool
  | .global id => (scene.global? id).any (·.isConst)
  | _ => true

/-- Recursive evaluation with a memory and without a bound on globals; `none` if it is not
finished after `depth` levels. -/
def remembering (scene : Scene) : Nat → Node → StateT Memo Option (Option Const)
  | 0, _ => fun _ => none
  | depth + 1, K => fun memo =>
    if scene.isRemembered K then
      match memo[K.key]? with
      | some r => some (r, memo)
      | none => (scene.unfold (scene.remembering depth) K (memo.insert K.key none)).map fun out =>
          (out.1, out.2.insert K.key out.1)
    else scene.unfold (scene.remembering depth) K memo

theorem delayed_eq_map (follow : GlobalId → Eval (Option Const)) (vs : List Value) :
    Eval.delayed follow vs = vs.map (Eval.value follow) := by
  induction vs with
  | nil => rfl
  | cons v rest ih => rw [Eval.delayed, ih, map_cons]

theorem eval_eq_memo (scene : Scene) (depth : Nat) (hK : K.global? = none) :
    scene.eval depth K = Eval.memo K.key (scene.unfold (scene.eval depth) K) := by
  match K with
  | .global id => simp [Node.global?] at hK
  | .value (.leaf t l) =>
    rw [eval, Eval.value]
    cases l <;> rfl
  | .value (.call t h args) =>
    rw [eval, Eval.value]
    rfl
  | .call h args =>
    rw [eval, Eval.call, delayed_eq_map]
    rfl

theorem eval_global_succ (scene : Scene) (depth : Nat) (id : GlobalId) :
    scene.eval (depth + 1) (.global id) =
      if scene.isRemembered (.global id) then
        Eval.memo (.global id) (scene.unfold (scene.eval depth) (.global id))
      else pure none := by
  rw [eval, follow]
  cases hg : scene.global? id with
  | none => simp [isRemembered, hg]
  | some g =>
    cases hconst : g.isConst with
    | false => simp [isRemembered, hg, hconst]
    | true => simp [isRemembered, hg, hconst, unfold, eval]

theorem isRemembered_of_not_global (hK : K.global? = none) : scene.isRemembered K = true := by
  cases K <;> simp_all [Node.global?, isRemembered]

/-- **A property of evaluations**, by induction on the bound, which a global takes from, and on the
size of other nodes. -/
theorem eval_all {P : Node → Eval (Option Const) → Prop} {tree : Node → Prop}
    (hneeds : ∀ {K A}, tree K → scene.isRemembered K = true → scene.Needs K A → tree A)
    (hnone : ∀ id, P (.global id) (pure none))
    (hmemo : ∀ {x : Node → Eval (Option Const)} {K}, tree K → scene.isRemembered K = true →
      (∀ A, scene.Needs K A → P A (x A)) → P K (Eval.memo K.key (scene.unfold x K)))
    (depth : Nat) (hK : tree K) : P K (scene.eval depth K) := by
  -- nodes of any size, if globals have the property
  have hnodes :
      ∀ depth, (∀ id, tree (.global id) → P (.global id) (scene.eval depth (.global id))) →
      ∀ {K}, tree K → P K (scene.eval depth K) := by
    intro depth hglobals K
    induction hw : K.weight using Nat.strongRecOn generalizing K with
    | ind w ih =>
      intro hK
      cases hsort : K.global? with
      | some id =>
        obtain rfl := Node.eq_global hsort
        exact hglobals id hK
      | none =>
        have hrem : scene.isRemembered K = true := isRemembered_of_not_global hsort
        rw [eval_eq_memo scene depth hsort]
        exact hmemo hK hrem fun A hA =>
          ih A.weight (hw ▸ hA.weight_lt hsort) rfl (hneeds hK hrem hA)
  induction depth generalizing K with
  | zero => exact hnodes 0 (fun id _ => hnone id) hK
  | succ depth ih =>
    refine hnodes (depth + 1) (fun id hid => ?_) hK
    rw [eval_global_succ]
    split
    · next hrem => exact hmemo hid hrem fun A hA => ih (hneeds hid hrem hA)
    · exact hnone id

section

variable {n : Nat} {K : Node} {memo : Memo}

theorem remembering_cached (hK : scene.isRemembered K = true) {r : Option Const}
    (h : memo[K.key]? = some r) : scene.remembering (n + 1) K memo = some (r, memo) := by
  simp only [remembering, hK, h, if_true]

theorem remembering_new (hK : scene.isRemembered K = true) (h : memo[K.key]? = none) :
    scene.remembering (n + 1) K memo =
      (scene.unfold (scene.remembering n) K (memo.insert K.key none)).map fun out =>
        (out.1, out.2.insert K.key out.1) := by
  simp only [remembering, hK, h, if_true]

theorem remembering_passing (hK : scene.isRemembered K = false) :
    scene.remembering (n + 1) K memo = scene.unfold (scene.remembering n) K memo := by
  simp only [remembering, hK, Bool.false_eq_true, if_false]

end

/-- More fuel changes no result.  By induction on the fuel, through the decision tree of one
level. -/
theorem remembering_succ {n : Nat} {memo : Memo} {out : Option Const × Memo}
    (h : scene.remembering n K memo = some out) : scene.remembering (n + 1) K memo = some out := by
  induction n generalizing K memo out with
  | zero => simp [remembering] at h
  | succ n ih =>
    obtain ⟨d, hd⟩ := scene.exists_unfolds K
    have hstep : ∀ memo out, scene.unfold (scene.remembering n) K memo = some out →
        scene.unfold (scene.remembering (n + 1)) K memo = some out := by
      intro memo out hout
      rw [hd] at hout ⊢
      exact d.run_mono_state (fun A memo out hA => ih hA) hout
    cases hK : scene.isRemembered K with
    | false =>
      rw [remembering_passing hK] at h ⊢
      exact hstep _ _ h
    | true =>
      cases hm : memo[K.key]? with
      | some => rwa [remembering_cached hK hm] at h ⊢
      | none =>
        rw [remembering_new hK hm] at h ⊢
        obtain ⟨out', hout', rfl⟩ := map_eq_some_iff.mp h
        exact map_eq_some_iff.mpr ⟨out', hstep _ _ hout', rfl⟩

theorem remembering_mono {n n' : Nat} (hn : n ≤ n') {memo : Memo} {out : Option Const × Memo}
    (h : scene.remembering n K memo = some out) : scene.remembering n' K memo = some out := by
  induction hn with
  | refl => exact h
  | step _ ih => exact remembering_succ ih

end Scene

/-! ## 2. What is found is right -/

namespace Scene

variable {scene scene' : Scene} {tree : Node → Prop} {memo : Memo} {K : Node}

/-- A set of nodes that contains what its nodes need, and where a key belongs to one node. -/
structure Closed (scene : Scene) (tree : Node → Prop) : Prop where
  needs : ∀ {K A : Node}, tree K → scene.Needs K A → tree A
  distinct : ∀ {K A : Node}, tree K → tree A → K.key = A.key → K = A

theorem Below.needs (h : scene.Below scene') (hrem : scene.isRemembered K = true) {A : Node}
    (hA : scene.Needs K A) : scene'.Needs K A := by
  cases hA with
  | @content id g hg =>
    have hconst : g.isConst = true := by simpa [isRemembered, hg] using hrem
    exact .content (h id g hg hconst)
  | link t g => exact .link t g
  | call t head args => exact .call t head args
  | arg head hv => exact .arg head hv

/-- Every constant that is remembered is the value of its node. -/
def Trusts (scene : Scene) (tree : Node → Prop) (memo : Memo) : Prop :=
  ∀ K, tree K → ∀ c, memo[K.key]? = some (some c) → scene.Derives K c

/-- Whatever the evaluation finds is the value of the node, and so is whatever it remembers. -/
def Finds (scene : Scene) (tree : Node → Prop) (x : Eval (Option Const)) (K : Node) : Prop :=
  ∀ memo, scene.Trusts tree memo →
    (∀ c, (x memo).1 = some c → scene.Derives K c) ∧ scene.Trusts tree (x memo).2

theorem trusts_empty (scene : Scene) (tree : Node → Prop) : scene.Trusts tree {} :=
  fun K _ c hc => by simp at hc

theorem Trusts.insert (h : scene.Trusts tree memo) (htree : scene.Closed tree) (hK : tree K)
    {r : Option Const} (hr : ∀ c, r = some c → scene.Derives K c) :
    scene.Trusts tree (memo.insert K.key r) := by
  intro A hA c hc
  rw [Std.HashMap.getElem?_insert] at hc
  split at hc
  · next heq =>
    obtain rfl : K = A := htree.distinct hK hA (by simpa using heq)
    exact hr c (some.inj hc)
  · exact h A hA c hc

theorem memo_finds (htree : scene.Closed tree) (hK : tree K) {x : Eval (Option Const)}
    (hx : scene.Finds tree x K) : scene.Finds tree (Eval.memo K.key x) K := by
  intro memo hm
  rw [Eval.memo_run]
  cases hr : memo[K.key]? with
  | some => exact ⟨fun c hc => hm K hK c (hr.trans (congrArg some hc)), hm⟩
  | none =>
    obtain ⟨hanswer, htrusts⟩ := hx _ (hm.insert htree hK (r := none) (fun _ h => nomatch h))
    exact ⟨hanswer, htrusts.insert htree hK hanswer⟩

/-- A tree of questions with answers that can be trusted, by induction on the tree. -/
theorem run_finds {x : Node → Eval (Option Const)} {K' : Node}
    (d : Decision { A // scene.Needs K' A })
    (hx : ∀ A, scene.Needs K' A → scene'.Finds tree (x A) A) :
    ∀ memo, scene'.Trusts tree memo →
      (∀ c, (d.run (fun A => x A.1) memo).1 = some c →
        ∃ n, d.run (fun A => scene'.plain n A.1) = some (some c)) ∧
      scene'.Trusts tree (d.run (fun A => x A.1) memo).2 := by
  induction d with
  | done => exact fun memo hm => ⟨fun c hc => ⟨0, congrArg some hc⟩, hm⟩
  | ask i next ih =>
    intro memo hm
    obtain ⟨hanswer, htrusts⟩ := hx i.1 i.2 memo hm
    rw [Decision.run_ask_eval]
    generalize x i.1 memo = out at hanswer htrusts
    obtain ⟨a, memo'⟩ := out
    cases a with
    | none => exact ⟨fun _ hc => (by cases hc), htrusts⟩
    | some a =>
      obtain ⟨hrest, htrusts'⟩ := ih a memo' htrusts
      refine ⟨fun c hc => ?_, htrusts'⟩
      obtain ⟨n, hn⟩ := hrest c hc
      obtain ⟨n', hn'⟩ := hanswer a rfl
      refine ⟨max n n', ?_⟩
      rw [Decision.run_ask, plain_mono (Nat.le_max_right n n') hn']
      exact (next a).run_mono (fun A r hr => plain_mono (Nat.le_max_left n n') hr) hn

/-- **Whatever is found among fewer constants is right.** -/
theorem ask_finds (h : scene.Below scene') (htree : scene'.Closed tree) (hK : tree K) :
    scene'.Finds tree (scene.ask K) K := by
  rw [ask_eq_eval]
  refine eval_all (P := fun K x => scene'.Finds tree x K)
    (fun hK hrem hA => htree.needs hK (h.needs hrem hA))
    (fun id _ hm => ⟨fun _ hc => (by cases hc), hm⟩) (fun {x K} hK _ hx => ?_) _ hK
  refine memo_finds htree hK fun memo hm => ?_
  obtain ⟨d, hd⟩ := scene.exists_unfolds K
  rw [hd]
  obtain ⟨hanswer, htrusts⟩ := run_finds d hx memo hm
  refine ⟨fun c hc => ?_, htrusts⟩
  obtain ⟨n, hn⟩ := hanswer c hc
  rw [← hd] at hn
  exact ⟨n + 1, h.unfold_eq_some hn⟩

end Scene

/-! ## 3. The bound on globals -/

namespace Scene

variable {scene : Scene} {stack : List Node}

/-- The bound is not used up: as many globals are being evaluated as it has lost.  At most
`scene.size` contents of globals can be on the stack. -/
def Enough (scene : Scene) (globals : List Global) (depth : Nat) (stack : List Node) : Prop :=
  ∃ entered : List Global, entered.Nodup ∧
    (∀ g ∈ entered, g ∈ globals ∧ Node.value g.value ∈ stack) ∧
    scene.size + 1 ≤ depth + entered.length

/-- A list of all globals, of the size the scene gives. -/
structure Lists (scene : Scene) (globals : List Global) : Prop where
  length_le : globals.length ≤ scene.size
  complete : ∀ {id : GlobalId} {g : Global}, scene.global? id = some g → g ∈ globals

variable {globals : List Global} {depth : Nat}

theorem Enough.mono {stack' : List Node} (h : scene.Enough globals depth stack)
    (hsub : ∀ S ∈ stack, S ∈ stack') : scene.Enough globals depth stack' := by
  obtain ⟨entered, hnodup, hentered, hsize⟩ := h
  exact ⟨entered, hnodup, fun g hg => ⟨(hentered g hg).1, hsub _ (hentered g hg).2⟩, hsize⟩

theorem Enough.pos (h : scene.Enough globals depth stack) (hg : scene.Lists globals) :
    0 < depth := by
  obtain ⟨entered, hnodup, hentered, hsize⟩ := h
  have hle := (subperm_of_subset hnodup fun g hg => (hentered g hg).1).length_le
  have hlength := hg.length_le
  omega

/-- A global that is entered for the first time makes up for the one taken from the bound. -/
theorem Enough.enter (h : scene.Enough globals (depth + 1) stack) {g : Global} (hg : g ∈ globals)
    (hnew : Node.value g.value ∉ stack) :
    scene.Enough globals depth (Node.value g.value :: stack) := by
  obtain ⟨entered, hnodup, hentered, hsize⟩ := h
  refine ⟨g :: entered, nodup_cons.mpr ⟨fun hmem => hnew (hentered g hmem).2, hnodup⟩, ?_, ?_⟩
  · rw [forall_mem_cons]
    exact ⟨⟨hg, mem_cons_self⟩, fun g' hg' =>
      ⟨(hentered g' hg').1, mem_cons_of_mem _ (hentered g' hg').2⟩⟩
  · rw [length_cons]
    omega

end Scene

/-! ## 4. What is not missed

Here `lower` has the globals that are kept, `scene` those that are constant at the moment, and
`upper` those that were constant at first. -/

namespace Scene

/-- The nodes of the stack are being evaluated and marked; of no other node a value is missed that
the scene derives. -/
structure Holds (lower : Scene) (tree : Node → Prop) (stack : List Node) (memo : Memo) : Prop where
  inside : ∀ K ∈ stack, tree K
  marked : ∀ K ∈ stack, memo[K.key]? = some none
  found : ∀ {K : Node}, tree K → K ∉ stack → ∀ {r : Option Const}, memo[K.key]? = some r →
    ∀ c, lower.Derives K c → r = some c

/-- The outcome of an evaluation that ends, does not miss the value of the node, nor leaves behind
that another one is missed. -/
structure Answers (lower scene : Scene) (tree : Node → Prop) (stack : List Node) (memo : Memo)
    (K : Node) (out : Option Const × Memo) : Prop where
  answer : ∀ c, lower.Derives K c → out.1 = some c
  holds : lower.Holds tree stack out.2
  ends : ∃ n, scene.remembering n K memo = some out

variable {lower scene upper : Scene} {tree : Node → Prop} {stack : List Node} {memo : Memo}
  {K : Node}

theorem holds_empty (lower : Scene) (tree : Node → Prop) : lower.Holds tree [] {} where
  inside K hK := absurd hK not_mem_nil
  marked K hK := absurd hK not_mem_nil
  found _ _ _ hr := by simp at hr

/-- A node is marked when its evaluation begins. -/
theorem Holds.push (h : lower.Holds tree stack memo) (htree : upper.Closed tree) (hK : tree K) :
    lower.Holds tree (K :: stack) (memo.insert K.key none) where
  inside := forall_mem_cons.mpr ⟨hK, h.inside⟩
  marked A hA := by
    rw [Std.HashMap.getElem?_insert]
    split
    · rfl
    · next hne =>
      rcases mem_cons.mp hA with rfl | hA
      · simp at hne
      · exact h.marked A hA
  found {A} hA hnot r hr := by
    rw [mem_cons, not_or] at hnot
    have hne : K.key ≠ A.key := fun heq => hnot.1 (htree.distinct hA hK heq.symm)
    rw [Std.HashMap.getElem?_insert, if_neg (by simpa using hne)] at hr
    exact h.found hA hnot.2 hr

/-- The mark is replaced by the result when the evaluation ends. -/
theorem Holds.pop (h : lower.Holds tree (K :: stack) memo) (htree : upper.Closed tree)
    (hnew : K ∉ stack) {r : Option Const} (hr : ∀ c, lower.Derives K c → r = some c) :
    lower.Holds tree stack (memo.insert K.key r) where
  inside A hA := h.inside A (mem_cons_of_mem K hA)
  marked A hA := by
    have hne : K.key ≠ A.key := by
      intro heq
      have heq' := htree.distinct (h.inside K mem_cons_self)
        (h.inside A (mem_cons_of_mem K hA)) heq
      exact hnew (heq' ▸ hA)
    rw [Std.HashMap.getElem?_insert, if_neg (by simpa using hne)]
    exact h.marked A (mem_cons_of_mem K hA)
  found {A} hA hnot r' hr' := by
    rw [Std.HashMap.getElem?_insert] at hr'
    split at hr'
    · next heq =>
      obtain rfl : K = A := htree.distinct (h.inside K mem_cons_self) hA (by simpa using heq)
      obtain rfl : r = r' := by simpa using hr'
      exact hr
    · next hne =>
      refine h.found hA (fun hmem => ?_) hr'
      rcases mem_cons.mp hmem with rfl | hmem
      · simp at hne
      · exact hnot hmem

/-- A result that is remembered is given back.  If it is a mark, the node depends on itself. -/
theorem answers_cached (h : lower.Holds tree stack memo) (hK : tree K)
    (hrem : scene.isRemembered K = true) (hstack : ∀ S ∈ stack, lower.Leads S K)
    {r : Option Const} (hr : memo[K.key]? = some r) :
    lower.Answers scene tree stack memo K (r, memo) where
  answer c hc := by
    by_cases hmem : K ∈ stack
    · exact absurd hc ((hstack K hmem).not_derives c)
    · exact h.found hK hmem hr c hc
  holds := h
  ends := ⟨1, remembering_cached hrem hr⟩

/-- **A level of evaluation.**  By induction on its decision tree.  `hdown` says that the path
taken so far is the one that a derivation takes, so that each question on it is needed. -/
theorem run_answers {x : Node → Eval (Option Const)} (d : Decision { A // scene.Needs K A })
    (hx : ∀ A, scene.Needs K A → lower.Leads K A → ∀ memo, lower.Holds tree stack memo →
      lower.Answers scene tree stack memo A (x A memo))
    (hdown : ∀ n c, lower.plain (n + 1) K = some (some c) →
      d.run (fun A => lower.plain n A.1) = some (some c))
    (hm : lower.Holds tree stack memo) :
    (∀ c, lower.Derives K c → (d.run (fun A => x A.1) memo).1 = some c) ∧
      lower.Holds tree stack (d.run (fun A => x A.1) memo).2 ∧
      ∃ n, d.run (fun A => scene.remembering n A.1) memo = some (d.run (fun A => x A.1) memo) := by
  induction d generalizing memo with
  | done =>
    refine ⟨?_, hm, 0, rfl⟩
    rintro c ⟨n, hn⟩
    cases n with
    | zero => simp [plain] at hn
    | succ n => exact some.inj (hdown n c hn)
  | ask i next ih =>
    have hneeded : ∀ n c, lower.plain (n + 1) K = some (some c) →
        ∃ a, lower.plain n i.1 = some (some a) ∧
          (next a).run (fun A => lower.plain n A.1) = some (some c) :=
      fun n c hn => Decision.run_ask_eq_some (hdown n c hn)
    have hlead : lower.Leads K i.1 := by
      intro n c hn
      cases n with
      | zero => simp [plain] at hn
      | succ n =>
        obtain ⟨a, ha, -⟩ := hneeded n c hn
        exact ⟨n, Nat.lt_succ_self n, a, ha⟩
    obtain ⟨hanswer, hholds, k, hk⟩ := hx i.1 i.2 hlead memo hm
    rw [Decision.run_ask_eval]
    generalize x i.1 memo = out at hanswer hholds hk
    obtain ⟨a, memo'⟩ := out
    cases a with
    | none =>
      refine ⟨?_, hholds, k, ?_⟩
      · rintro c ⟨n, hn⟩
        cases n with
        | zero => simp [plain] at hn
        | succ n =>
          obtain ⟨a, ha, -⟩ := hneeded n c hn
          exact absurd (hanswer a ⟨n, ha⟩) (by simp)
      · rw [Decision.run_ask_state, hk]
        rfl
    | some a =>
      -- the answer is the one that a derivation has there, if there is a derivation
      obtain ⟨hrest, hholds', k', hk'⟩ := ih a (fun n c hn => by
        obtain ⟨a', ha', hrun⟩ := hneeded n c hn
        obtain rfl : a = a' := some.inj (hanswer a' ⟨n, ha'⟩)
        exact hrun) hholds
      refine ⟨hrest, hholds', max k k', ?_⟩
      rw [Decision.run_ask_state, remembering_mono (Nat.le_max_left k k') hk]
      exact (next a).run_mono_state
        (fun A m out hA => remembering_mono (Nat.le_max_right k k') hA) hk'

/-- **A node that is remembered**, if nothing that it needs is missed while it is marked. -/
theorem memo_answers (hlower : lower.Below scene) (htree : upper.Closed tree)
    {x : Node → Eval (Option Const)} (hK : tree K) (hrem : scene.isRemembered K = true)
    (hm : lower.Holds tree stack memo) (hstack : ∀ S ∈ stack, lower.Leads S K)
    (hx : K ∉ stack → ∀ A, scene.Needs K A → (∀ S ∈ K :: stack, lower.Leads S A) → ∀ memo,
      lower.Holds tree (K :: stack) memo →
      lower.Answers scene tree (K :: stack) memo A (x A memo)) :
    lower.Answers scene tree stack memo K (Eval.memo K.key (scene.unfold x K) memo) := by
  rw [Eval.memo_run]
  cases hcached : memo[K.key]? with
  | some => exact answers_cached hm hK hrem hstack hcached
  | none =>
    have hnew : K ∉ stack := fun hmem => by simp [hm.marked K hmem] at hcached
    obtain ⟨d, hd⟩ := scene.exists_unfolds K
    obtain ⟨hanswer, hholds, n, hn⟩ := run_answers d
      (fun A hA hlead => hx hnew A hA (forall_mem_cons.mpr
        ⟨hlead, fun S hS => (hstack S hS).trans hlead⟩))
      (fun n c hn => by
        rw [← hd]
        exact hlower.unfold_eq_some hn)
      (hm.push htree hK)
    have hrun : scene.unfold x K = d.run fun A => x A.1 := hd _ x
    rw [← hrun] at hanswer hholds hn
    refine ⟨hanswer, hholds.pop htree hnew hanswer, n + 1, ?_⟩
    rw [remembering_new hrem hcached, hd _ (scene.remembering n), hn]
    rfl

theorem unfold_passing {id : GlobalId} (hrem : scene.isRemembered (.global id) = false)
    {m : Type → Type} [Monad m] (x : Node → m (Option Const)) :
    scene.unfold x (.global id) = pure none := by
  cases hg : scene.global? id with
  | none => simp [unfold, hg]
  | some g =>
    have hconst : g.isConst = false := by simpa [isRemembered, hg] using hrem
    simp [unfold, hg, hconst]

theorem not_derives_passing {id : GlobalId} (hrem : scene.isRemembered (.global id) = false)
    (c : Const) : ¬ scene.Derives (.global id) c := by
  rintro ⟨n, hn⟩
  cases n with
  | zero => simp [plain] at hn
  | succ => simp [plain, unfold_passing hrem] at hn

variable {globals : List Global}

/-- **No value is missed**, whatever is being evaluated already, as long as the nodes on the stack
lead to the node.  By induction on the bound, which a global takes from, and on the size of other
nodes. -/
theorem eval_answers (hlower : lower.Below scene) (hupper : scene.Below upper)
    (htree : upper.Closed tree) (hglobals : upper.Lists globals) :
    ∀ (depth : Nat) {K : Node} {stack : List Node} {memo : Memo}, tree K →
      lower.Holds tree stack memo → (∀ S ∈ stack, lower.Leads S K) →
      (K.global? ≠ none → upper.Enough globals depth stack) →
      (K ∉ stack → upper.Enough globals depth (K :: stack)) →
      lower.Answers scene tree stack memo K (scene.eval depth K memo) := by
  intro depth
  induction depth with
  | zero =>
    intro K stack memo hK hm hstack hglobal henough
    have hnone : K.global? = none := by
      by_contra hsome
      exact absurd ((hglobal hsome).pos hglobals) (Nat.lt_irrefl 0)
    rw [eval_eq_memo scene 0 hnone]
    exact memo_answers hlower htree hK (isRemembered_of_not_global hnone) hm hstack fun hnew =>
      absurd ((henough hnew).pos hglobals) (Nat.lt_irrefl 0)
  | succ depth ih =>
    intro K
    induction hw : K.weight using Nat.strongRecOn generalizing K with
    | ind w ihw =>
      intro stack memo hK hm hstack hglobal henough
      cases hsort : K.global? with
      | none =>
        have hrem : scene.isRemembered K = true := isRemembered_of_not_global hsort
        rw [eval_eq_memo scene (depth + 1) hsort]
        refine memo_answers hlower htree hK hrem hm hstack fun hnew A hA hleads memo' hm' => ?_
        have hin := henough hnew
        exact ihw A.weight (hw ▸ hA.weight_lt hsort) rfl (htree.needs hK (hupper.needs hrem hA))
          hm' hleads (fun _ => hin) fun _ => hin.mono fun S hS => mem_cons_of_mem A hS
      | some id =>
        obtain rfl := Node.eq_global hsort
        have hin := hglobal (by simp [hsort])
        rw [eval_global_succ]
        cases hrem : scene.isRemembered (.global id) with
        | false =>
          rw [if_neg Bool.false_ne_true]
          refine ⟨fun c hc => absurd (hc.mono hlower) (not_derives_passing hrem c), hm, 1, ?_⟩
          rw [remembering_passing hrem, unfold_passing hrem]
          rfl
        | true =>
          rw [if_pos rfl]
          refine memo_answers hlower htree hK hrem hm hstack fun hnew A hA hleads memo' hm' => ?_
          cases hupper.needs hrem hA with
          | content hg =>
            refine ih (htree.needs hK (.content hg)) hm' hleads (by simp [Node.global?])
              fun hA => ?_
            rw [mem_cons, not_or] at hA
            refine (hin.enter (hglobals.complete hg) hA.2).mono fun S hS => ?_
            rcases mem_cons.mp hS with rfl | hS
            · exact mem_cons_self
            · exact mem_cons_of_mem _ (mem_cons_of_mem _ hS)

/-- **A question**, with nothing being evaluated. -/
theorem ask_answers (hlower : lower.Below scene) (hupper : scene.Below upper)
    (hsize : scene.size = upper.size) (htree : upper.Closed tree)
    (hglobals : upper.Lists globals) (hK : tree K) (hm : lower.Holds tree [] memo) :
    lower.Answers scene tree [] memo K (scene.ask K memo) := by
  have henough : ∀ stack, upper.Enough globals (scene.size + 1) stack := fun stack =>
    ⟨[], nodup_nil, fun g hg => absurd hg not_mem_nil, by simp [hsize]⟩
  rw [ask_eq_eval]
  exact eval_answers hlower hupper htree hglobals _ hK hm (fun S hS => absurd hS not_mem_nil)
    (fun _ => henough _) fun _ => henough _

end Scene

/-! ## 5. Questions -/

namespace Scene

variable {scene : Scene} {tree : Node → Prop} {globals : List Global}

/-- Every result that is remembered is right. -/
structure Consistent (scene : Scene) (tree : Node → Prop) (memo : Memo) : Prop where
  holds : scene.Holds tree [] memo
  trusts : scene.Trusts tree memo

/-- The outcome of an evaluation that ends, gives the value of the node and leaves nothing wrong
behind. -/
structure Settled (scene : Scene) (tree : Node → Prop) (memo : Memo) (K : Node)
    (out : Option Const × Memo) : Prop where
  answer : ∀ c, out.1 = some c ↔ scene.Derives K c
  consistent : scene.Consistent tree out.2
  ends : ∃ n, scene.remembering n K memo = some out

theorem consistent_empty (scene : Scene) (tree : Node → Prop) : scene.Consistent tree {} :=
  ⟨holds_empty scene tree, trusts_empty scene tree⟩

theorem Consistent.congr {memo memo' : Memo} (h : scene.Consistent tree memo)
    (hsame : ∀ K, tree K → memo'[K.key]? = memo[K.key]?) : scene.Consistent tree memo' where
  holds :=
    { inside := h.holds.inside
      marked := fun _ hK => absurd hK not_mem_nil
      found := fun hK hnot _ hr => h.holds.found hK hnot (hsame _ hK ▸ hr) }
  trusts K hK c hc := h.trusts K hK c (hsame K hK ▸ hc)

section

variable (htree : scene.Closed tree) (hglobals : scene.Lists globals)

include htree hglobals

/-- **A question on a consistent memory** is answered right. -/
theorem ask_settled {K : Node} {memo : Memo} (hK : tree K) (hm : scene.Consistent tree memo) :
    scene.Settled tree memo K (scene.ask K memo) := by
  have hsame : scene.Below scene := fun _ _ hg _ => hg
  obtain ⟨hanswer, hholds, hends⟩ := ask_answers hsame hsame rfl htree hglobals hK hm.holds
  obtain ⟨hright, htrusts⟩ := ask_finds hsame htree hK memo hm.trusts
  exact ⟨fun c => ⟨hright c, hanswer c⟩, ⟨hholds, htrusts⟩, hends⟩

/-- The value of a node by an evaluation that starts with an empty memory. -/
def fresh (scene : Scene) (K : Node) : Option Const := ((scene.ask K).run {}).1

theorem fresh_eq_some_iff {K : Node} (hK : tree K) (c : Const) :
    scene.fresh K = some c ↔ scene.Derives K c :=
  (ask_settled htree hglobals hK (consistent_empty scene tree)).answer c

/-- **Fresh evaluation goes level by level.** -/
theorem fresh_eq_unfold {K : Node} (hK : tree K) :
    scene.fresh K = scene.unfold (m := Id) scene.fresh K := by
  have hiff : ∀ {A : Node}, tree A → ∀ c, scene.fresh A = some c ↔ scene.Derives A c :=
    fun hA c => fresh_eq_some_iff htree hglobals hA c
  refine Option.ext fun c => ?_
  constructor
  · intro hc
    obtain ⟨n, hn⟩ := (hiff hK c).mp hc
    cases n with
    | zero => simp [plain] at hn
    | succ n =>
      obtain ⟨d, hd⟩ := scene.exists_unfolds K
      rw [plain, hd] at hn
      rw [hd]
      refine Decision.run_join (x := fun A => some (scene.fresh A.1)) d ?_
      exact d.run_mono_some
        (fun A a ha => congrArg some ((hiff (htree.needs hK A.2) a).mpr ⟨n, ha⟩)) hn
  · intro hc
    exact (hiff hK c).mpr
      (derives_of_unfold (fun A hA a ha => (hiff (htree.needs hK hA) a).mp ha) hc)

end

theorem mapM_ask_cons (scene : Scene) (K : Node) (rest : List Node) (memo : Memo) :
    (K :: rest).mapM scene.ask memo =
      ((scene.ask K memo).1 :: (rest.mapM scene.ask (scene.ask K memo).2).1,
        (rest.mapM scene.ask (scene.ask K memo).2).2) := by
  rw [mapM_cons]
  rfl

theorem mapM_remembering_cons (scene : Scene) (n : Nat) (K : Node) (rest : List Node)
    (memo : Memo) :
    (K :: rest).mapM (scene.remembering n) memo =
      (scene.remembering n K memo).bind fun out =>
        (rest.mapM (scene.remembering n) out.2).bind fun outs =>
          some (out.1 :: outs.1, outs.2) := by
  rw [mapM_cons]
  rfl

theorem mapM_remembering_mono {n n' : Nat} (hn : n ≤ n') {queries : List Node} :
    ∀ {memo : Memo} {out : List (Option Const) × Memo},
      queries.mapM (scene.remembering n) memo = some out →
      queries.mapM (scene.remembering n') memo = some out := by
  induction queries with
  | nil => exact fun h => h
  | cons K rest ih =>
    intro memo out h
    rw [mapM_remembering_cons] at h ⊢
    obtain ⟨first, hfirst, h⟩ := bind_eq_some_iff.mp h
    obtain ⟨others, hothers, h⟩ := bind_eq_some_iff.mp h
    rw [remembering_mono hn hfirst, bind_some, ih hothers]
    exact h

/-- **A sequence of questions** on one memory, by induction on the sequence. -/
theorem mapM_ask_settled (htree : scene.Closed tree) (hglobals : scene.Lists globals)
    (queries : List Node) : ∀ {memo : Memo}, (∀ K ∈ queries, tree K) →
      scene.Consistent tree memo →
      (queries.mapM scene.ask memo).1 = queries.map scene.fresh ∧
        ∃ n, queries.mapM (scene.remembering n) memo = some (queries.mapM scene.ask memo) := by
  induction queries with
  | nil => exact fun _ _ => ⟨rfl, 0, rfl⟩
  | cons K rest ih =>
    intro memo hqueries hm
    rw [forall_mem_cons] at hqueries
    obtain ⟨hanswer, hconsistent, n, hn⟩ := ask_settled htree hglobals hqueries.1 hm
    obtain ⟨hrest, n', hn'⟩ := ih hqueries.2 hconsistent
    have hfresh : (scene.ask K memo).1 = scene.fresh K := by
      refine Option.ext fun c => ?_
      rw [hanswer c, fresh_eq_some_iff htree hglobals hqueries.1]
    refine ⟨?_, max n n', ?_⟩
    · rw [mapM_ask_cons, hrest, hfresh, map_cons]
    · rw [mapM_remembering_cons, mapM_ask_cons, remembering_mono (Nat.le_max_left n n') hn,
        bind_some,
        mapM_remembering_mono (Nat.le_max_right n n') hn']
      rfl

end Scene

/-! ## 6. Programs -/

namespace Value

theorem mem_nodes_self (v : Value) : Node.value v ∈ v.nodes := by
  cases v <;> simp [nodes]

theorem mem_nodesAll_of_mem {v : Value} {vs : List Value} (hv : v ∈ vs) :
    Node.value v ∈ nodesAll vs := by
  induction vs with
  | nil => simp at hv
  | cons w rest ih =>
    rw [nodesAll, mem_append]
    rcases mem_cons.mp hv with rfl | hv
    · exact .inl (mem_nodes_self v)
    · exact .inr (ih hv)

theorem mem_nodesAll_of_needs {scene : Scene} {K A : Node} (hA : scene.Needs K A)
    (hK : K.global? = none) (hglobal : A.global? = none) (vs : List Value) (h : K ∈ nodesAll vs) :
    A ∈ nodesAll vs := by
  cases hA with
  | content => cases hK
  | link => cases hglobal
  | call t =>
    exact call_mem_nodesAll.mpr ⟨t, value_mem_nodesAll.mp h⟩
  | arg head hv =>
    obtain ⟨t, ht⟩ := call_mem_nodesAll.mp h
    refine value_mem_nodesAll.mpr (partsAll_trans ?_ vs ht)
    exact mem_cons_of_mem _ (mem_partsAll.mpr ⟨_, hv, mem_parts_self _⟩)

theorem mem_nodes_of_needs {scene : Scene} {K A : Node} {v : Value} (hA : scene.Needs K A)
    (hK : K.global? = none) (hglobal : A.global? = none) (h : K ∈ v.nodes) : A ∈ v.nodes := by
  rw [nodes_eq_nodesAll] at h ⊢
  exact mem_nodesAll_of_needs hA hK hglobal _ h

end Value

/-- Where a key belongs to one node, references to globals make no difference. -/
theorem Node.eq_of_key_eq {nodes : List Node}
    (hnodes : ∀ K ∈ nodes, ∀ A ∈ nodes, K.key = A.key → K = A) {K A : Node}
    (hK : K.global? = none → K ∈ nodes) (hA : A.global? = none → A ∈ nodes)
    (hkey : K.key = A.key) : K = A := by
  cases hsort : K.global? with
  | some => cases K <;> cases A <;> simp_all [global?, key]
  | none =>
    have hsort' : A.global? = none := by
      cases K <;> cases A <;> simp_all [global?, key]
    exact hnodes K (hK hsort) A (hA hsort') hkey

namespace Program

/-- No two nodes share the key under which results are remembered. -/
def Keyed (p : Program) : Prop := ∀ K ∈ p.nodes, ∀ A ∈ p.nodes, K.key = A.key → K = A

theorem Numbered.keyed {p : Program} (hn : p.Numbered) : p.Keyed :=
  fun _ hK _ hA => hn.distinct hK hA

/-- A node that belongs to a program, or a reference to a global. -/
def Owns (p : Program) (K : Node) : Prop := K.global? = none → K ∈ p.nodes

theorem Keyed.closed {p : Program} (hp : p.Keyed) : p.scene.Closed p.Owns where
  needs {K A} hK hA hglobal := by
    cases hsort : K.global? with
    | none =>
      obtain ⟨d, hd, hmem⟩ := mem_flatMap.mp (hK hsort)
      exact mem_flatMap.mpr ⟨d, hd, Value.mem_nodesAll_of_needs hA hsort hglobal _ hmem⟩
    | some =>
      cases hA with
      | content hg =>
        have hmem := mem_all_global.mpr (Array.mem_of_getElem? hg)
        refine mem_flatMap.mpr ⟨_, hmem, ?_⟩
        exact Value.mem_nodesAll_of_mem mem_cons_self
      | link | call | arg => cases hsort
  distinct hK hA hkey := Node.eq_of_key_eq hp hK hA hkey

theorem scene_lists (p : Program) : p.scene.Lists p.globals.toList where
  length_le := Nat.le_of_eq p.globals.length_toList
  complete hg := Array.mem_toList_iff.mpr (Array.mem_of_getElem? hg)

/-- **Remembering is invisible.**  Any sequence of questions for globals, values and calls of a
program is answered in one memory as each question is answered alone, and this is by the constant
that evaluation without a memory derives, or by none if it derives none.  The evaluation with a
memory ends by itself, for every question: the bound on the number of globals is never met. -/
theorem answers_eq (p : Program) (queries : List Node) (hp : p.Keyed)
    (hqueries : ∀ K ∈ queries, p.Owns K) :
    (∃ depth, (queries.mapM (p.scene.remembering depth)).run {} =
        some ((queries.mapM p.scene.ask).run {})) ∧
      ((queries.mapM p.scene.ask).run {}).1 = queries.map p.scene.fresh ∧
      ∀ K ∈ queries, ∀ c, p.scene.fresh K = some c ↔ p.scene.Derives K c := by
  obtain ⟨hanswers, hends⟩ := Scene.mapM_ask_settled hp.closed p.scene_lists queries hqueries
    (Scene.consistent_empty p.scene p.Owns)
  exact ⟨hends, hanswers, fun K hK =>
    Scene.fresh_eq_some_iff hp.closed p.scene_lists (hqueries K hK)⟩

/-- Two globals that depend on each other, and one that need not look at them. -/
def cycleSample : Entry :=
  .source ⟨"a", "(constglobal s a(+ b 1))(constglobal s b(+ a 1))(constglobal s c(or true a))"⟩

set_option maxRecDepth 20000 in
/-- Two globals that depend on each other have no value, and one that need not look at them has.
They are asked one after another, and each is answered as if it came first. -/
theorem answers_cycleSample :
    let p := (load {} {} {} cycleSample).program
    let queries := .global ⟨"b", 1⟩ :: .global ⟨"a", 0⟩ :: .global ⟨"c", 2⟩ :: p.nodes
    (p.Keyed ∧ ∀ K ∈ queries, p.Owns K) ∧
      ((queries.mapM p.scene.ask).run {}).1 = queries.map p.scene.fresh ∧
      (∀ c, ¬ p.scene.Derives (.global ⟨"a", 0⟩) c) ∧
      p.scene.Derives (.global ⟨"c", 2⟩) (.bool true) := by
  have hkeyed : (load {} {} {} cycleSample).program.Keyed :=
    (loaded_numbered {} {} cycleSample).keyed
  have hvalues : (fun p : Program => p.scene.fresh (.global ⟨"a", 0⟩) == none &&
      p.scene.fresh (.global ⟨"c", 2⟩) == some (.bool true))
      (load {} {} {} cycleSample).program = true := by cbv
  simp only [Bool.and_eq_true, beq_iff_eq] at hvalues
  intro p queries
  have howns : ∀ K ∈ queries, p.Owns K := by
    intro K hK hglobal
    simp only [queries, mem_cons] at hK
    rcases hK with rfl | rfl | rfl | hK
    · simp [Node.global?] at hglobal
    · simp [Node.global?] at hglobal
    · simp [Node.global?] at hglobal
    · exact hK
  obtain ⟨-, hanswers, hderives⟩ := answers_eq p queries hkeyed howns
  refine ⟨⟨hkeyed, howns⟩, hanswers, fun c hc => ?_,
    (hderives _ (by simp [queries]) _).mp hvalues.2⟩
  rw [← hderives _ (by simp [queries]), hvalues.1] at hc
  simp at hc

end Program

end HaloScript
