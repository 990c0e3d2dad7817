/-
# Derivations

The value of an expression is what evaluation gives that remembers nothing, if it ends
(`Scene.Derives`).  One level of it is a tree of questions for the nodes of the next level
(`Scene.exists_unfolds`), whatever answers the questions.

Evaluation is strict, so a derivation of a node has a shorter one of every node that it comes upon
(`Scene.Leads`), and nothing that depends on itself is constant.  For the same reason an expression
that has a value among fewer constant globals has this value among more (`Scene.Derives.mono`).
-/
import HaloScript.Lowering.Folding
import HaloScript.Proofs.Constant.Strict
import HaloScript.Proofs.Numbering

namespace HaloScript

/-! ## 1. Evaluation without a memory -/

/-- The size of a node, up to references. -/
def Node.weight : Node → Nat
  | .global _ => 0
  | .value v => 2 * v.nodeCount
  | .call _ args => 2 * Value.nodeCountAll args + 1

namespace Scene

/-- One level of evaluation, in any monad; `x` evaluates the nodes of the next level. -/
def unfold (scene : Scene) {m : Type → Type} [Monad m] (x : Node → m (Option Const)) :
    Node → m (Option Const)
  | .global id =>
    match scene.global? id with
    | none => return none
    | some g => if g.isConst then x (.value g.value) else return none
  | .value (.leaf _ .blank) => return none
  | .value (.leaf _ (.atom t)) => return some (.atom t)
  | .value (.leaf _ (.global g)) => x (.global g)
  | .value (.leaf _ (.script s)) => return some (.atom s.name)
  | .value (.call _ h args) => x (.call h args)
  | .call h args =>
    match h.callee with
    | .script _ => return none
    | .word name _ =>
      if h.clause then return none
      else match Builtin.ofName? name with
        | none => return none
        | some f => f.apply (args.map fun v => x (.value v))

/-- Recursive evaluation that remembers nothing; `none` if it is not finished after `depth`
levels. -/
def plain (scene : Scene) : Nat → Node → Option (Option Const)
  | 0, _ => none
  | depth + 1, node => scene.unfold (scene.plain depth) node

/-- Evaluation that remembers nothing ends with a constant: it has a finite derivation. -/
def Derives (scene : Scene) (node : Node) (c : Const) : Prop :=
  ∃ depth, scene.plain depth node = some (some c)

/-- The nodes of the next level. -/
inductive Needs (scene : Scene) : Node → Node → Prop
  | content {id : GlobalId} {g : Global} (h : scene.global? id = some g) :
    Needs scene (.global id) (.value g.value)
  | link (t : Tag) (g : GlobalId) : Needs scene (.value (.leaf t (.global g))) (.global g)
  | call (t : Tag) (h : Head) (args : List Value) :
    Needs scene (.value (.call t h args)) (.call h args)
  | arg (h : Head) {args : List Value} {v : Value} (hv : v ∈ args) :
    Needs scene (.call h args) (.value v)

variable {scene : Scene}

theorem Needs.weight_lt {K A : Node} (h : scene.Needs K A) (hK : K.global? = none) :
    A.weight < K.weight := by
  cases h with
  | content => simp [Node.global?] at hK
  | link =>
    simp only [Node.weight, Value.nodeCount]
    omega
  | call =>
    simp only [Node.weight, Value.nodeCount]
    omega
  | arg h hv =>
    have hle := Folding.nodeCount_lt_of_mem hv
    simp only [Node.weight]
    omega

/-- The decision tree is one level of evaluation. -/
def Unfolds (scene : Scene) {K : Node} (d : Decision { A // scene.Needs K A }) : Prop :=
  ∀ (m : Type → Type) [Monad m] [LawfulMonad m] (x : Node → m (Option Const)),
    scene.unfold x K = d.run fun A => x A.1

/-- **Every level is a decision tree** over the nodes of the next. -/
theorem exists_unfolds (scene : Scene) (K : Node) :
    ∃ d : Decision { A // scene.Needs K A }, scene.Unfolds d := by
  have hdone : ∀ r : Option Const, (∀ (m : Type → Type) [Monad m] (x : Node → m (Option Const)),
      scene.unfold x K = pure r) → ∃ d : Decision { A // scene.Needs K A }, scene.Unfolds d :=
    fun r h => ⟨.done r, fun m _ _ x => h m x⟩
  have hsingle : ∀ A : { A // scene.Needs K A }, (∀ (m : Type → Type) [Monad m]
      (x : Node → m (Option Const)), scene.unfold x K = x A.1) →
      ∃ d : Decision { A // scene.Needs K A }, scene.Unfolds d :=
    fun A h => ⟨.single A, fun m _ _ x => (h m x).trans (Decision.run_single A fun A => x A.1).symm⟩
  match K with
  | .value (.leaf _ .blank) => exact hdone none fun _ _ _ => rfl
  | .value (.leaf _ (.atom t)) => exact hdone (some (.atom t)) fun _ _ _ => rfl
  | .value (.leaf _ (.script s)) => exact hdone (some (.atom s.name)) fun _ _ _ => rfl
  | .value (.leaf t (.global g)) => exact hsingle ⟨_, .link t g⟩ fun _ _ _ => rfl
  | .value (.call t h args) => exact hsingle ⟨_, .call t h args⟩ fun _ _ _ => rfl
  | .global id =>
    cases hg : scene.global? id with
    | none => exact hdone none fun _ _ _ => by simp [unfold, hg]
    | some g =>
      cases hconst : g.isConst with
      | false => exact hdone none fun _ _ _ => by simp [unfold, hg, hconst]
      | true => exact hsingle ⟨_, .content hg⟩ fun _ _ _ => by simp [unfold, hg, hconst]
  | .call h args =>
    cases hcallee : h.callee with
    | script => exact hdone none fun _ _ _ => by simp [unfold, hcallee]
    | word name =>
      cases hclause : h.clause with
      | true => exact hdone none fun _ _ _ => by simp [unfold, hcallee, hclause]
      | false =>
        cases hf : Builtin.ofName? name with
        | none => exact hdone none fun _ _ _ => by simp [unfold, hcallee, hclause, hf]
        | some f =>
          -- every argument comes with the proof that it is one
          let need : { v // v ∈ args } → { A // scene.Needs (.call h args) A } := fun v =>
            ⟨.value v.1, .arg h v.2⟩
          obtain ⟨d, hd, -⟩ := f.apply_strict (args.attach.map need)
          refine ⟨d, fun m _ _ x => Eq.trans ?_ (hd m fun A => x A.1)⟩
          simp [unfold, hcallee, hclause, hf, need, Function.comp_def]

end Scene

/-! ## 2. Derivations -/

namespace Decision

variable {ι : Type}

theorem run_ask_eq_some {x : ι → Option (Option Const)} {i : ι} {next : Const → Decision ι}
    {c : Const} (h : (ask i next).run x = some (some c)) :
    ∃ a, x i = some (some a) ∧ (next a).run x = some (some c) := by
  rw [run_ask] at h
  obtain ⟨r, hr, h⟩ := Option.bind_eq_some_iff.mp h
  cases r with
  | none => simp [after] at h
  | some a => exact ⟨a, hr, h⟩

theorem run_mono {x y : ι → Option (Option Const)} (h : ∀ i r, x i = some r → y i = some r)
    (d : Decision ι) {r : Option Const} (hr : d.run x = some r) : d.run y = some r := by
  induction d with
  | done => exact hr
  | ask i next ih =>
    rw [run_ask] at hr ⊢
    obtain ⟨a, ha, hr⟩ := Option.bind_eq_some_iff.mp hr
    refine Option.bind_eq_some_iff.mpr ⟨a, h i a ha, ?_⟩
    cases a with
    | none => exact hr
    | some a => exact ih a hr

/-- A tree that ends with a constant has had an answer to every question, so it needs no others. -/
theorem run_mono_some {x y : ι → Option (Option Const)}
    (h : ∀ i c, x i = some (some c) → y i = some (some c)) (d : Decision ι) {c : Const}
    (hc : d.run x = some (some c)) : d.run y = some (some c) := by
  induction d with
  | done => exact hc
  | ask i next ih =>
    obtain ⟨a, ha, hc⟩ := run_ask_eq_some hc
    rw [run_ask, h i a ha]
    exact ih a hc

theorem run_join {x : ι → Option (Option Const)} (d : Decision ι) {c : Const}
    (hc : d.run x = some (some c)) : d.run (m := Id) (fun i => (x i).join) = some c := by
  induction d with
  | done => exact Option.some.inj hc
  | ask i next ih =>
    obtain ⟨a, ha, hc⟩ := run_ask_eq_some hc
    rw [run_ask, ha]
    exact ih a hc

end Decision

namespace Scene

variable {scene : Scene} {K : Node}

theorem plain_succ {n : Nat} {r : Option Const} (h : scene.plain n K = some r) :
    scene.plain (n + 1) K = some r := by
  induction n generalizing K r with
  | zero => simp [plain] at h
  | succ n ih =>
    obtain ⟨d, hd⟩ := scene.exists_unfolds K
    rw [plain, hd] at h ⊢
    exact d.run_mono (fun A r hr => ih hr) h

theorem plain_mono {n n' : Nat} (hn : n ≤ n') {r : Option Const} (h : scene.plain n K = some r) :
    scene.plain n' K = some r := by
  induction hn with
  | refl => exact h
  | step _ ih => exact plain_succ ih

/-- Whatever derivation the first node has, the second one has a shorter one. -/
def Leads (scene : Scene) (K A : Node) : Prop :=
  ∀ n c, scene.plain n K = some (some c) → ∃ n' < n, ∃ c', scene.plain n' A = some (some c')

theorem Leads.trans {K A B : Node} (h : scene.Leads K A) (h' : scene.Leads A B) :
    scene.Leads K B := by
  intro n c hc
  obtain ⟨n', hlt, c', hc'⟩ := h n c hc
  obtain ⟨n'', hlt', hc''⟩ := h' n' c' hc'
  exact ⟨n'', Nat.lt_trans hlt' hlt, hc''⟩

/-- **What depends on itself is not constant.** -/
theorem Leads.not_derives (h : scene.Leads K K) (c : Const) : ¬ scene.Derives K c := by
  rintro ⟨n, hn⟩
  induction n using Nat.strongRecOn generalizing c with
  | ind n ih =>
    obtain ⟨n', hlt, c', hc'⟩ := h n c hn
    exact ih n' hlt c' hc'

variable {scene' : Scene} {c : Const}

/-! ## 3. Derivations level by level -/

/-- What has a derivation has one at some depth that serves for all answers of a tree. -/
theorem exists_run_plain (d : Decision { A // scene.Needs K A }) {x : Node → Option Const}
    (hx : ∀ A, scene.Needs K A → ∀ a, x A = some a → scene'.Derives A a)
    (hc : d.run (m := Id) (fun A => x A.1) = some c) :
    ∃ n, d.run (fun A => scene'.plain n A.1) = some (some c) := by
  induction d with
  | done => exact ⟨0, congrArg some hc⟩
  | ask i next ih =>
    rw [Decision.run_ask] at hc
    cases ha : x i.1 with
    | none =>
      have hnone : Decision.after (m := Id) (fun A => x A.1) next (x i.1) = some c := hc
      rw [ha] at hnone
      cases hnone
    | some a =>
      have hsome : Decision.after (m := Id) (fun A => x A.1) next (x i.1) = some c := hc
      rw [ha] at hsome
      obtain ⟨n, hn⟩ := ih a hsome
      obtain ⟨n', hn'⟩ := hx i.1 i.2 a ha
      refine ⟨max n n', ?_⟩
      rw [Decision.run_ask, plain_mono (Nat.le_max_right n n') hn']
      exact (next a).run_mono (fun A r hr => plain_mono (Nat.le_max_left n n') hr) hn

/-- **A node has a derivation if the level above it, run on derived constants, has a result.** -/
theorem derives_of_unfold {x : Node → Option Const}
    (hx : ∀ A, scene.Needs K A → ∀ a, x A = some a → scene.Derives A a)
    (hc : scene.unfold (m := Id) x K = some c) : scene.Derives K c := by
  obtain ⟨d, hd⟩ := scene.exists_unfolds K
  rw [hd] at hc
  obtain ⟨n, hn⟩ := exists_run_plain d hx hc
  exact ⟨n + 1, by rwa [plain, hd]⟩

/-- A derivation ends with a level run on the constants that were derived before. -/
theorem unfold_of_plain {n : Nat} (h : scene.plain (n + 1) K = some (some c)) :
    scene.unfold (m := Id) (fun A => (scene.plain n A).join) K = some c := by
  obtain ⟨d, hd⟩ := scene.exists_unfolds K
  rw [plain, hd] at h
  rw [hd]
  exact d.run_join h

/-- **Evaluation gives words, truth values and representable reals.** -/
theorem Derives.computed {K : Node} {c : Const} (h : scene.Derives K c) : c.Computed := by
  obtain ⟨n, hn⟩ := h
  induction n generalizing K c with
  | zero => simp [plain] at hn
  | succ n ih =>
    have hup := unfold_of_plain hn
    have hjoin : ∀ {A : Node} {a : Const}, (scene.plain n A).join = some a → a.Computed :=
      fun ha => ih (Option.join_eq_some_iff.mp ha)
    cases K with
    | value v =>
      cases v with
      | leaf _ l =>
        cases l with
        | blank => cases hup
        | atom =>
          obtain rfl := Option.some.inj hup
          trivial
        | script =>
          obtain rfl := Option.some.inj hup
          trivial
        | global => exact hjoin hup
      | call => exact hjoin hup
    | global =>
      simp only [unfold] at hup
      split at hup
      · cases hup
      · split at hup
        · exact hjoin hup
        · cases hup
    | call h args =>
      simp only [unfold] at hup
      split at hup
      · cases hup
      · split at hup
        · cases hup
        · split at hup
          · cases hup
          · next f _ =>
            -- a list of constants that are computed reflects itself
            have hargs : List.Forall₂ Const.Reflects
                (args.map fun v => (scene.plain n (.value v)).join)
                (args.map fun v => (scene.plain n (.value v)).join) :=
              List.forall₂_same.mpr fun x hx c' hc' => by
                obtain ⟨v, -, rfl⟩ := List.mem_map.mp hx
                exact ⟨c', hc', (hjoin hc').written⟩
            obtain ⟨c', hc', hwritten⟩ := f.apply_reflects hargs
              (fun _ x y x' y' h h' e he => by
                obtain ⟨rfl, rfl⟩ : x = x' ∧ y = y' := by simpa [h] using h'
                exact he) c hup
            obtain rfl := Option.some.inj (hc'.symm.trans hup)
            exact hwritten.computed

/-! ## 4. Scenes with fewer constants -/

/-- Every constant global of the first scene is the same in the second. -/
def Below (scene scene' : Scene) : Prop :=
  ∀ id g, scene.global? id = some g → g.isConst = true → scene'.global? id = some g

theorem unfold_eq_of_not_global (scene scene' : Scene) {m : Type → Type} [Monad m]
    (x : Node → m (Option Const)) (hK : K.global? = none) :
    scene.unfold x K = scene'.unfold x K := by
  match K with
  | .global id => cases hK
  | .value (.leaf _ l) => cases l <;> rfl
  | .value (.call _ _ _) => rfl
  | .call _ _ => rfl

theorem Below.unfold_eq_some (h : scene.Below scene') {x : Node → Option (Option Const)}
    (hc : scene.unfold x K = some (some c)) : scene'.unfold x K = some (some c) := by
  cases hsort : K.global? with
  | none => rwa [unfold_eq_of_not_global scene' scene x hsort]
  | some id =>
    obtain rfl := Node.eq_global hsort
    simp only [unfold] at hc ⊢
    split at hc
    · cases hc
    · next g hg =>
      split at hc
      · next hconst =>
        simp only [h id g hg hconst, hconst, if_true]
        exact hc
      · cases hc

/-- **An expression that has a value among fewer constants has it among more.** -/
theorem Derives.mono (h : scene.Below scene') (hc : scene.Derives K c) : scene'.Derives K c := by
  obtain ⟨n, hn⟩ := hc
  refine ⟨n, ?_⟩
  induction n generalizing K c with
  | zero => simp [plain] at hn
  | succ n ih =>
    have hup := h.unfold_eq_some hn
    obtain ⟨d, hd⟩ := scene'.exists_unfolds K
    rw [hd] at hup
    rw [plain, hd]
    exact d.run_mono_some (fun A c hc => ih hc) hup

end Scene

end HaloScript
