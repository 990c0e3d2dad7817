/-
# Some of the constants

A scene can be left with some of its globals only (`Scene.only`).  What follows from globals that
are all kept follows from them alone (`Scene.Derives.only`).
-/
import HaloScript.Proofs.Constant.Memo

namespace HaloScript

namespace Scene

variable {scene : Scene} {tree : Node → Prop} {K : Node} {globals : List Global}

/-- The scene with no other globals than those that are kept. -/
def only (scene : Scene) (keep : GlobalId → Bool) : Scene :=
  { scene with global? := fun id => if keep id then scene.global? id else none }

variable {keep : GlobalId → Bool}

theorem only_global?_eq_some {id : GlobalId} {g : Global} :
    (scene.only keep).global? id = some g ↔ keep id = true ∧ scene.global? id = some g := by
  simp [only]

theorem Needs.of_only {A : Node} (h : (scene.only keep).Needs K A) : scene.Needs K A := by
  cases h with
  | content hg => exact .content (only_global?_eq_some.mp hg).2
  | link t g => exact .link t g
  | call t head args => exact .call t head args
  | arg head hv => exact .arg head hv

theorem Closed.only (htree : scene.Closed tree) : (scene.only keep).Closed tree where
  needs hK hA := htree.needs hK hA.of_only
  distinct := htree.distinct

theorem Lists.only (h : scene.Lists globals) : (scene.only keep).Lists globals where
  length_le := h.length_le
  complete hg := h.complete (only_global?_eq_some.mp hg).2

/-- **What follows from globals that are all kept** follows from them alone.  By induction on the
derivation. -/
theorem Derives.only (htree : ∀ {K A}, tree K → scene.Needs K A → tree A)
    (hkeep : ∀ id c, tree (.global id) → scene.Derives (.global id) c → keep id = true) {c : Const}
    (hK : tree K) (hc : scene.Derives K c) : (scene.only keep).Derives K c := by
  obtain ⟨n, hn⟩ := hc
  refine ⟨n, ?_⟩
  induction n generalizing K c with
  | zero => simp [plain] at hn
  | succ n ih =>
    have hup : (scene.only keep).unfold (scene.plain n) K = some (some c) := by
      cases hsort : K.global? with
      | none => rwa [unfold_eq_of_not_global _ scene _ hsort]
      | some id =>
        obtain rfl := Node.eq_global hsort
        have hkept := hkeep id c hK ⟨n + 1, hn⟩
        rw [plain] at hn
        simpa [unfold, Scene.only, hkept] using hn
    obtain ⟨d, hd⟩ := (scene.only keep).exists_unfolds K
    rw [hd] at hup
    rw [plain, hd]
    -- each question is about a node of the tree
    have hsome : ∀ A : { A // (scene.only keep).Needs K A }, ∀ a,
        scene.plain n A.1 = some (some a) → (scene.only keep).plain n A.1 = some (some a) :=
      fun A a ha => ih (htree hK A.2.of_only) ha
    exact d.run_mono_some hsome hup

end Scene

end HaloScript
