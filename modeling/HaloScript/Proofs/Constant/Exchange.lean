/-
# Constants rest on constants

Let `s` be a value that is not constant, anywhere in a program.  Its content may be anything: if it
is exchanged for any other content, then every global, value and call that was constant before is
constant after it, and its value is the same (`Program.exchange_keeps_constants`).  Parts that are
not looked at, such as the branch of an `if` that is not taken, may contain `s`, and so may a global
that a constant does not depend on.

The reason is again that evaluation is strict: a node that a derivation comes upon has a derivation
itself, so `s` is in none.  The exchange changes no other node but in its parts, so every level of
the derivation goes through as before (`Exchange.unfold_node`).

The converse is wrong, since `s` may become constant and others with it.
-/
import HaloScript.Proofs.Constant.Memo

namespace HaloScript

open List

/-! ## 1. Exchanging the content of a value -/

@[simp] theorem Value.tag_withTag (v : Value) (t : Tag) : (v.withTag t).tag = t := by
  cases v <;> rfl

/-- Other content for the value of a number. -/
structure Exchange where
  id : NodeId
  content : Value

namespace Exchange

mutual

/-- The value after the exchange.  A value that is given other content keeps its number and its
place. -/
def value (x : Exchange) : Value → Value
  | .leaf t l => if t.id = x.id then x.content.withTag t else .leaf t l
  | .call t h args => if t.id = x.id then x.content.withTag t else .call t h (values x args)

def values (x : Exchange) : List Value → List Value
  | [] => []
  | v :: rest => value x v :: values x rest

end

def node (x : Exchange) : Node → Node
  | .global id => .global id
  | .value v => .value (x.value v)
  | .call h args => .call h (x.values args)

def program (x : Exchange) (p : Program) : Program :=
  { p with
    globals := p.globals.map fun g => { g with value := x.value g.value }
    scripts := p.scripts.map fun s => { s with body := x.values s.body } }

variable {x : Exchange} {p : Program}

theorem values_eq_map (vs : List Value) : x.values vs = vs.map x.value := by
  induction vs with
  | nil => rfl
  | cons v rest ih => rw [values, ih, map_cons]

theorem value_of_eq {v : Value} (h : v.id = x.id) : x.value v = x.content.withTag v.tag := by
  cases v with
  | leaf =>
    rw [value]
    exact if_pos h
  | call =>
    rw [value]
    exact if_pos h

theorem value_leaf {t : Tag} (h : t.id ≠ x.id) (l : Leaf) : x.value (.leaf t l) = .leaf t l := by
  rw [value, if_neg h]

theorem value_call {t : Tag} (h : t.id ≠ x.id) (head : Head) (args : List Value) :
    x.value (.call t head args) = .call t head (x.values args) := by
  rw [value, if_neg h]

theorem id_value (v : Value) : (x.value v).id = v.id := by
  by_cases h : v.id = x.id
  · rw [value_of_eq h, Value.id, Value.tag_withTag, Value.id]
  · cases v with
    | leaf t => rw [value_leaf (t := t) h]
    | call t =>
      rw [value_call (t := t) h]
      rfl

theorem key_node (K : Node) : (x.node K).key = K.key := by
  cases K with
  | value => rw [node, Node.key, id_value, Node.key]
  | global | call => rfl

theorem global?_program (id : GlobalId) : (x.program p).global? id =
    (p.global? id).map fun g => { g with value := x.value g.value } :=
  Array.getElem?_map ..

/-! ## 2. Levels of evaluation -/

/-- **A level of evaluation after the exchange** is the same level with other nodes below, except
at the value whose content is exchanged. -/
theorem unfold_node {m : Type → Type} [Monad m] (f : Node → m (Option Const)) {K : Node}
    (hK : K.key ≠ .value x.id) : (x.program p).scene.unfold f (x.node K) =
      p.scene.unfold (fun A => f (x.node A)) K := by
  match K with
  | .global id =>
    simp only [node, Scene.unfold, Program.scene, global?_program]
    cases p.global? id <;> rfl
  | .value (.leaf t l) =>
    have hid : t.id ≠ x.id := fun h => hK (congrArg MemoKey.value h)
    rw [node, value_leaf hid]
    cases l <;> rfl
  | .value (.call t h args) =>
    have hid : t.id ≠ x.id := fun h => hK (congrArg MemoKey.value h)
    rw [node, value_call hid]
    rfl
  | .call h args =>
    simp only [node, Scene.unfold, values_eq_map, map_map, Function.comp_def]

variable {s : Value}

/-- **A derivation does not need what has none.**  By induction on its depth. -/
theorem derives_node (hp : p.Keyed) (hs : .value s ∈ p.nodes) (hx : x.id = s.id)
    (hnone : ∀ c, ¬ p.scene.Derives (.value s) c) {K : Node} (hK : p.Owns K) {c : Const}
    (hc : p.scene.Derives K c) : (x.program p).scene.Derives (x.node K) c := by
  obtain ⟨n, hn⟩ := hc
  refine ⟨n, ?_⟩
  induction n generalizing K c with
  | zero => simp [Scene.plain] at hn
  | succ n ih =>
    have hkey : K.key ≠ .value x.id := by
      intro hkey
      have howns : p.Owns (.value s) := fun _ => hs
      obtain rfl : K = .value s := hp.closed.distinct hK howns (hkey.trans (by rw [hx]; rfl))
      exact hnone c ⟨n + 1, hn⟩
    obtain ⟨d, hd⟩ := p.scene.exists_unfolds K
    rw [Scene.plain, hd] at hn
    rw [Scene.plain, unfold_node _ hkey, hd]
    exact d.run_mono_some (fun A a ha => ih (hp.closed.needs hK A.2) ha) hn

/-! ## 3. Nodes after the exchange -/

/-- The nodes of the content, in the place of that of the value `s`. -/
def nodes (x : Exchange) (s : Value) : List Node := (x.content.withTag s.tag).nodes

/-- All nodes after the exchange, also those that are no longer in the program. -/
def allNodes (x : Exchange) (p : Program) (s : Value) : List Node :=
  p.nodes.map x.node ++ x.nodes s

/-- The content can take the place of that of the value `s`: no node of it has the number of
another node.  Nodes that are in the program already may be part of it. -/
def Fits (x : Exchange) (p : Program) (s : Value) : Prop :=
  x.id = s.id ∧ ∀ K ∈ x.nodes s, ∀ A ∈ x.allNodes p s, K.key = A.key → K = A

/-- A node after the exchange, or a reference to a global. -/
def Owns (x : Exchange) (p : Program) (s : Value) (K : Node) : Prop :=
  K.global? = none → K ∈ x.allNodes p s

theorem owns_node {K : Node} (hK : p.Owns K) : x.Owns p s (x.node K) := by
  intro hsort
  have hmem : K ∈ p.nodes := hK (by cases K <;> simp_all [node, Node.global?])
  exact mem_append_left _ (mem_map_of_mem hmem)

/-- What a node of the program needs after the exchange.  The value itself has the new content. -/
theorem owns_of_needs_node (hp : p.Keyed) (hs : .value s ∈ p.nodes) (hx : x.id = s.id) {K A : Node}
    (hK : p.Owns K) (hA : (x.program p).scene.Needs (x.node K) A) : x.Owns p s A := by
  have hneeds : ∀ {B : Node}, p.scene.Needs K B → x.Owns p s (x.node B) := fun hB =>
    owns_node (hp.closed.needs hK hB)
  by_cases hkey : K.key = .value x.id
  · have howns : p.Owns (.value s) := fun _ => hs
    obtain rfl : K = .value s := hp.closed.distinct hK howns (hkey.trans (by rw [hx]; rfl))
    rw [node, value_of_eq hx.symm] at hA
    exact fun hglobal => mem_append_right _
      (Value.mem_nodes_of_needs hA rfl hglobal (Value.mem_nodes_self _))
  · match K with
    | .global id =>
      cases hA with
      | content hg =>
        obtain ⟨g', hg', rfl⟩ := Option.map_eq_some_iff.mp ((global?_program id).symm.trans hg)
        exact hneeds (.content hg')
    | .value (.leaf t l) =>
      have hid : t.id ≠ x.id := fun h => hkey (congrArg MemoKey.value h)
      rw [node, value_leaf hid] at hA
      cases hA with
      | link t g => exact hneeds (.link t g)
    | .value (.call t h args) =>
      have hid : t.id ≠ x.id := fun h => hkey (congrArg MemoKey.value h)
      rw [node, value_call hid] at hA
      cases hA with
      | call => exact hneeds (.call t h args)
    | .call h args =>
      rw [node, values_eq_map] at hA
      cases hA with
      | arg _ hv =>
        obtain ⟨v, hmem, rfl⟩ := mem_map.mp hv
        exact hneeds (.arg h hmem)

/-- **After the exchange a key belongs to one node.** -/
theorem closed_program (hp : p.Keyed) (hs : .value s ∈ p.nodes) (hx : x.Fits p s) :
    (x.program p).scene.Closed (x.Owns p s) where
  needs {K A} hK hA := by
    cases hsort : K.global? with
    | some id =>
      obtain rfl := Node.eq_global hsort
      exact owns_of_needs_node (K := .global id) hp hs hx.1 (fun h => nomatch h) hA
    | none =>
      rcases mem_append.mp (hK hsort) with hmem | hmem
      · obtain ⟨B, hB, rfl⟩ := mem_map.mp hmem
        exact owns_of_needs_node hp hs hx.1 (fun _ => hB) hA
      · exact fun hglobal => mem_append_right _
          (Value.mem_nodes_of_needs hA hsort hglobal hmem)
  distinct := by
    refine Node.eq_of_key_eq fun K hK A hA hkey => ?_
    rcases mem_append.mp hK with hmem | hmem
    · rcases mem_append.mp hA with hmem' | hmem'
      · obtain ⟨B, hB, rfl⟩ := mem_map.mp hmem
        obtain ⟨B', hB', rfl⟩ := mem_map.mp hmem'
        rw [key_node, key_node] at hkey
        rw [hp B hB B' hB' hkey]
      · exact (hx.2 A hmem' K hK hkey.symm).symm
    · exact hx.2 K hmem A hA hkey

/-- Content whose nodes have new numbers fits everywhere. -/
theorem fits_of_new (hn : p.Numbered) (hs : .value s ∈ p.nodes) {t : Tag} {h : Head}
    {args : List Value} (hnew : ∀ i ∈ h.id :: Value.numbers args, p.nextNode ≤ i)
    (hnodup : (h.id :: Value.numbers args).Nodup) : Fits ⟨s.id, .call t h args⟩ p s := by
  let below : List Node := .call h args :: Value.nodesAll args
  have hold : ∀ B ∈ p.nodes, ∀ A ∈ below, B.key ≠ A.key := by
    intro B hB A hA hkey
    have hlt := hn.below B hB
    have hle := hnew A.number (mem_map_of_mem (f := Node.number) hA)
    rw [Node.number_eq_of_key hkey] at hlt
    exact absurd hlt (Nat.not_lt.mpr hle)
  have hmain : ∀ K ∈ nodes ⟨s.id, .call t h args⟩ s, ∀ B ∈ p.nodes,
      K.key = B.key → K = node ⟨s.id, .call t h args⟩ B := by
    intro K hK B hB hkey
    rcases mem_cons.mp hK with rfl | hK
    · obtain rfl : .value s = B := hn.distinct hs hB hkey
      exact congrArg Node.value (value_of_eq (x := ⟨s.id, .call t h args⟩) (v := s) rfl).symm
    · exact absurd hkey.symm (hold B hB K hK)
  refine ⟨rfl, fun K hK A hA hkey => ?_⟩
  rcases mem_append.mp hA with hA | hA
  · obtain ⟨B, hB, rfl⟩ := mem_map.mp hA
    exact hmain K hK B hB (hkey.trans (key_node B))
  · rcases mem_cons.mp hK with rfl | hK
    · rcases mem_cons.mp hA with rfl | hA
      · rfl
      · exact absurd hkey (hold _ hs A hA)
    · rcases mem_cons.mp hA with rfl | hA
      · exact absurd hkey.symm (hold _ hs K hK)
      · exact inj_on_of_nodup_map (f := Node.number) (l := below) hnodup hK hA
          (Node.number_eq_of_key hkey)

end Exchange

/-- **Constants do not depend on parts that are not constant.**  Where a value of a program is not
constant, its content can be exchanged for any other, and every node that was constant is evaluated
to the same constant after it. -/
theorem Program.exchange_keeps_constants (p : Program) (hp : p.Keyed) (s : Value)
    (hs : .value s ∈ p.nodes) (hnone : p.scene.fresh (.value s) = none) (x : Exchange)
    (hx : x.Fits p s) (K : Node) (hK : p.Owns K) (c : Const) (hc : p.scene.fresh K = some c) :
    (x.program p).scene.fresh (x.node K) = some c := by
  have hiff : ∀ {A : Node}, p.Owns A → ∀ c, p.scene.fresh A = some c ↔ p.scene.Derives A c :=
    fun hA c => Scene.fresh_eq_some_iff hp.closed p.scene_lists hA c
  have hderives := Exchange.derives_node hp hs hx.1
    (fun c hc => by simpa [hnone] using (hiff (fun _ => hs) c).mpr hc) hK ((hiff hK c).mp hc)
  exact (Scene.fresh_eq_some_iff (Exchange.closed_program hp hs hx) (scene_lists _)
    (Exchange.owns_node hK) c).mpr hderives

namespace Program

/-- A global that is constant although it refers to one that is not. -/
def exchangeSample : Entry := .source ⟨"a", "(constglobal s a(or true b))(constglobal s b(f))"⟩

/-- A call that is constant, in the place of a value. -/
def constantFor (s : Value) : Exchange :=
  ⟨s.id, .call ⟨0, none⟩ ⟨6, none, .word "or" none, false⟩ [.leaf ⟨7, none⟩ (.atom "true")]⟩

set_option maxRecDepth 20000 in
/-- The hypotheses can be met: a value without a constant is exchanged for one that has one, and the
global that did not need it keeps its value. -/
theorem exchange_keeps_constants_sample :
    let p := (load {} {} {} exchangeSample).program
    ∃ s, (p.Keyed ∧ .value s ∈ p.nodes ∧ p.scene.fresh (.value s) = none ∧
        (constantFor s).Fits p s ∧ p.scene.fresh (.global ⟨"a", 0⟩) = some (.bool true)) ∧
      ((constantFor s).program p).scene.fresh (.global ⟨"a", 0⟩) = some (.bool true) ∧
      ((constantFor s).program p).scene.fresh (.global ⟨"b", 1⟩) ≠ none := by
  have hvalues : (fun p : Program => p.nextNode == 6 &&
      p.scene.fresh (.global ⟨"a", 0⟩) == some (.bool true) &&
      (p.global? ⟨"b", 1⟩).any fun g => p.scene.fresh (.value g.value) == none &&
        ((constantFor g.value).program p).scene.fresh (.global ⟨"b", 1⟩) != none)
      (load {} {} {} exchangeSample).program = true := by cbv
  simp only [Bool.and_eq_true, beq_iff_eq, bne_iff_ne, Option.any_eq_true] at hvalues
  obtain ⟨⟨hnext, ha⟩, g, hg, hnone, hb⟩ := hvalues
  intro p
  have hn : p.Numbered := loaded_numbered {} {} exchangeSample
  have howns : ∀ id, p.Owns (.global id) := fun id h => absurd h (Option.some_ne_none id)
  have hs : .value g.value ∈ p.nodes :=
    hn.keyed.closed.needs (K := .global ⟨"b", 1⟩) (howns _) (.content hg) rfl
  have hfits : (constantFor g.value).Fits p g.value := by
    refine Exchange.fits_of_new hn hs ?_ (by decide)
    rw [hnext]
    decide
  exact ⟨g.value, ⟨hn.keyed, hs, hnone, hfits, ha⟩, exchange_keeps_constants p hn.keyed g.value hs
    hnone _ hfits (.global ⟨"a", 0⟩) (howns _) _ ha, hb⟩

end Program

end HaloScript
