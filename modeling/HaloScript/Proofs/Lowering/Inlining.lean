/-
# Inlining constant globals

Folding constant globals puts literals in the place of references and does nothing else to
values (`Value.Inlined`).  A literal is read again when it is used, and it is read back exactly.
So every expression that still has a value decides as it did before, except where a comparison
is in the way: `=` and `!=` compare two words as texts, and a literal is a word
(`Program.inlining_keeps_literals_iff`).  A truth value is equal to the word `TRUE`, and its
literal `true` is not (`Program.inlining_turns_sample`).
-/
import HaloScript.Proofs.Constant.Memo
import HaloScript.Proofs.Lowering.Numbers

namespace HaloScript

open List ConstGlobals

/-! ## 1. Literals in the place of references -/

/-- The second leaf is the first, or the literal of the global that the first refers to. -/
inductive Leaf.Inlined (scene : Scene) : Leaf → Leaf → Prop
  | same (l : Leaf) : Inlined scene l l
  | literal {g : GlobalId} {c : Const} {t : Text} (hc : scene.Derives (.global g) c)
      (ht : c.literal? = some t) : Inlined scene (.global g) (.atom t)

theorem Leaf.Inlined.trans {scene : Scene} {l l' l'' : Leaf} (h : l.Inlined scene l')
    (h' : l'.Inlined scene l'') : l.Inlined scene l'' := by
  cases h with
  | same => exact h'
  | literal hc ht =>
    cases h' with
    | same => exact .literal hc ht

namespace Value

mutual

/-- The second value is the first with leaves exchanged for others that are related to them. -/
inductive Leafwise (R : Leaf → Leaf → Prop) : Value → Value → Prop
  | leaf (t : Tag) {l l' : Leaf} (h : R l l') : Leafwise R (.leaf t l) (.leaf t l')
  | call (t : Tag) (head : Head) {args args' : List Value} (h : LeafwiseAll R args args') :
      Leafwise R (.call t head args) (.call t head args')

inductive LeafwiseAll (R : Leaf → Leaf → Prop) : List Value → List Value → Prop
  | nil : LeafwiseAll R [] []
  | cons {v v' : Value} {rest rest' : List Value} (h : Leafwise R v v')
      (hrest : LeafwiseAll R rest rest') : LeafwiseAll R (v :: rest) (v' :: rest')

end

variable {R : Leaf → Leaf → Prop}

mutual

theorem Leafwise.refl (hR : ∀ l, R l l) (v : Value) : v.Leafwise R v := by
  match v with
  | .leaf t l => exact .leaf t (hR l)
  | .call t head args => exact .call t head (LeafwiseAll.refl hR args)

theorem LeafwiseAll.refl (hR : ∀ l, R l l) (vs : List Value) : LeafwiseAll R vs vs := by
  match vs with
  | [] => exact .nil
  | v :: rest => exact .cons (Leafwise.refl hR v) (LeafwiseAll.refl hR rest)

end

mutual

theorem Leafwise.trans (hR : ∀ {l l' l''}, R l l' → R l' l'' → R l l'') {u v w : Value}
    (h : u.Leafwise R v) (h' : v.Leafwise R w) : u.Leafwise R w := by
  match h, h' with
  | .leaf t hl, .leaf _ hl' => exact .leaf t (hR hl hl')
  | .call t head hargs, .call _ _ hargs' => exact .call t head (hargs.trans hR hargs')

theorem LeafwiseAll.trans (hR : ∀ {l l' l''}, R l l' → R l' l'' → R l l'') {us vs ws : List Value}
    (h : LeafwiseAll R us vs) (h' : LeafwiseAll R vs ws) : LeafwiseAll R us ws := by
  match h, h' with
  | .nil, .nil => exact .nil
  | .cons hv hrest, .cons hv' hrest' => exact .cons (hv.trans hR hv') (hrest.trans hR hrest')

end

theorem LeafwiseAll.append {us vs us' vs' : List Value} (h : LeafwiseAll R us us')
    (h' : LeafwiseAll R vs vs') : LeafwiseAll R (us ++ vs) (us' ++ vs') := by
  match h with
  | .nil => exact h'
  | .cons hv hrest => exact .cons hv (hrest.append h')

/-- The second value is the first with literals in the place of some references. -/
abbrev Inlined (scene : Scene) : Value → Value → Prop := Leafwise (Leaf.Inlined scene)

abbrev InlinedAll (scene : Scene) : List Value → List Value → Prop :=
  LeafwiseAll (Leaf.Inlined scene)

end Value

theorem Spot.Edit.leafwiseAll {R : Leaf → Leaf → Prop} (hR : ∀ l, R l l) {spot : Spot} {v : Value}
    {o : Owner} {xs ys : List Value} (h : spot.Edit [v] o xs ys) (hv : spot.focus.Leafwise R v) :
    Value.LeafwiseAll R xs ys := by
  induction h with
  | here =>
    exact (Value.LeafwiseAll.refl hR spot.before).append
      (.cons hv (Value.LeafwiseAll.refl hR spot.after))
  | inside left right _ ih =>
    exact (Value.LeafwiseAll.refl hR left).append
      (.cons (.call _ _ ih) (Value.LeafwiseAll.refl hR right))

/-- The second node is the first with literals in the place of some references. -/
inductive Node.Inlined (scene : Scene) : Node → Node → Prop
  | value {v v' : Value} (h : v.Inlined scene v') : Inlined scene (.value v) (.value v')
  | call (head : Head) {args args' : List Value} (h : Value.InlinedAll scene args args') :
      Inlined scene (.call head args) (.call head args')

namespace Value

variable {scene : Scene}

theorem Leafwise.tag_eq {v v' : Value} (h : v.Inlined scene v') : v'.tag = v.tag := by
  cases h <;> rfl

mutual

theorem Leafwise.exists_node {v v' : Value} (h : v.Inlined scene v') {K' : Node}
    (hK' : K' ∈ v'.nodes) : ∃ K ∈ v.nodes, K.Inlined scene K' := by
  match h with
  | .leaf t hl =>
    obtain rfl := mem_singleton.mp hK'
    exact ⟨_, mem_cons_self, .value (.leaf t hl)⟩
  | .call t head hargs =>
    rw [nodes, mem_cons, mem_cons] at hK'
    rcases hK' with rfl | rfl | hK'
    · exact ⟨_, mem_cons_self, .value (.call t head hargs)⟩
    · exact ⟨_, mem_cons_of_mem _ mem_cons_self, .call head hargs⟩
    · obtain ⟨K, hK, hinlined⟩ := hargs.exists_node hK'
      exact ⟨K, mem_cons_of_mem _ (mem_cons_of_mem _ hK), hinlined⟩

theorem LeafwiseAll.exists_node {vs vs' : List Value} (h : InlinedAll scene vs vs') {K' : Node}
    (hK' : K' ∈ nodesAll vs') : ∃ K ∈ nodesAll vs, K.Inlined scene K' := by
  match h with
  | .nil => cases hK'
  | .cons hv hrest =>
    rw [nodesAll, mem_append] at hK'
    rcases hK' with hK' | hK'
    · obtain ⟨K, hK, hinlined⟩ := hv.exists_node hK'
      exact ⟨K, mem_append_left _ hK, hinlined⟩
    · obtain ⟨K, hK, hinlined⟩ := hrest.exists_node hK'
      exact ⟨K, mem_append_right _ hK, hinlined⟩

end

mutual

theorem Leafwise.numbers_eq {v v' : Value} (h : v.Inlined scene v') :
    v'.nodes.map Node.number = v.nodes.map Node.number := by
  match h with
  | .leaf t hl => rfl
  | .call t head hargs =>
    rw [nodes, nodes, map_cons, map_cons, map_cons, map_cons,
      hargs.numbers_eq]
    rfl

theorem LeafwiseAll.numbers_eq {vs vs' : List Value} (h : InlinedAll scene vs vs') :
    (nodesAll vs').map Node.number = (nodesAll vs).map Node.number := by
  match h with
  | .nil => rfl
  | .cons hv hrest => rw [nodesAll, nodesAll, map_append, map_append, hv.numbers_eq,
      hrest.numbers_eq]

end

end Value

/-! ## 2. The walk -/

namespace ConstGlobals

variable {p : Program} {s s' : Standing Env} {view : View} {e : Env}

/-- What holds while constant globals of the program `p` are folded. -/
structure Inlines (p : Program) (s : Standing Env) : Prop where
  content : ∀ d ∈ p.allIds, Value.InlinedAll p.scene (p.content d) (s.now.content d)
  /-- A global that is still constant has not been touched. -/
  constant : ∀ id, .global id ∈ p.allIds → ∀ g, s.now.global? id = some g → g.isConst = true →
    p.global? id = some g
  opened : ∀ id, .global id ∈ s.opened → ∀ g, s.now.global? id = some g → g.isConst = false
  trusts : p.scene.Trusts p.Owns s.state.memo
  nextNode : s.state.nextNode = p.nextNode

theorem inlines_start (p : Program) {e : Env} (hmemo : e.memo = {})
    (hnext : e.nextNode = p.nextNode) :
    Inlines p (.start p e) where
  content _ _ := .refl .same _
  constant _ _ _ hg _ := hg
  opened _ hid := absurd hid not_mem_nil
  trusts := by
    show p.scene.Trusts p.Owns e.memo
    rw [hmemo]
    exact Scene.trusts_empty _ _
  nextNode := hnext

theorem global?_own (hp : p.Tidy) {id : GlobalId} {g : Global} (hg : p.global? id = some g) :
    p.global? g.id = some g ∧ g.id.serial = id.serial ∧ .global g.id ∈ p.allIds := by
  have hserial : g.id.serial = id.serial := hp.globalSerial _ g hg
  refine ⟨?_, hserial, ?_⟩
  · rw [Program.global?, hserial]
    exact hg
  · rw [Program.allIds_eq_map]
    exact mem_map_of_mem (Program.mem_all_global.mpr (Array.mem_of_getElem? hg))

/-- What hooks see as constant is constant in the program at the start. -/
theorem Inlines.below (h : Inlines p s) (hs : s.Orderly p) (hp : p.Tidy) (hview : view.Shows s) :
    view.scene.Below p.scene := by
  intro id g hg hconst
  obtain ⟨g', hg', hid, hc, hsame⟩ := hview.global id g hg
  obtain ⟨hown, hserial, hknown⟩ := global?_own (hs.tidy hp) hg'
  rcases hsame with rfl | hopen
  · have hp' := h.constant g.id (hs.alike.allIds_eq ▸ hknown) g hown hconst
    rw [Program.global?, hserial] at hp'
    exact hp'
  · rw [hid] at hopen
    rw [hc, h.opened g'.id hopen g' hown] at hconst
    cases hconst

/-- A literal is that of the value which the global has at the start. -/
theorem literal?_spec (hkeyed : p.Keyed) (hview : view.scene.Below p.scene) (id : GlobalId)
    (he : p.scene.Trusts p.Owns e.memo) :
    p.scene.Trusts p.Owns (literal? view id e).2.memo ∧
      (literal? view id e).2.nextNode = e.nextNode ∧
      ∀ t, (literal? view id e).1 = some t →
        ∃ c, p.scene.Derives (.global id) c ∧ c.literal? = some t := by
  have howns : p.Owns (.global id) := fun h => nomatch h
  obtain ⟨hanswer, htrusts⟩ := Scene.ask_finds hview hkeyed.closed howns e.memo he
  refine ⟨htrusts, rfl, fun t ht => ?_⟩
  obtain ⟨c, hc, ht⟩ := Option.bind_eq_some_iff.mp ht
  exact ⟨c, hanswer c hc, ht⟩

/-- A global stays constant only if it is removed, and then it was constant. -/
theorem judge_inlines (hkeyed : p.Keyed) (hview : view.scene.Below p.scene) (g : Global)
    (he : p.scene.Trusts p.Owns e.memo) :
    p.scene.Trusts p.Owns (judge view g e).2.memo ∧
      (judge view g e).2.nextNode = e.nextNode ∧
      ((judge view g e).1.isConst = true →
        g.isConst = true ∧ (judge view g e).1.remove = true) := by
  obtain ⟨htrusts, hnext, -⟩ := literal?_spec hkeyed hview g.id he
  unfold judge
  split
  · next hconst =>
    split
    · next hx => rw [hx] at htrusts hnext; exact ⟨htrusts, hnext, fun _ => ⟨hconst, rfl⟩⟩
    · next hx => rw [hx] at htrusts hnext; exact ⟨htrusts, hnext, fun h => nomatch h⟩
  · exact ⟨he, rfl, fun h => nomatch h⟩

/-- A value keeps what it is, up to a literal in the place of a reference. -/
theorem inline_inlines (hkeyed : p.Keyed) (hview : view.scene.Below p.scene) (v : Value)
    (he : p.scene.Trusts p.Owns e.memo) :
    p.scene.Trusts p.Owns (inline view v e).2.memo ∧
      (inline view v e).2.nextNode = e.nextNode ∧ v.Inlined p.scene (inline view v e).1 := by
  unfold inline
  split
  · next t id =>
    obtain ⟨htrusts, hnext, hlit⟩ := literal?_spec hkeyed hview id he
    split
    · split
      · next text _ hx =>
        rw [hx] at htrusts hnext hlit
        obtain ⟨c, hc, ht⟩ := hlit text rfl
        exact ⟨htrusts, hnext, .leaf t (.literal hc ht)⟩
      · next hx => rw [hx] at htrusts hnext; exact ⟨htrusts, hnext, .refl .same _⟩
    · exact ⟨he, rfl, .refl .same _⟩
  · exact ⟨he, rfl, .refl .same _⟩

section

variable (h : Inlines p s) (hs : s.Orderly p) (hp : p.Tidy)

include h hs hp

/-- Entering a global keeps its value, and makes it an ordinary one unless it is removed. -/
theorem Inlines.enterGlobal (hkeyed : p.Keyed) (hview : view.Shows s) {g : Global}
    (hg : s.now.global? g.id = some g) (hunseen : .global g.id ∈ s.unseen) :
    Inlines p (s.enterGlobal g (judge view g s.state)) := by
  obtain ⟨htrusts, hnext, hconst⟩ := judge_inlines hkeyed (h.below hs hp hview) g h.trusts
  have hknown := hs.unseen_known _ hunseen
  -- the global that a reference leads to afterwards
  have hcases : ∀ id, .global id ∈ p.allIds → ∀ g',
      (s.enterGlobal g (judge view g s.state)).now.global? id = some g' →
      (id = g.id ∧ g' = { g with isConst := (judge view g s.state).1.isConst }) ∨
        (id ≠ g.id ∧ s.now.global? id = some g') := by
    intro id hid g' hg'
    have hdecl : (s.enterGlobal g (judge view g s.state)).now.declaration? (.global id) =
        some (.global g') := by
      simp [Program.declaration?, hg']
    by_cases heq : id = g.id
    · subst heq
      rw [hs.declaration?_enterGlobal_self hp hknown] at hdecl
      exact .inl ⟨rfl, (Declaration.global.inj (Option.some.inj hdecl)).symm⟩
    · rw [hs.declaration?_enterGlobal_of_ne hp hknown hid
        (fun hmem => heq (DeclId.global.inj hmem).symm)] at hdecl
      obtain ⟨g'', hg'', hsame⟩ := Option.map_eq_some_iff.mp hdecl
      exact .inr ⟨heq, Declaration.global.inj hsame ▸ hg''⟩
  refine ⟨fun d hd => ?_, fun id hid g' hg' hc => ?_, fun id hid g' hg' => ?_, htrusts,
    hnext.trans h.nextNode⟩
  · rw [hs.content_enterGlobal hp hg hknown hd]
    exact h.content d hd
  · rcases hcases id hid g' hg' with ⟨rfl, rfl⟩ | ⟨-, hg'⟩
    · have hsame : ({ g with isConst := (judge view g s.state).1.isConst } : Global) = g := by
        rw [show (judge view g s.state).1.isConst = true from hc, ← (hconst hc).1]
      rw [hsame]
      exact h.constant g.id hknown g hg (hconst hc).1
    · exact h.constant id hid g' hg' hc
  · dsimp only [Standing.enterGlobal] at hid
    have hold : .global id ∈ s.opened → g'.isConst = false := by
      intro hmem
      rcases hcases id (hs.opened_known _ hmem) g' hg' with ⟨rfl, -⟩ | ⟨-, hg'⟩
      · exact absurd hunseen (hs.opened_seen _ hmem)
      · exact h.opened id hmem g' hg'
    split at hid
    · exact hold hid
    · next hstays =>
      rcases mem_cons.mp hid with heq | hmem
      · obtain rfl := DeclId.global.inj heq
        rcases hcases g.id hknown g' hg' with ⟨-, rfl⟩ | ⟨hne, -⟩
        · by_contra hc
          exact hstays (hconst (by simpa using hc)).2
        · exact absurd rfl hne
      · exact hold hmem

/-- An edit that puts in literals. -/
theorem Inlines.edit {d : DeclId} (hd : d ∈ s.opened) {vs : List Value}
    (hvs : Value.InlinedAll p.scene (s.now.content d) vs) (hsuits : Declaration.Suits d vs)
    (hnow : s'.now = s.now.put d vs) (hopened : s'.opened = s.opened)
    (htrusts : p.scene.Trusts p.Owns s'.state.memo) (hnext : s'.state.nextNode = p.nextNode) :
    Inlines p s' := by
  have htidy := hs.tidy hp
  have hknown := hs.known_now (hs.opened_known d hd)
  -- whether a global is constant does not change, and one that is edited is not
  have hcases : ∀ id, .global id ∈ p.allIds → ∀ g', (s.now.put d vs).global? id = some g' →
      s.now.global? id = some g' ∨ (d = .global id ∧ g'.isConst = false) := by
    intro id hid g' hg'
    have hdecl : (s.now.put d vs).declaration? (.global id) = some (.global g') :=
      congrArg (Option.map Declaration.global) hg'
    by_cases heq : d = .global id
    · subst heq
      obtain ⟨g, -, hg, -⟩ := htidy.global?_of_mem_allIds hknown
      rw [htidy.declaration?_put_self (a := .global g) hknown (by simp [Program.declaration?, hg])]
        at hdecl
      obtain ⟨v, rfl⟩ := length_eq_one_iff.mp hsuits
      obtain rfl := Declaration.global.inj (Option.some.inj hdecl)
      exact .inr ⟨rfl, h.opened id hd g hg⟩
    · rw [htidy.declaration?_put_of_ne hknown (hs.known_now hid) heq] at hdecl
      obtain ⟨g'', hg'', hsame⟩ := Option.map_eq_some_iff.mp hdecl
      exact .inl (Declaration.global.inj hsame ▸ hg'')
  refine ⟨fun d' hd' => ?_, fun id hid g' hg' hc => ?_, fun id hid g' hg' => ?_, htrusts, hnext⟩
  · rw [hnow]
    by_cases heq : d = d'
    · subst heq
      rw [hs.content_put_self hp hd hsuits]
      exact (h.content d hd').trans .trans hvs
    · rw [hs.content_put_of_ne hp hd hd' heq]
      exact h.content d' hd'
  · rw [hnow] at hg'
    rcases hcases id hid g' hg' with hg' | ⟨-, hnot⟩
    · exact h.constant id hid g' hg' hc
    · rw [hnot] at hc
      cases hc
  · rw [hnow] at hg'
    rw [hopened] at hid
    rcases hcases id (hs.opened_known _ hid) g' hg' with hg' | ⟨-, hnot⟩
    · exact h.opened id hid g' hg'
    · exact hnot

/-- **Every move of the walk only puts literals in the place of references.** -/
theorem Inlines.move (hkeyed : p.Keyed) (hmove : Move hooks s s') : Inlines p s' := by
  cases hmove with
  | global view g hview hg hunseen =>
    exact h.enterGlobal hs hp hkeyed hview hg hunseen
  | script =>
    refine { h with opened := fun id hid g hg => ?_ }
    rcases mem_cons.mp hid with heq | hid
    · cases heq
    · exact h.opened id hid g hg
  | element view d spot vs rest hview hd howner hdue hpending hedit hsuits =>
    exact h.edit hs hp hd (hedit.leafwiseAll .same (.refl .same _)) hsuits rfl rfl h.trusts
      h.nextNode
  | value view d spot vs rest hview hd hoffered hdue hpending hedit hsuits =>
    obtain ⟨htrusts, hnext, hinlined⟩ :=
      inline_inlines hkeyed (h.below hs hp hview) spot.focus h.trusts
    exact h.edit hs hp hd (hedit.leafwiseAll .same hinlined) hsuits rfl rfl htrusts
      (hnext.trans h.nextNode)
  | call | skip => exact { h with }

end

end ConstGlobals

namespace Program

variable {p q : Program}

/-- The second program has literals in the place of some references of the first, and fewer
constant globals. -/
structure Inlining (p q : Program) : Prop where
  below : q.scene.Below p.scene
  numbered : q.Numbered
  node : ∀ K' ∈ q.nodes, ∃ K ∈ p.nodes, K.Inlined p.scene K'

/-- **Folding constant globals is inlining.** -/
theorem inlining_constGlobals (hp : p.Tidy) (hn : p.Numbered) (report : Report) (limit : Int64) :
    p.Inlining (Pass.constGlobals.run p (.fresh p.nextNode report limit)).1 := by
  unfold Pass.run
  generalize he : ({ Env.fresh p.nextNode report limit with
    nextNode := p.nextNode, marks := {} } : Env) = e
  obtain ⟨s, hmoves, -, hwalk⟩ := walk_moves hp hooks e
  obtain ⟨hs, h⟩ := (Standing.orderly_start hp e).moves hp
    (inlines_start p (by rw [← he]; rfl) (by rw [← he]))
    (fun s s' hs h hmove => h.move hs hp hn.keyed hmove) hmoves
  obtain ⟨hglobals, hscripts, -⟩ := foldl_remove (s.removed.map DeclId.name).reverse s.now
  have htidy := hs.tidy hp
  have hids : s.now.allIds = p.allIds := hs.alike.allIds_eq.symm
  -- the nodes of the result are those of the last standing
  have hnodes : ({ (p.walk hooks true e).1 with
      nextNode := (p.walk hooks true e).2.nextNode } : Program).nodes = s.now.nodes := by
    rw [hwalk, nodes, all, hglobals, hscripts, nodes, all]
  show p.Inlining { (p.walk hooks true e).1 with
    nextNode := (p.walk hooks true e).2.nextNode }
  refine ⟨fun id g hg hconst => ?_, hn.of_eq ?_ ?_, fun K' hK' => ?_⟩
  · rw [hwalk] at hg
    have hnow : s.now.global? id = some g := by
      rw [Program.global?, ← hglobals]
      exact hg
    obtain ⟨hown, hserial, hknown⟩ := global?_own htidy hnow
    have hfirst := h.constant g.id (hids ▸ hknown) g hown hconst
    rw [global?, hserial] at hfirst
    exact hfirst
  · rw [hnodes, htidy.nodes_eq, hp.nodes_eq, hids, map_flatMap, map_flatMap]
    exact flatMap_congr fun d hd => (h.content d hd).numbers_eq
  · rw [hwalk]
    exact Nat.le_of_eq h.nextNode.symm
  · rw [hnodes, htidy.nodes_eq, hids, mem_flatMap] at hK'
    obtain ⟨d, hd, hK'⟩ := hK'
    obtain ⟨K, hK, hinlined⟩ := (h.content d hd).exists_node hK'
    refine ⟨K, ?_, hinlined⟩
    rw [hp.nodes_eq]
    exact mem_flatMap.mpr ⟨d, hd, hK⟩

end Program

/-! ## 3. Evaluation before and after -/

/-- Whether a call compares its arguments as they are, words as texts. -/
def Head.compares (h : Head) : Bool := h.isCallOf "=" || h.isCallOf "!="

/-- How two expressions compare, if both have a value and that can be decided. -/
def Scene.compare? (scene : Scene) (a b : Value) : Option Bool :=
  (scene.fresh (.value a)).bind fun x => (scene.fresh (.value b)).bind fun y => x.equal? y

theorem Const.literal?_bool_inj {b b' : Bool} (h : (bool b).literal? = (bool b').literal?) :
    b = b' := by
  revert b b'
  decide

namespace Builtin

theorem ofName?_compares {name : Text} {f : Builtin} (h : ofName? name = some f)
    (hf : f.Compares) : name = "=" ∨ name = "!=" := by
  obtain ⟨before, after, heq, -⟩ := lookup_eq_some_iff.mp h
  have hmem : (name, f) ∈ byName := by simp [heq]
  simp only [byName, mem_cons, Prod.mk.injEq, not_mem_nil, or_false] at hmem
  rcases hf with rfl | rfl
  · left; simpa using hmem
  · right; simpa using hmem

end Builtin

def Node.inner : Node → List Node
  | .global id => [.global id]
  | .value v => v.nodes
  | .call head args => .call head args :: Value.nodesAll args

namespace Program

variable {p q : Program}

theorem mem_nodes_of_value {w : Value} (hw : .value w ∈ p.nodes) {K : Node} (hK : K ∈ w.nodes) :
    K ∈ p.nodes := by
  obtain ⟨d, hd, hw⟩ := mem_flatMap.mp hw
  exact mem_flatMap.mpr ⟨d, hd, Value.mem_nodesAll_trans hK _ hw⟩

theorem Keyed.fresh_eq (hp : p.Keyed) {K : Node} (hK : K ∈ p.nodes) :
    p.scene.fresh K = p.scene.unfold (m := Id) p.scene.fresh K :=
  Scene.fresh_eq_unfold hp.closed p.scene_lists fun _ => hK

/-- The value of a comparison is whether its arguments are equal, or the contrary. -/
theorem Keyed.fresh_compare (hp : p.Keyed) {t : Tag} {head : Head} {a b : Value}
    (hmem : .value (.call t head [a, b]) ∈ p.nodes) (hcompares : head.compares = true) :
    p.scene.fresh (.value (.call t head [a, b])) =
      (p.scene.compare? a b).map fun e => .bool (e != head.isCallOf "!=") := by
  have hcall : .call head [a, b] ∈ p.nodes :=
    mem_nodes_of_value hmem (mem_cons_of_mem _ mem_cons_self)
  have hvalue : p.scene.fresh (.value (.call t head [a, b])) = p.scene.fresh (.call head [a, b]) :=
    hp.fresh_eq hmem
  rw [hvalue, hp.fresh_eq hcall]
  cases hcallee : head.callee with
  | script => simp [Head.compares, Head.isCallOf, hcallee] at hcompares
  | word =>
    simp only [Head.compares, Head.isCallOf, hcallee, Bool.or_eq_true, Bool.and_eq_true,
      Bool.not_eq_true', beq_iff_eq] at hcompares
    rcases hcompares with ⟨hclause, rfl⟩ | ⟨hclause, rfl⟩
    · have hname : Builtin.ofName? "=" = some .equal := by decide
      have hother : head.isCallOf "!=" = false := by
        simp only [Head.isCallOf, hcallee, hclause]
        decide
      simp only [Scene.unfold, hcallee, hclause, hname, hother, Bool.false_eq_true, if_false]
      exact Builtin.evalEqual_eq false _ _
    · have hname : Builtin.ofName? "!=" = some .unequal := by decide
      have hother : head.isCallOf "!=" = true := by
        simp only [Head.isCallOf, hcallee, hclause]
        decide
      simp only [Scene.unfold, hcallee, hclause, hname, hother, Bool.false_eq_true, if_false]
      exact Builtin.evalEqual_eq true _ _

/-- Every literal that a value among the nodes has in the program `q` is the one that the value of
the same number has in the program `p`. -/
def KeepLiterals (p q : Program) (nodes : List Node) : Prop :=
  ∀ v', .value v' ∈ nodes → ∀ v, .value v ∈ p.nodes → v.id = v'.id →
    ∀ t, (q.scene.fresh (.value v')).bind Const.literal? = some t →
      (p.scene.fresh (.value v)).bind Const.literal? = some t

/-- Every comparison among the nodes that can be decided in the program `q` is decided in the same
way in the program `p`. -/
def DecideAlike (p q : Program) (nodes : List Node) : Prop :=
  ∀ head a' b', .call head [a', b'] ∈ nodes → head.compares = true →
    ∀ a b, .value a ∈ p.nodes → .value b ∈ p.nodes → a.id = a'.id → b.id = b'.id →
      ∀ e, q.scene.compare? a' b' = some e → p.scene.compare? a b = some e

namespace Inlining

theorem reflects_args (h : p.Inlining q) {args args' : List Value}
    (hargs : Value.InlinedAll p.scene args args')
    (ih : ∀ v ∈ args, ∀ v' ∈ args', v.Inlined p.scene v' →
      Const.Reflects (p.scene.fresh (.value v)) (q.scene.fresh (.value v'))) :
    Forall₂ Const.Reflects (args.map fun v => p.scene.fresh (.value v))
      (args'.map fun v => q.scene.fresh (.value v)) := by
  match hargs with
  | .nil => exact .nil
  | .cons hv hrest =>
    refine .cons (ih _ mem_cons_self _ mem_cons_self hv) ?_
    exact h.reflects_args hrest fun v hv v' hv' =>
      ih v (mem_cons_of_mem _ hv) v' (mem_cons_of_mem _ hv')

theorem eq_of_inlined (hp : p.Keyed) {v w v' : Value} (hv : .value v ∈ p.nodes)
    (hw : .value w ∈ p.nodes) (hinlined : w.Inlined p.scene v') (hid : v.id = v'.id) : v = w := by
  have hkey : (Node.value v).key = (Node.value w).key := by
    rw [Node.key, Node.key, hid, Value.id, hinlined.tag_eq, Value.id]
  exact Node.value.inj (hp _ hv _ hw hkey)

/-- **An expression that has a value after inlining had that value before**, or the value is now
its literal, if all comparisons inside decide as before.  By induction on the size of nodes. -/
theorem reflects (h : p.Inlining q) (hp : p.Keyed) {K K' : Node} (hK : K ∈ p.nodes)
    (hK' : K' ∈ q.nodes) (hinlined : K.Inlined p.scene K') (halike : p.DecideAlike q K'.inner) :
    Const.Reflects (p.scene.fresh K) (q.scene.fresh K') := by
  have hq := h.numbered.keyed
  induction hw : K'.weight using Nat.strongRecOn generalizing K K' with
  | ind w ih =>
    cases hinlined with
    | value hv =>
      cases hv with
      | leaf t hl =>
        cases hl with
        | same =>
          intro c' hc'
          have hderives :=
            (Scene.fresh_eq_some_iff hq.closed q.scene_lists (fun _ => hK') c').mp hc'
          have hbefore := hderives.mono h.below
          exact ⟨c', (Scene.fresh_eq_some_iff hp.closed p.scene_lists (fun _ => hK) c').mpr hbefore,
            hbefore.computed.written⟩
        | @literal g c text hc ht =>
          intro c' hc'
          rw [hq.fresh_eq hK'] at hc'
          obtain rfl : .atom text = c' := Option.some.inj hc'
          refine ⟨c, ?_, hc.computed, .inr ⟨text, ht, rfl⟩⟩
          have howns : p.Owns (.global g) := fun hn => by cases hn
          rw [hp.fresh_eq hK]
          exact (Scene.fresh_eq_some_iff hp.closed p.scene_lists howns c).mpr hc
      | @call t head args args' hargs =>
        have hcall : .call head args ∈ p.nodes :=
          mem_nodes_of_value hK (mem_cons_of_mem _ mem_cons_self)
        have hcall' : .call head args' ∈ q.nodes :=
          mem_nodes_of_value hK' (mem_cons_of_mem _ mem_cons_self)
        rw [hp.fresh_eq hK, hq.fresh_eq hK']
        have hneeds : q.scene.Needs (.value (.call t head args')) (.call head args') :=
          .call t head args'
        refine ih _ (hw ▸ hneeds.weight_lt rfl) hcall hcall' (.call head hargs) ?_ rfl
        exact fun head a' b' hmem => halike head a' b' (mem_cons_of_mem _ hmem)
    | @call head args args' hargs =>
      have hvalues : ∀ v ∈ args, .value v ∈ p.nodes := fun v hv =>
        hp.closed.needs (fun _ => hK) (.arg head hv) rfl
      have hvalues' : ∀ v ∈ args', .value v ∈ q.nodes := fun v hv =>
        hq.closed.needs (fun _ => hK') (.arg head hv) rfl
      have hreflects := h.reflects_args hargs fun v hv v' hv' hinlined => by
        have hneeds : q.scene.Needs (.call head args') (.value v') := .arg head hv'
        refine ih _ (hw ▸ hneeds.weight_lt rfl) (hvalues v hv) (hvalues' v' hv') (.value hinlined)
          ?_ rfl
        exact fun head a' b' hmem => halike head a' b' (mem_cons_of_mem _
          (Value.mem_nodesAll_trans hmem args' (Value.mem_nodesAll_of_mem hv')))
      rw [hp.fresh_eq hK, hq.fresh_eq hK']
      simp only [Scene.unfold]
      split
      · exact .none _
      · next name span hcallee =>
        split
        · exact .none _
        · next hclause =>
          split
          · exact .none _
          · next f hf =>
            refine f.apply_reflects hreflects fun hcompares x y x' y' hxy hxy' e he => ?_
            obtain ⟨a, b, rfl⟩ := length_eq_two.mp (by simpa using congrArg List.length hxy)
            obtain ⟨a', b', rfl⟩ := length_eq_two.mp (by simpa using congrArg List.length hxy')
            obtain ⟨rfl, rfl⟩ : p.scene.fresh (.value a) = x ∧ p.scene.fresh (.value b) = y := by
              simpa using hxy
            obtain ⟨rfl, rfl⟩ :
                q.scene.fresh (.value a') = x' ∧ q.scene.fresh (.value b') = y' := by
              simpa using hxy'
            have hhead : head.compares = true := by
              rcases Builtin.ofName?_compares hf hcompares with rfl | rfl
              · simp [Head.compares, Head.isCallOf, hcallee, hclause]
              · simp [Head.compares, Head.isCallOf, hcallee, hclause]
            cases hargs with
            | cons ha hrest =>
              cases hrest with
              | cons hb =>
                exact halike head a' b' mem_cons_self hhead a b (hvalues a (by simp))
                  (hvalues b (by simp)) (by rw [Value.id, Value.id, ha.tag_eq])
                  (by rw [Value.id, Value.id, hb.tag_eq]) e he

/-- The literals inside a value are kept exactly if the comparisons inside it are. -/
theorem keepLiterals_iff (h : p.Inlining q) (hp : p.Keyed) {v' : Value}
    (hv' : .value v' ∈ q.nodes) :
    p.KeepLiterals q v'.nodes ↔ p.DecideAlike q v'.nodes := by
  have hq := h.numbered.keyed
  constructor
  · intro hkeep head a' b' hmem hcompares a b ha hb hida hidb e he
    rw [Value.nodes_eq_nodesAll, Value.call_mem_nodesAll] at hmem
    obtain ⟨t, hpart⟩ := hmem
    have hvalue : .value _ ∈ v'.nodes := v'.nodes_eq_nodesAll ▸ Value.value_mem_nodesAll.mpr hpart
    have hvalue' := mem_nodes_of_value hv' hvalue
    obtain ⟨K, hK, hinlined⟩ := h.node _ hvalue'
    -- the comparison before is of the same two values
    match hinlined with
    | .value (.call _ _ (.cons (v := a₀) hina (.cons (v := b₀) hinb .nil))) =>
      have hcall := mem_nodes_of_value hK (mem_cons_of_mem _ mem_cons_self)
      have hargs : ∀ v ∈ [a₀, b₀], .value v ∈ p.nodes := fun v hv =>
        hp.closed.needs (fun _ => hcall) (.arg head hv) rfl
      obtain rfl := eq_of_inlined hp ha (hargs a₀ (by simp)) hina hida
      obtain rfl := eq_of_inlined hp hb (hargs b₀ (by simp)) hinb hidb
      have hbefore := hkeep _ hvalue _ hK rfl
      rw [hq.fresh_compare hvalue' hcompares, hp.fresh_compare hK hcompares, he] at hbefore
      obtain ⟨c, hc, hliteral⟩ := Option.bind_eq_some_iff.mp (hbefore _ rfl)
      obtain ⟨e', he', rfl⟩ := Option.map_eq_some_iff.mp hc
      have hsame := Const.literal?_bool_inj hliteral
      rw [he', Bool.bne_left_inj.mp hsame]
  · intro halike w' hw' w hw hid t ht
    have hw'' := mem_nodes_of_value hv' hw'
    have hinner : ∀ {K : Node}, K ∈ w'.nodes → K ∈ v'.nodes := by
      rw [v'.nodes_eq_nodesAll] at hw' ⊢
      exact fun hK => Value.mem_nodesAll_trans hK _ hw'
    obtain ⟨K, hK, hinlined⟩ := h.node _ hw''
    match hinlined with
    | .value (v := w₀) hin =>
      obtain rfl := eq_of_inlined hp hw hK hin hid
      obtain ⟨c', hc', ht⟩ := Option.bind_eq_some_iff.mp ht
      obtain ⟨c, hc, hwritten⟩ := h.reflects hp hK hw'' (.value hin)
        (fun head a' b' hmem => halike head a' b' (hinner hmem)) c' hc'
      rw [hc, Option.bind_some, ← hwritten.literal?_eq, ht]

end Inlining

/-- **Inlining changes no decision, except through a comparison.**  Constant globals are folded in
a program that was loaded into an empty one.  Every value of the program afterwards, whether or
not its declaration is still in the table, is a value of the program before, under its number.
If it, or a value inside it, evaluates to something with a literal, then it did so before and the
literal is the same; this holds for a value and all values inside it exactly if every comparison
inside that can be decided afterwards was decided in the same way before. -/
theorem inlining_keeps_literals_iff (lib : Library) (entry : Entry) (report : Report)
    (limit : Int64) :
    let p := (load {} {} lib entry).program
    let q := (Pass.constGlobals.run p (.fresh p.nextNode report limit)).1
    ∀ v', .value v' ∈ q.nodes →
      (∃ v, .value v ∈ p.nodes ∧ v.id = v'.id) ∧
        (p.KeepLiterals q v'.nodes ↔ p.DecideAlike q v'.nodes) := by
  intro p q v' hv'
  have hnumbered : p.Numbered := loaded_numbered {} lib entry
  have hinlining : p.Inlining q :=
    inlining_constGlobals (load_tidy tidy_empty {} lib entry) hnumbered report limit
  refine ⟨?_, hinlining.keepLiterals_iff hnumbered.keyed hv'⟩
  obtain ⟨K, hK, hinlined⟩ := hinlining.node _ hv'
  cases hinlined with
  | @value v _ hin => exact ⟨v, hK, by rw [Value.id, Value.id, hin.tag_eq]⟩

/-- A truth value that is equal to a word which is not its literal. -/
def inlineSample : Entry :=
  .source ⟨"a", "(constglobal boolean g(or true))(script startup f(= g TRUE))"⟩

/-- Whether some value has one literal before and another one after. -/
def turns (p q : Program) (before after : Text) : Bool :=
  q.nodes.any fun K' => p.nodes.any fun K => match K, K' with
    | .value v, .value v' => v.id == v'.id &&
        (p.scene.fresh (.value v)).bind Const.literal? == some before &&
        (q.scene.fresh (.value v')).bind Const.literal? == some after
    | _, _ => false

/-- A value whose literal turns has its reason in a comparison. -/
theorem exists_of_turns {before after : Text} (hne : before ≠ after)
    (hiff : ∀ v', .value v' ∈ q.nodes → (∃ v, .value v ∈ p.nodes ∧ v.id = v'.id) ∧
      (p.KeepLiterals q v'.nodes ↔ p.DecideAlike q v'.nodes))
    (hturns : p.turns q before after = true) :
    ∃ v', .value v' ∈ q.nodes ∧ ¬ p.DecideAlike q v'.nodes := by
  obtain ⟨K', hK', hany⟩ := any_eq_true.mp hturns
  obtain ⟨K, hK, hmatch⟩ := any_eq_true.mp hany
  split at hmatch
  · next v v' =>
    simp only [Bool.and_eq_true, beq_iff_eq] at hmatch
    refine ⟨v', hK', fun halike => hne ?_⟩
    have hkeep := (hiff v' hK').2.mpr halike
    have hbefore := hkeep v' (Value.mem_nodes_self v') v hK hmatch.1.1 after hmatch.2
    rw [hmatch.1.2] at hbefore
    exact Option.some.inj hbefore
  · cases hmatch

set_option maxRecDepth 20000 in
theorem inlining_turns_sample :
    let p := (load {} {} {} inlineSample).program
    let q := (Pass.constGlobals.run p (.fresh p.nextNode {} 0)).1
    (load {} {} {} inlineSample).ok = true ∧ p.turns q "true" "false" = true ∧
      ∃ v', .value v' ∈ q.nodes ∧ ¬ p.DecideAlike q v'.nodes := by
  have hok : (load {} {} {} inlineSample).ok = true := by cbv
  have hturns : (fun p : Program =>
      p.turns (Pass.constGlobals.run p (.fresh p.nextNode {} 0)).1 "true" "false")
      (load {} {} {} inlineSample).program = true := by cbv
  exact ⟨hok, hturns, exists_of_turns (by decide)
    (inlining_keeps_literals_iff {} inlineSample {} 0) hturns⟩

end Program

end HaloScript
