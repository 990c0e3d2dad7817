/-
# Two walks abreast

Two programs are walked with the same hooks.  They differ inside values, in a way that the hooks do
not notice: what they answer for the one and for the other differs in the same way, and their state
is the same.  Then the two walks go abreast, step by step (`Machine.Beside.step`): they stand at
the same place, in programs that differ in this way only, with the same state.

How values may differ is a relation, together with the calls into which the walks may go
(`Pairing`).  Nothing is said of walks that have failed.
-/
import HaloScript.Proofs.Walk.Steps
import Mathlib.Data.List.Forall2
import Mathlib.Data.Option.Basic

namespace HaloScript

open List Option

variable {σ : Type} {α β : Type}

/-- How values may differ from one walk to the other, and the heads of calls that are the same in
both, up to such differences in their arguments. -/
structure Pairing where
  rel : Value → Value → Prop
  opens : Head → Prop
  leaf : ∀ t l, rel (.leaf t l) (.leaf t l)
  call : ∀ {t h args args'}, opens h → Forall₂ rel args args' →
    rel (.call t h args) (.call t h args')

variable {M : Pairing}

theorem rel_head? {R : α → β → Prop} {xs : List α} {ys : List β} (h : Forall₂ R xs ys) :
    Rel R xs.head? ys.head? := by
  cases h with
  | nil => exact .none
  | cons h => exact .some h

theorem isEmpty_eq_of_rel {R : α → β → Prop} {xs : List α} {ys : List β} (h : Forall₂ R xs ys) :
    ys.isEmpty = xs.isEmpty := by
  cases h <;> rfl

theorem rel_map {α β γ δ : Type} {R : α → β → Prop} {S : γ → δ → Prop} {f : α → γ} {g : β → δ}
    (hfg : ∀ a b, R a b → S (f a) (g b)) {x : Option α} {y : Option β} (h : Rel R x y) :
    Rel S (x.map f) (y.map g) := by
  cases h with
  | none => exact .none
  | some h => exact .some (hfg _ _ h)

theorem map_eq_of_rel {α β γ : Type} {R : α → β → Prop} {a : Array α} {b : Array β}
    (h : ∀ i : Nat, Rel R a[i]? b[i]?) {f : α → γ} {g : β → γ}
    (hfg : ∀ x y, R x y → g y = f x) : b.toList.map g = a.toList.map f := by
  refine ext_getElem? fun i => ?_
  have hi := h i
  rw [getElem?_map, getElem?_map, Array.getElem?_toList, Array.getElem?_toList]
  generalize a[i]? = x at hi
  generalize b[i]? = y at hi
  cases hi with
  | none => rfl
  | some hxy => exact congrArg some (hfg _ _ hxy)

theorem size_eq_of_rel {R : α → β → Prop} {a : Array α} {b : Array β}
    (h : ∀ i : Nat, Rel R a[i]? b[i]?) : b.size = a.size := by
  have hlength := congrArg List.length
    (map_eq_of_rel h (f := fun _ => ()) (g := fun _ => ()) fun _ _ _ => rfl)
  simpa using hlength

/-! ## 1. What may differ -/

/-- Values whose hooks have been called: their parts are to come. -/
inductive Pairing.Opened (M : Pairing) : Value → Value → Prop
  | leaf (t : Tag) (l : Leaf) : M.Opened (.leaf t l) (.leaf t l)
  | call (t : Tag) {h : Head} (hopens : M.opens h) {args args' : List Value}
    (hargs : Forall₂ M.rel args args') : M.Opened (.call t h args) (.call t h args')

/-- Offers of values that differ in this way. -/
inductive Offer.Beside (M : Pairing) : Offer → Offer → Prop
  | keep {v v' : Value} (hv : M.rel v v') {vs vs' : List Value} (hvs : Forall₂ M.rel vs vs') :
    Beside M (.keep v vs) (.keep v' vs')
  | drop {vs vs' : List Value} (hvs : Forall₂ M.rel vs vs') : Beside M (.drop vs) (.drop vs')

structure Global.Beside (M : Pairing) (g g' : Global) : Prop where
  same : g' = { g with value := g'.value }
  value : M.rel g.value g'.value

structure Script.Beside (M : Pairing) (s s' : Script) : Prop where
  same : s' = { s with body := s'.body }
  body : Forall₂ M.rel s.body s'.body

/-- Programs that differ inside values only. -/
structure Program.Beside (M : Pairing) (p p' : Program) : Prop where
  globals : ∀ i : Nat, Rel (Global.Beside M) p.globals[i]? p'.globals[i]?
  scripts : ∀ i : Nat, Rel (Script.Beside M) p.scripts[i]? p'.scripts[i]?
  table : p'.table = p.table
  nextNode : p'.nextNode = p.nextNode

structure Frame.Beside (M : Pairing) (f f' : Frame) : Prop where
  owner : f'.owner = f.owner
  opens : ∀ t h, f.owner = .call t h → M.opens h
  done : Forall₂ M.rel f.done f'.done
  todo : Forall₂ M.rel f.todo f'.todo

structure View.Beside (M : Pairing) (view view' : View) : Prop where
  size : view'.scene.size = view.scene.size
  global? : ∀ id, Rel (Global.Beside M) (view.scene.global? id) (view'.scene.global? id)
  script? : ∀ id, Rel (Script.Beside M) (view.script? id) (view'.script? id)

/-- Walks that go abreast: their programs and their stacks may differ, and nothing else does. -/
inductive Machine.Beside (M : Pairing) : Machine σ → Machine σ → Prop
  | mk {p p' : Program} {frames frames' : List Frame} {unseen entries : List DeclId}
    {removals : List Text} {state : σ} (hp : p.Beside M p')
    (hframes : Forall₂ (Frame.Beside M) frames frames') :
    Beside M ⟨p, unseen, entries, frames, removals, state⟩
      ⟨p', unseen, entries, frames', removals, state⟩

/-! ## 2. What the hooks see -/

theorem Frame.Beside.items {f f' : Frame} (h : f.Beside M f') {focus focus' : Option Value}
    (hfocus : Rel M.rel focus focus') : Forall₂ M.rel (f.items focus) (f'.items focus') := by
  have hlist : Forall₂ M.rel focus.toList focus'.toList := by
    cases hfocus with
    | none => exact .nil
    | some hv => exact .cons hv .nil
  exact rel_append (rel_append (rel_reverse h.done) hlist) h.todo

/-- The value of a global that is being walked. -/
theorem Frame.globalValue?_beside (id : GlobalId) {frames frames' : List Frame}
    (h : Forall₂ (Frame.Beside M) frames frames') :
    ∀ {focus focus' : Option Value}, Rel M.rel focus focus' →
      Rel M.rel (globalValue? id focus frames) (globalValue? id focus' frames') := by
  induction h with
  | nil => exact fun _ => .none
  | @cons f f' rest rest' hf _ ih =>
    intro focus focus' hfocus
    have hitems := hf.items hfocus
    rw [globalValue?, globalValue?, hf.owner]
    cases howner : f.owner with
    | call t head => exact ih (.some (M.call (hf.opens t head howner) hitems))
    | script => exact ih .none
    | global =>
      dsimp only
      split
      · exact rel_head? hitems
      · exact ih .none

theorem View.during_beside {p p' : Program} (h : p.Beside M p') {frames frames' : List Frame}
    (hframes : Forall₂ (Frame.Beside M) frames frames') :
    (View.during p frames).Beside M (View.during p' frames') where
  size := size_eq_of_rel h.globals
  script? id := h.scripts id.serial
  global? id := by
    refine rel_map (fun g g' hg => ⟨by rw [hg.same], ?_⟩) (h.globals id.serial)
    have hvalue : Rel M.rel (Frame.globalValue? id none frames)
      (Frame.globalValue? id none frames') := Frame.globalValue?_beside id hframes .none
    generalize Frame.globalValue? id none frames = x at hvalue
    generalize Frame.globalValue? id none frames' = y at hvalue
    cases hvalue with
    | none => exact hg.value
    | some hv => exact hv

/-! ## 3. Programs with other content -/

section

variable {p p' : Program}

theorem Program.Beside.setGlobal (h : p.Beside M p') {g g' : Global} (hg : g.Beside M g') :
    (p.setGlobal g).Beside M (p'.setGlobal g') where
  scripts := h.scripts
  table := h.table
  nextNode := h.nextNode
  globals i := by
    have hid : g'.id = g.id := by rw [hg.same]
    simp only [Program.setGlobal, Array.getElem?_setIfInBounds, hid, size_eq_of_rel h.globals]
    split
    · split
      · exact .some hg
      · exact .none
    · exact h.globals i

theorem Program.Beside.setScript (h : p.Beside M p') {s s' : Script} (hs : s.Beside M s') :
    (p.setScript s).Beside M (p'.setScript s') where
  globals := h.globals
  table := h.table
  nextNode := h.nextNode
  scripts i := by
    have hid : s'.id = s.id := by rw [hs.same]
    simp only [Program.setScript, Array.getElem?_setIfInBounds, hid, size_eq_of_rel h.scripts]
    split
    · split
      · exact .some hs
      · exact .none
    · exact h.scripts i

theorem Program.Beside.allIds_eq (h : p.Beside M p') : p'.allIds = p.allIds := by
  rw [allIds, allIds,
    map_eq_of_rel h.globals (f := fun g => .global g.id) fun g g' hg => by rw [hg.same],
    map_eq_of_rel h.scripts (f := fun s => .script s.id) fun s s' hs => by rw [hs.same]]

theorem Program.Beside.foldl_remove (names : List Text) (h : p.Beside M p') :
    (names.foldl Program.remove p).Beside M (names.foldl Program.remove p') := by
  induction names generalizing p p' with
  | nil => exact h
  | cons name rest ih =>
    exact ih { h with table := congrArg (Table.remove · name) h.table }

end

/-! ## 4. The steps -/

/-- Hooks that edit elements and values only, and do not notice the difference.  As long as they
have not failed their state is calm. -/
structure Hooks.Abreast (h : Hooks σ) (M : Pairing) (calm failed : σ → Prop) : Prop where
  onGlobal : ∀ view g s, h.onGlobal view g s = (⟨false, g.isConst⟩, s)
  onScript : ∀ a s, h.onScript a s = (false, s)
  onCall : ∀ head s, h.onCall head s = s
  onElement : ∀ {view view' v v'} place {s}, view.Beside M view' → M.rel v v' → calm s →
    ¬ failed (h.onElement view place v s).2 →
    calm (h.onElement view place v s).2 ∧
      (h.onElement view place v s).1.Beside M (h.onElement view' place v' s).1 ∧
      (h.onElement view' place v' s).2 = (h.onElement view place v s).2
  onValue : ∀ {view view' v v' s}, view.Beside M view' → M.rel v v' → calm s →
    ¬ failed (h.onValue view v s).2 →
    calm (h.onValue view v s).2 ∧ M.Opened (h.onValue view v s).1 (h.onValue view' v' s).1 ∧
      (h.onValue view' v' s).2 = (h.onValue view v s).2
  onElement_failed : ∀ view place v s, failed s → failed (h.onElement view place v s).2
  onValue_failed : ∀ view v s, failed s → failed (h.onValue view v s).2

namespace Machine

variable {h : Hooks σ} {calm failed : σ → Prop} {m m' : Machine σ}

section Entering

variable (hh : h.Abreast M calm failed)

include hh

theorem state_enter (d : DeclId) (m : Machine σ) : (m.enter h d).state = m.state :=
  enter_state (fun _ _ _ => by rw [hh.onGlobal]) (fun _ _ => by rw [hh.onScript]) d m

theorem Beside.enterGlobal (hm : m.Beside M m') (id : GlobalId) :
    (m.enterGlobal h id).Beside M (m'.enterGlobal h id) := by
  obtain @⟨p, p', frames, frames', unseen, entries, removals, state, hp, hframes⟩ := hm
  have hglobal := hp.globals id.serial
  simp only [Machine.enterGlobal, hh.onGlobal, Program.global?]
  split
  · generalize p.globals[id.serial]? = x at hglobal
    generalize p'.globals[id.serial]? = y at hglobal
    cases hglobal with
    | none => exact ⟨hp, hframes⟩
    | @some g g' hg =>
      refine ⟨hp.setGlobal hg, .cons ⟨rfl, ?_, .nil, .cons hg.value .nil⟩ hframes⟩
      intro t head howner
      cases howner
  · exact ⟨hp, hframes⟩

theorem Beside.enterScript (hm : m.Beside M m') (id : ScriptId) :
    (m.enterScript h id).Beside M (m'.enterScript h id) := by
  obtain @⟨p, p', frames, frames', unseen, entries, removals, state, hp, hframes⟩ := hm
  have hscript := hp.scripts id.serial
  simp only [Machine.enterScript, hh.onScript, Program.script?]
  split
  · generalize p.scripts[id.serial]? = x at hscript
    generalize p'.scripts[id.serial]? = y at hscript
    cases hscript with
    | none => exact ⟨hp, hframes⟩
    | @some s s' hs =>
      refine ⟨hp, .cons ⟨rfl, ?_, .nil, hs.body⟩ hframes⟩
      intro t head howner
      cases howner
  · exact ⟨hp, hframes⟩

theorem Beside.enter (hm : m.Beside M m') (d : DeclId) : (m.enter h d).Beside M (m'.enter h d) := by
  cases d with
  | global id => exact hm.enterGlobal hh id
  | script id => exact hm.enterScript hh id

end Entering

/-- A list has come to its end in both walks. -/
theorem Beside.close (hm : m.Beside M m') {f f' : Frame} (hf : f.Beside M f')
    {below below' : List Frame} (hbelow : Forall₂ (Frame.Beside M) below below') :
    (m.close f below).Beside M (m'.close f' below') := by
  obtain @⟨p, p', frames, frames', unseen, entries, removals, state, hp, hframes⟩ := hm
  simp only [Machine.close, hf.owner]
  cases howner : f.owner with
  | global id =>
    refine ⟨?_, hbelow⟩
    have hglobal := hp.globals id.serial
    have hdone := hf.done
    simp only [Program.global?]
    generalize p.globals[id.serial]? = x at hglobal
    generalize p'.globals[id.serial]? = y at hglobal
    generalize f.done = done at hdone
    generalize f'.done = done' at hdone
    cases hglobal with
    | none => exact hp
    | @some g g' hg =>
      cases hdone with
      | nil => exact hp
      | cons hv => exact hp.setGlobal ⟨by rw [hg.same], hv⟩
  | script id =>
    refine ⟨?_, hbelow⟩
    have hscript := hp.scripts id.serial
    simp only [Program.script?]
    generalize p.scripts[id.serial]? = x at hscript
    generalize p'.scripts[id.serial]? = y at hscript
    cases hscript with
    | none => exact hp
    | @some s s' hs => exact hp.setScript ⟨by rw [hs.same], rel_reverse hf.done⟩
  | call t head =>
    cases hbelow with
    | nil => exact ⟨hp, .nil⟩
    | @cons f₀ f₀' rest rest' hf₀ hrest =>
      have hv := M.call (t := t) (hf.opens t head howner) (rel_reverse hf.done)
      exact ⟨hp, .cons { hf₀ with done := .cons hv hf₀.done } hrest⟩

section Walking

variable (hh : h.Abreast M calm failed) (references : Bool)

include hh

theorem state_visit (owner : Owner) (done : List Value) (v : Value) (rest : List Value)
    (below : List Frame) (m : Machine σ) :
    (m.visit h references owner done v rest below).state =
      (h.onValue (.during m.program (⟨owner, done, v :: rest⟩ :: below)) v m.state).2 :=
  visit_state (fun _ _ _ => by rw [hh.onGlobal]) (fun _ _ => by rw [hh.onScript]) hh.onCall
    owner done v rest below m

variable {owner : Owner} {done done' rest rest' : List Value} {v v' : Value}
  {below below' : List Frame}

section

variable (hm : m.Beside M m') (hcalm : calm m.state)
  (hf : Frame.Beside M ⟨owner, done, v :: rest⟩ ⟨owner, done', v' :: rest'⟩)
  (hbelow : Forall₂ (Frame.Beside M) below below')

include hm hcalm hf hbelow

/-- A value is visited in both walks. -/
theorem Beside.visit (hok : ¬ failed (m.visit h references owner done v rest below).state) :
    (m.visit h references owner done v rest below).Beside M
        (m'.visit h references owner done' v' rest' below') ∧
      calm (m.visit h references owner done v rest below).state := by
  rw [state_visit hh] at hok ⊢
  obtain @⟨p, p', frames, frames', unseen, entries, removals, state, hp, hframes⟩ := hm
  have hview := View.during_beside hp (Forall₂.cons hf hbelow)
  obtain ⟨-, hopens, hdone, htodo⟩ := hf
  obtain ⟨hv, hrest⟩ := forall₂_cons.mp htodo
  obtain ⟨hcalm', hopened, hstate⟩ := hh.onValue hview hv hcalm hok
  refine ⟨?_, hcalm'⟩
  rw [visit_eq, visit_eq]
  generalize h.onValue (.during p (⟨owner, done, v :: rest⟩ :: below)) v state = r at *
  generalize h.onValue (.during p' (⟨owner, done', v' :: rest'⟩ :: below')) v' state = r' at *
  obtain ⟨w, s⟩ := r
  obtain ⟨w', s'⟩ := r'
  dsimp only at hopened hstate ⊢
  subst hstate
  have hlead : w'.lead? references = w.lead? references := by cases hopened <;> rfl
  have hnext : Machine.Beside M
      (⟨p, unseen, entries, answered owner done rest below w, removals, h.told w s'⟩ : Machine σ)
      ⟨p', unseen, entries, answered owner done' rest' below' w', removals, h.told w' s'⟩ := by
    cases hopened with
    | leaf t l =>
      exact ⟨hp, .cons ⟨rfl, hopens, .cons (M.leaf t l) hdone, hrest⟩ hbelow⟩
    | call t hhead hargs =>
      refine ⟨hp, .cons ⟨rfl, fun t' head' heq => ?_, .nil, hargs⟩
        (.cons ⟨rfl, hopens, hdone, hrest⟩ hbelow)⟩
      cases heq
      exact hhead
  rw [hlead]
  cases w.lead? references with
  | none => exact hnext
  | some d => exact hnext.enter hh d

/-- An element is offered in both walks. -/
theorem Beside.offer (hok : ¬ failed (m.offer h references owner done v rest below).state) :
    (m.offer h references owner done v rest below).Beside M
        (m'.offer h references owner done' v' rest' below') ∧
      calm (m.offer h references owner done v rest below).state := by
  obtain @⟨p, p', frames, frames', unseen, entries, removals, state, hp, hframes⟩ := hm
  have hview := View.during_beside hp (Forall₂.cons hf hbelow)
  obtain ⟨-, hopens, hdone, htodo⟩ := hf
  obtain ⟨hv, hrest⟩ := forall₂_cons.mp htodo
  have hplace : (⟨owner, !done'.isEmpty, !rest'.isEmpty⟩ : Place) =
      ⟨owner, !done.isEmpty, !rest.isEmpty⟩ := by
    rw [isEmpty_eq_of_rel hdone, isEmpty_eq_of_rel hrest]
  have helement := hh.onElement ⟨owner, !done.isEmpty, !rest.isEmpty⟩ hview hv hcalm
  rw [Machine.offer] at hok ⊢
  rw [Machine.offer, hplace]
  generalize h.onElement (.during p (⟨owner, done, v :: rest⟩ :: below))
    ⟨owner, !done.isEmpty, !rest.isEmpty⟩ v state = r at *
  generalize h.onElement (.during p' (⟨owner, done', v' :: rest'⟩ :: below'))
    ⟨owner, !done.isEmpty, !rest.isEmpty⟩ v' state = r' at *
  obtain ⟨o, s⟩ := r
  obtain ⟨o', s'⟩ := r'
  have hnot : ¬ failed s := by
    intro hfail
    refine hok ?_
    cases o with
    | drop => exact hfail
    | keep =>
      rw [state_visit hh]
      exact hh.onValue_failed _ _ _ hfail
  obtain ⟨hcalm', hoffer, hstate⟩ := helement hnot
  subst hstate
  cases hoffer with
  | drop hvs =>
    exact ⟨⟨hp, .cons ⟨rfl, hopens, hdone, rel_append hvs hrest⟩ hbelow⟩, hcalm'⟩
  | keep hw hvs =>
    have hnext : Machine.Beside M (⟨p, unseen, entries, [], removals, s'⟩ : Machine σ)
      ⟨p', unseen, entries, [], removals, s'⟩ := ⟨hp, .nil⟩
    exact hnext.visit hh references hcalm'
      ⟨rfl, hopens, hdone, .cons hw (rel_append hvs hrest)⟩ hbelow hok

end

/-- **Two walks go abreast**, as long as they do not fail. -/
theorem Beside.step (hm : m.Beside M m') (hcalm : calm m.state)
    (hok : ¬ failed (m.step h references).state) :
    (m.step h references).Beside M (m'.step h references) ∧ calm (m.step h references).state := by
  have hm' := hm
  obtain @⟨p, p', frames, frames', unseen, entries, removals, state, hp, hframes⟩ := hm'
  unfold Machine.step at hok ⊢
  cases hframes with
  | nil =>
    cases entries with
    | nil => exact ⟨hm, hcalm⟩
    | cons d rest =>
      have hnext : Machine.Beside M (⟨p, unseen, rest, [], removals, state⟩ : Machine σ)
        ⟨p', unseen, rest, [], removals, state⟩ := ⟨hp, .nil⟩
      exact ⟨hnext.enter hh d, by rw [state_enter hh]; exact hcalm⟩
  | @cons f f' below below' hf hbelow =>
    obtain ⟨owner, done, todo⟩ := f
    obtain ⟨owner', done', todo'⟩ := f'
    have htodo := hf.todo
    obtain rfl : owner' = owner := hf.owner
    cases htodo with
    | nil =>
      rw [(close_keeps _ _ _).1]
      exact ⟨hm.close hf hbelow, hcalm⟩
    | cons =>
      cases owner' with
      | global => exact hm.visit hh references hcalm hf hbelow hok
      | script | call => exact hm.offer hh references hcalm hf hbelow hok

omit hh in
theorem Beside.isOver_eq (hm : m.Beside M m') : m'.isOver = m.isOver := by
  obtain ⟨-, hframes⟩ := hm
  rw [isOver, isOver, isEmpty_eq_of_rel hframes]

theorem failed_offer (owner : Owner) (done : List Value) (v : Value) (rest : List Value)
    (below : List Frame) (hf : failed m.state) :
    failed (m.offer h references owner done v rest below).state := by
  obtain ⟨program, unseen, entries, frames, removals, state⟩ := m
  have helement := hh.onElement_failed (.during program (⟨owner, done, v :: rest⟩ :: below))
    ⟨owner, !done.isEmpty, !rest.isEmpty⟩ v state hf
  rw [Machine.offer]
  split
  · next hx =>
    rw [hx] at helement
    exact helement
  · next hx =>
    rw [hx] at helement
    rw [state_visit hh]
    exact hh.onValue_failed _ _ _ helement

theorem failed_step (hf : failed m.state) : failed (m.step h references).state := by
  unfold Machine.step
  split
  · split
    · exact hf
    · rw [state_enter hh]
      exact hf
  · rw [(close_keeps _ _ _).1]
    exact hf
  · split
    · rw [state_visit hh]
      exact hh.onValue_failed _ _ _ hf
    · exact failed_offer hh references _ _ _ _ _ hf

theorem failed_run (m : Machine σ) (hf : failed m.state) : failed (m.run h references).state := by
  fun_induction Machine.run h references m with
  | case1 m hover => exact hf
  | case2 m hover ih => exact ih (failed_step hh references hf)

/-- **Two walks end abreast.** -/
theorem Beside.run (m m' : Machine σ) (hm : m.Beside M m') (hcalm : calm m.state)
    (hok : ¬ failed (m.run h references).state) :
    (m.run h references).Beside M (m'.run h references) := by
  fun_induction Machine.run h references m generalizing m' with
  | case1 m hover =>
    rw [Machine.run, dif_pos (hm.isOver_eq.trans hover)]
    exact hm
  | case2 m hover ih =>
    rw [Machine.run.eq_def h references m', dif_neg (by rw [hm.isOver_eq]; exact hover)]
    have hnot : ¬ failed (m.step h references).state := fun hf =>
      hok (failed_run hh references _ hf)
    obtain ⟨hnext, hcalm'⟩ := hm.step hh references hcalm hnot
    exact ih _ hnext hcalm' hok

end Walking

end Machine

/-- **A walk does not notice the difference**, unless it fails. -/
theorem Program.Beside.walk {h : Hooks σ} {calm failed : σ → Prop} (hh : h.Abreast M calm failed)
    {p p' : Program} (hp : p.Beside M p') {s : σ} (hcalm : calm s)
    (hok : ¬ failed (p.walk h true s).2) :
    (p.walk h true s).1.Beside M (p'.walk h true s).1 ∧
      (p'.walk h true s).2 = (p.walk h true s).2 := by
  have hstart : (Machine.start p s).Beside M (Machine.start p' s) := by
    rw [Machine.start, Machine.start, hp.allIds_eq, hp.table]
    exact ⟨hp, .nil⟩
  have hend := hstart.run hh true _ _ hcalm hok
  unfold Program.walk
  generalize (Machine.start p s).run h true = m at hend
  generalize (Machine.start p' s).run h true = m' at hend
  obtain ⟨hends, -⟩ := hend
  exact ⟨hends.foldl_remove _, rfl⟩

end HaloScript
