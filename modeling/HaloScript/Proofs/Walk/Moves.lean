/-
# The moves of a walk

What a walk does to a program can be said without its stack.  With all frames put back where
they belong (`Machine.now`), a step of the machine is a short sequence of moves, and a move is
one call of a hook (`Move`).  A declaration is entered, one value in a declaration is replaced
by what its hook answers, or only the state of the hooks changes.  Where a list is opened or
ended nothing moves at all.

`walk_moves` says that every walk is such a sequence.  An invariant of a walk is then proved by
cases on a move, and no such proof looks at a frame.
-/
import HaloScript.Proofs.Walk.Content
import Mathlib.Logic.Relation

namespace HaloScript

open List Option Declaration HaloScript.Frame Program Value

variable {σ : Type}

/-! ## 1. Roots -/

/-- A value without its arguments. -/
inductive Root where
  | leaf (tag : Tag) (leaf : Leaf)
  | call (tag : Tag) (head : Head)

/-- The declaration that a leaf refers to, or that a call calls. -/
def Root.refers? : Root → Option DeclId
  | .leaf _ l => l.target?
  | .call _ h => h.callee.target?

namespace Value

def root : Value → Root
  | .leaf t l => .leaf t l
  | .call t h _ => .call t h

def args : Value → List Value
  | .leaf _ _ => []
  | .call _ _ args => args

mutual

/-- The roots of a value and of all values inside it. -/
def roots : Value → List Root
  | .leaf t l => [.leaf t l]
  | .call t h args => .call t h :: rootsAll args

def rootsAll : List Value → List Root
  | [] => []
  | v :: rest => roots v ++ rootsAll rest

end

mutual

theorem map_root_parts (v : Value) : v.parts.map root = v.roots := by
  match v with
  | .leaf t l => rfl
  | .call t h args => rw [parts, map_cons, map_root_partsAll args, roots, root]

theorem map_root_partsAll (vs : List Value) : (partsAll vs).map root = rootsAll vs := by
  match vs with
  | [] => rfl
  | v :: rest => rw [partsAll, map_append, map_root_parts v, map_root_partsAll rest, rootsAll]

end

theorem root_mem_rootsAll {v : Value} {vs : List Value} (h : v ∈ partsAll vs) :
    v.root ∈ rootsAll vs := map_root_partsAll vs ▸ List.mem_map_of_mem h

theorem rootsAll_append (xs ys : List Value) :
    rootsAll (xs ++ ys) = rootsAll xs ++ rootsAll ys := by
  induction xs with
  | nil => rfl
  | cons x xs ih => simp [rootsAll, ih]

theorem rootsAll_singleton (v : Value) : rootsAll [v] = v.root :: rootsAll v.args := by
  cases v <;> simp [rootsAll, roots, root, args]

theorem id_eq_of_root_eq {v w : Value} (h : v.root = w.root) : v.id = w.id := by
  cases v <;> cases w <;> cases h <;> rfl

/-- Whether one of the values refers to a declaration. -/
def Refer (vs : List Value) (d : DeclId) : Prop := ∃ r ∈ rootsAll vs, r.refers? = some d

theorem refer_root {v : Value} {d : DeclId} (h : v.root.refers? = some d) : Refer [v] d := by
  refine ⟨v.root, ?_, h⟩
  rw [rootsAll_singleton]
  exact mem_cons_self

end Value

/-- An edit exchanges the roots of one value for those of others. -/
theorem Spot.Edit.roots_perm {spot : Spot} {vs xs ys : List Value} {o : Owner}
    (h : spot.Edit vs o xs ys) : ∃ others,
      (rootsAll xs).Perm (rootsAll [spot.focus] ++ others) ∧
        (rootsAll ys).Perm (rootsAll vs ++ others) :=
  h.perm rootsAll (fun t h => [.call t h]) rootsAll_append
    fun t h args => by simp [rootsAll, roots]

theorem Spot.Edit.refer_iff {spot : Spot} {vs xs ys : List Value} {o : Owner}
    (h : spot.Edit vs o xs ys) : ∃ others : DeclId → Prop, ∀ d,
      (Refer xs d ↔ Refer [spot.focus] d ∨ others d) ∧
        (Refer ys d ↔ Refer vs d ∨ others d) := by
  obtain ⟨others, hxs, hys⟩ := h.roots_perm
  refine ⟨fun d => ∃ r ∈ others, r.refers? = some d, fun d => ?_⟩
  simp only [Refer, hxs.mem_iff, hys.mem_iff, mem_append, or_and_right, exists_or,
    and_self]

/-! ## 2. Standings and moves -/

/-- How far a walk has come.  The last four fields are there for what is said about walks; no
hook sees them. -/
structure Standing (σ : Type) where
  /-- The program as the walk has made it so far. -/
  now : Program
  /-- The declarations not entered yet. -/
  unseen : List DeclId
  /-- The declarations whose values the walk has begun to edit. -/
  opened : List DeclId
  /-- The declarations to take off the table, the last one first. -/
  removed : List DeclId
  state : σ
  /-- The values that are still to be visited. -/
  pending : List Value
  /-- What the hook for values has answered so far, without arguments. -/
  visited : List Root
  /-- The declaration that the value visited last refers to, until it is entered. -/
  due : Option DeclId
  /-- The element that was offered last, until it is visited. -/
  offered : Option Spot

namespace Standing

def start (p : Program) (s : σ) : Standing σ where
  now := p
  unseen := p.allIds
  opened := []
  removed := []
  state := s
  pending := []
  visited := []
  due := none
  offered := none

/-- The walk has a reason to enter a declaration: it is in the table, or a declaration refers to
it whose values the walk edits. -/
def Reaches (s : Standing σ) (d : DeclId) : Prop :=
  d ∈ s.now.table.entries ∨ ∃ e ∈ s.opened, Refer (s.now.content e) d

def enterGlobal (s : Standing σ) (g : Global) (answer : Verdict × σ) : Standing σ :=
  { s with
    now := s.now.set (.global { g with isConst := answer.1.isConst })
    unseen := s.unseen.erase (.global g.id)
    opened := if answer.1.remove then s.opened else .global g.id :: s.opened
    removed := if answer.1.remove then .global g.id :: s.removed else s.removed
    state := answer.2
    pending := if answer.1.remove then s.pending else g.value :: s.pending
    due := none }

def enterScript (s : Standing σ) (a : Script) (answer : Bool × σ) : Standing σ :=
  { s with
    unseen := s.unseen.erase (.script a.id)
    opened := if answer.1 then s.opened else .script a.id :: s.opened
    removed := if answer.1 then .script a.id :: s.removed else s.removed
    state := answer.2
    pending := if answer.1 then s.pending else a.body ++ s.pending
    due := none }

/-- A declaration is entered, of which the hooks have made this. -/
def enter (s : Standing σ) (a : Declaration) (r : Bool × Program × σ) : Standing σ :=
  { s with
    now := r.2.1
    unseen := s.unseen.erase a.id
    opened := if r.1 then s.opened else a.id :: s.opened
    removed := if r.1 then a.id :: s.removed else s.removed
    state := r.2.2
    pending := if r.1 then s.pending else a.values ++ s.pending
    due := none }

/-- The values of a declaration are edited at a spot, where an element was offered. -/
def offer (s : Standing σ) (d : DeclId) (spot : Spot) (answer : Offer × σ) (vs rest : List Value) :
    Standing σ :=
  { s with
    now := s.now.put d vs
    state := answer.2
    pending := answer.1.values ++ rest
    offered := match answer.1 with
      | .keep v inserted => some ⟨spot.owner, spot.before, v, inserted ++ spot.after⟩
      | .drop _ => none }

/-- The values of a declaration are edited where a value was visited. -/
def visit (s : Standing σ) (d : DeclId) (answer : Value × σ) (vs rest : List Value) : Standing σ :=
  { s with
    now := s.now.put d vs
    state := answer.2
    pending := answer.1.args ++ rest
    visited := answer.1.root :: s.visited
    due := answer.1.root.refers?
    offered := none }

end Standing

/-- What hooks see is the program as it is now.  Only of a declaration that is being edited they
may see an older version, and of a global only if they ask for it under a wrong name. -/
structure View.Shows (view : View) (s : Standing σ) : Prop where
  size : view.scene.size = s.now.globals.size
  known : ∀ id, .global id ∈ s.now.allIds → view.scene.global? id = s.now.global? id
  global : ∀ id g, view.scene.global? id = some g → ∃ g', s.now.global? id = some g' ∧
    g.id = g'.id ∧ g.isConst = g'.isConst ∧ (g = g' ∨ .global g.id ∈ s.opened)
  script : ∀ id a, view.script? id = some a → ∃ a', s.now.script? id = some a' ∧
    a.signature = a'.signature ∧ (a = a' ∨ .script a.id ∈ s.opened)
  signatures : ∀ id, (view.script? id).map Script.signature =
    (s.now.script? id).map Script.signature

/-- One call of a hook, and what the walk does with the answer. -/
inductive Move (h : Hooks σ) : Standing σ → Standing σ → Prop
  | global {s : Standing σ} (view : View) (g : Global) (hview : view.Shows s)
      (hg : s.now.global? g.id = some g) (hunseen : .global g.id ∈ s.unseen)
      (hreach : s.Reaches (.global g.id)) (hdue : ∀ d ∈ s.due, d = .global g.id) :
      Move h s (s.enterGlobal g (h.onGlobal view g s.state))
  | script {s : Standing σ} (a : Script) (ha : s.now.script? a.id = some a)
      (hunseen : .script a.id ∈ s.unseen) (hreach : s.Reaches (.script a.id))
      (hdue : ∀ d ∈ s.due, d = .script a.id) :
      Move h s (s.enterScript a (h.onScript a s.state))
  | element {s : Standing σ} (view : View) (d : DeclId) (spot : Spot) (vs rest : List Value)
      (hview : view.Shows s) (hd : d ∈ s.opened) (howner : ∀ id, spot.owner ≠ .global id)
      (hdue : s.due = none) (hpending : s.pending = spot.focus :: rest)
      (hedit : spot.Edit (h.onElement view spot.place spot.focus s.state).1.values d.owner
        (s.now.content d) vs) (hsuits : Suits d vs) :
      Move h s (s.offer d spot (h.onElement view spot.place spot.focus s.state) vs rest)
  | value {s : Standing σ} (view : View) (d : DeclId) (spot : Spot) (vs rest : List Value)
      (hview : view.Shows s) (hd : d ∈ s.opened)
      (hoffered : (∀ id, spot.owner ≠ .global id) → s.offered = some spot)
      (hdue : s.due = none) (hpending : s.pending = spot.focus :: rest)
      (hedit : spot.Edit [(h.onValue view spot.focus s.state).1] d.owner (s.now.content d) vs)
      (hsuits : Suits d vs) :
      Move h s (s.visit d (h.onValue view spot.focus s.state) vs rest)
  | call {s : Standing σ} (head : Head) : Move h s { s with state := h.onCall head s.state }
  | skip {s : Standing σ} (hdue : ∀ d ∈ s.due, d ∉ s.unseen) : Move h s { s with due := none }

/-- A declaration is entered. -/
theorem Move.enter {h : Hooks σ} {s : Standing σ} {view : View} {a : Declaration}
    (hview : view.Shows s) (ha : s.now.declaration? a.id = some a) (hunseen : a.id ∈ s.unseen)
    (hreach : s.Reaches a.id) (hdue : ∀ d ∈ s.due, d = a.id) :
    Move h s (s.enter a (h.allow view s.now s.state a)) := by
  cases a with
  | global =>
    obtain ⟨g', hg, heq⟩ := map_eq_some_iff.mp ha
    obtain rfl := Declaration.global.inj heq
    exact .global view g' hview hg hunseen hreach hdue
  | script =>
    obtain ⟨a', hs, heq⟩ := map_eq_some_iff.mp ha
    obtain rfl := Declaration.script.inj heq
    exact .script a' hs hunseen hreach hdue

/-- What a move opens or removes, it has reached. -/
theorem Move.marks {h : Hooks σ} {s s' : Standing σ} (hmove : Move h s s') :
    (s'.opened = s.opened ∧ s'.removed = s.removed) ∨ ∃ d, s.Reaches d ∧
      (s'.opened = d :: s.opened ∧ s'.removed = s.removed ∨
        s'.opened = s.opened ∧ s'.removed = d :: s.removed) := by
  cases hmove with
  | global view g hview hg hunseen hreach =>
    refine .inr ⟨_, hreach, ?_⟩
    cases hr : (h.onGlobal view g s.state).1.remove <;> simp [Standing.enterGlobal, hr]
  | script a ha hunseen hreach =>
    refine .inr ⟨_, hreach, ?_⟩
    cases hr : (h.onScript a s.state).1 <;> simp [Standing.enterScript, hr]
  | element | value | call | skip => exact .inl ⟨rfl, rfl⟩

abbrev Moves (h : Hooks σ) : Standing σ → Standing σ → Prop := Relation.ReflTransGen (Move h)

/-! ## 3. Machines and standings -/

namespace Machine

variable {unseen entries : List DeclId} {program : Program} {removals : List Text}
  {below : List Frame} {frames : List Frame} {done : List Value} {rest : List Value} {state : σ}
  {owner : Owner} {d : DeclId}

/-- The values that are still to be visited, the innermost list first. -/
def pending (frames : List Frame) : List Value := frames.flatMap todo

/-- What a walk has done so far. -/
structure Trail where
  opened : List DeclId
  removed : List DeclId
  visited : List Root

/-- How far the machine has come between two steps. -/
def standing (m : Machine σ) (trail : Trail) : Standing σ where
  now := m.now
  unseen := m.unseen
  opened := trail.opened
  removed := trail.removed
  state := m.state
  pending := pending m.frames
  visited := trail.visited
  due := none
  offered := none

/-- What holds between two steps of a walk of the program `p`. -/
structure Stands (p : Program) (m : Machine σ) (trail : Trail) : Prop where
  alike : p.Alike m.program
  table : m.program.table = p.table
  entries : ∀ d ∈ m.entries, d ∈ p.table.entries
  entered : ∀ d ∈ p.table.entries, d ∈ m.entries ∨ d ∉ m.unseen
  unseen : m.unseen.Nodup
  known : ∀ d ∈ m.unseen, d ∈ p.allIds
  opened_known : ∀ d ∈ trail.opened, d ∈ p.allIds ∧ d ∉ m.unseen
  removals : m.removals = trail.removed.map DeclId.name
  rooted : Rooted m.frames
  fillable : p.Fillable (contents none m.frames)
  open' : ∀ c ∈ contents none m.frames, c.1 ∈ trail.opened

variable {p : Program} {m : Machine σ} {trail : Trail} {h : Hooks σ}

theorem stands_start (hp : p.Tidy) (s : σ) : (start p s).Stands p ⟨[], [], []⟩ where
  alike := .refl p
  table := rfl
  entries _ hd := hd
  entered _ hd := .inl hd
  unseen := hp.allIds_nodup
  known _ hd := hd
  opened_known d hd := absurd hd not_mem_nil
  removals := rfl
  rooted := True.intro
  fillable := ⟨nodup_nil, by simp [start, contents], by simp [start, contents]⟩
  open' := by simp [start, contents]

namespace Stands

variable {d : DeclId} (hm : m.Stands p trail)

include hm

theorem tidy (hp : p.Tidy) : m.program.Tidy :=
  hp.of_alike hm.alike (by rw [hm.table])

theorem fillable_program :
    m.program.Fillable (contents none m.frames) := hm.fillable.of_alike hm.alike

theorem alike_now (hp : p.Tidy) : p.Alike m.now :=
  hm.alike.trans (hm.fillable_program.alike_fill (hm.tidy hp))

theorem table_now : m.now.table = p.table :=
  (Fillable.table_fill _ _).trans hm.table

theorem tidy_now (hp : p.Tidy) : m.now.Tidy :=
  hp.of_alike (hm.alike_now hp) (by rw [hm.table_now])

theorem declaration?_now (hp : p.Tidy) (hd : d ∈ p.allIds)
    (hnot : d ∉ (contents none m.frames).map Prod.fst) :
    m.now.declaration? d = m.program.declaration? d :=
  hm.fillable_program.declaration?_fill (hm.tidy hp) hnot (hm.alike.allIds_eq ▸ hd)

theorem opened_of_mem (hd : d ∈ (contents none m.frames).map Prod.fst) : d ∈ trail.opened := by
  obtain ⟨c, hc, rfl⟩ := List.mem_map.mp hd
  exact hm.open' c hc

theorem not_mem_of_unseen (hd : d ∈ m.unseen) :
    d ∉ (contents none m.frames).map Prod.fst := fun hmem =>
  (hm.opened_known d (hm.opened_of_mem hmem)).2 hd

end Stands

theorem lookup_cases (contents : List (DeclId × List Value)) (d : DeclId) :
    (contents.lookup d = none ∧ d ∉ contents.map Prod.fst) ∨
      ∃ vs, contents.lookup d = some vs ∧ (d, vs) ∈ contents := by
  cases hlook : contents.lookup d with
  | none =>
    refine .inl ⟨rfl, fun hmem => ?_⟩
    obtain ⟨c, hc, rfl⟩ := List.mem_map.mp hmem
    simpa using lookup_eq_none_iff.mp hlook c hc
  | some vs =>
    obtain ⟨before, after, heq, -⟩ := lookup_eq_some_iff.mp hlook
    exact .inr ⟨vs, rfl, by simp [heq]⟩

/-- What hooks see of a global under its own name. -/
theorem Stands.global?_during (hm : m.Stands p trail) (hp : p.Tidy) {id : GlobalId}
    (hid : .global id ∈ p.allIds) :
    (View.during m.program m.frames).scene.global? id = m.now.global? id := by
  obtain ⟨g, -, hg, -⟩ := (hm.tidy hp).global?_of_mem_allIds (hm.alike.allIds_eq ▸ hid)
  have hdecl : m.program.declaration? (.global id) = some (.global g) := by
    simp [declaration?, hg]
  have hnow : m.now.declaration? (.global id) = (m.now.global? id).map .global := rfl
  simp only [View.during, hg, map_some, globalValue?_eq]
  rcases lookup_cases (contents none m.frames) (.global id) with
    ⟨hlook, hnot⟩ | ⟨vs, hlook, hmem⟩
  · rw [hm.declaration?_now hp hid hnot, hdecl] at hnow
    obtain ⟨g', hg', heq⟩ := map_eq_some_iff.mp hnow.symm
    rw [hlook, hg', Declaration.global.inj heq]
    rfl
  · have hfill := hm.fillable_program.declaration?_fill_of_mem (hm.tidy hp) hmem hdecl
    obtain ⟨v, rfl⟩ := length_eq_one_iff.mp (hm.fillable.suits _ hmem)
    obtain ⟨g', hg', heq⟩ := map_eq_some_iff.mp (hnow.symm.trans hfill)
    rw [hlook, hg', Declaration.global.inj heq]
    rfl

/-- **What hooks see during a walk** is the program as it is now. -/
theorem Stands.shows (hm : m.Stands p trail) (hp : p.Tidy) :
    (View.during m.program m.frames).Shows (m.standing trail) := by
  have htidy := hm.tidy hp
  have hids : p.allIds = m.now.allIds := (hm.alike_now hp).allIds_eq
  refine ⟨?_, fun id hid => hm.global?_during hp (hids ▸ hid), fun id g hg => ?_,
    fun id a ha => ?_, fun id => ?_⟩
  · have hmap := (hm.fillable_program.alike_fill htidy).globals
    have hsize := congrArg Array.size hmap
    rw [Array.size_map, Array.size_map] at hsize
    exact hsize
  · obtain ⟨g₀, hg₀, rfl⟩ := map_eq_some_iff.mp hg
    have hserial : g₀.id.serial = id.serial := htidy.globalSerial _ g₀ hg₀
    have hfound : m.program.global? g₀.id = some g₀ := by
      rw [global?, hserial]
      exact hg₀
    have hmem : DeclId.global g₀.id ∈ p.allIds := by
      rw [hm.alike.allIds_eq, allIds_eq_map]
      exact List.mem_map_of_mem (mem_all_global.mpr (Array.mem_of_getElem? hg₀))
    have hnow : m.now.global? id = m.now.global? g₀.id := by
      rw [global?, global?, hserial]
    have hsame := hm.global?_during hp hmem
    rw [View.during] at hsame
    simp only [hfound, map_some] at hsame
    refine ⟨_, hnow.trans hsame.symm, rfl, rfl, ?_⟩
    by_cases hopen : DeclId.global g₀.id ∈ (contents none m.frames).map Prod.fst
    · exact .inr (hm.opened_of_mem hopen)
    · -- a global that is not on the stack is not found there under any name
      have hnone : ∀ i : GlobalId, i.serial = g₀.id.serial →
          globalValue? i none m.frames = none := by
        intro i hi
        rw [globalValue?_eq]
        rcases lookup_cases (contents none m.frames) (.global i) with
          ⟨hlook, -⟩ | ⟨vs, -, hi'⟩
        · rw [hlook]
          rfl
        · have hi'' := List.mem_map_of_mem (f := Prod.fst) hi'
          have hknown := hm.fillable.known _ hi''
          by_cases heq : i = g₀.id
          · exact absurd (heq ▸ hi'') hopen
          · exact absurd hi (hp.global_serial_ne hknown hmem heq)
      rw [hnone id hserial.symm, hnone g₀.id rfl]
      exact .inl rfl
  · have ha' : m.program.script? id = some a := ha
    have hserial : a.id.serial = id.serial := htidy.scriptSerial _ a ha'
    have hfound : m.program.declaration? (.script a.id) = some (.script a) := by
      rw [declaration?, script?, hserial, ← script?, ha']
      rfl
    have hmem : DeclId.script a.id ∈ p.allIds := by
      rw [hm.alike.allIds_eq, allIds_eq_map]
      exact List.mem_map_of_mem (mem_all_script.mpr (Array.mem_of_getElem? ha'))
    have hnow : m.now.script? id = m.now.script? a.id := by
      rw [script?, script?, hserial]
    obtain ⟨a', hsig, hsigs⟩ := (hm.fillable_program.alike_fill htidy).getElem?_scripts ha'
    refine ⟨a', hsig, hsigs, ?_⟩
    by_cases hopen : DeclId.script a.id ∈ (contents none m.frames).map Prod.fst
    · exact .inr (hm.opened_of_mem hopen)
    · have hdecl := (hm.declaration?_now hp hmem hopen).trans hfound
      obtain ⟨a'', ha'', heq⟩ := map_eq_some_iff.mp hdecl
      have : m.now.script? id = some a' := hsig
      rw [hnow, ha''] at this
      exact .inl (by rw [← some.inj this, Declaration.script.inj heq])
  · have hmap := (hm.fillable_program.alike_fill htidy).scripts
    have hget := congrArg (fun xs : Array Script => xs[id.serial]?) hmap
    simp only [Array.getElem?_map] at hget
    exact hget

/-! ## 4. Going into a declaration -/

theorem Stands.fill_set (hm : m.Stands p trail) (hp : p.Tidy) {b : Declaration}
    (hb : b.id ∈ m.unseen) :
    (m.program.set b).fill (contents none m.frames) = m.now.set b :=
  hm.fillable_program.fill_set (hm.tidy hp) (hm.alike.allIds_eq ▸ hm.known _ hb)
    (hm.not_mem_of_unseen hb)

/-- A frame for a declaration that was not on the stack, with the values it has now, changes
nothing. -/
theorem fill_push (hp : program.Tidy) (hd : d ∈ program.allIds)
    (contents : List (DeclId × List Value)) :
    program.fill ((d, program.content d) :: contents) = program.fill contents := by
  show (program.put d (program.content d)).fill contents = _
  rw [hp.put_content hd]

theorem Stands.fillable_push (hm : m.Stands p trail) (hd : d ∈ m.unseen) (vs : List Value)
    (hvs : Suits d vs) :
    p.Fillable ((d, vs) :: contents none m.frames) where
  nodup := nodup_cons.mpr ⟨hm.not_mem_of_unseen hd, hm.fillable.nodup⟩
  known := forall_mem_cons.mpr ⟨hm.known d hd, hm.fillable.known⟩
  suits := forall_mem_cons.mpr ⟨hvs, hm.fillable.suits⟩

/-- Hooks see a declaration that is entered in the program as it is now. -/
theorem Stands.allow_now (hm : m.Stands p trail) (hp : p.Tidy) {a : Declaration}
    (ha : a.id ∈ m.unseen) (view : View) (s : σ) : h.allow view m.now s a =
      ((h.allow view m.program s a).1,
        (h.allow view m.program s a).2.1.fill (contents none m.frames),
        (h.allow view m.program s a).2.2) := by
  cases a with
  | global g =>
    have hset := fun b => hm.fill_set hp (b := .global { g with isConst := b }) ha
    exact congrArg (fun q => (_, q, _)) (hset _).symm
  | script => rfl

/-- Replacing a global by one with the same value changes no content. -/
theorem content_setGlobal (hp : program.Tidy) {g : Global} (hg : program.global? g.id = some g)
    (hmem : .global g.id ∈ program.allIds) (isConst : Bool) {e : DeclId}
    (he : e ∈ program.allIds) :
    (program.setGlobal { g with isConst }).content e = program.content e := by
  have hdecl : program.declaration? (.global g.id) = some (.global g) := by
    simp [declaration?, hg]
  by_cases heq : .global g.id = e
  · subst heq
    rw [content_eq hdecl]
    exact content_eq (a := .global { g with isConst })
      (hp.declaration?_set_self (a := .global { g with isConst }) hmem)
  · rw [content, content]
    exact congrArg (fun a => (Option.map Declaration.values a).getD [])
      (hp.declaration?_set_of_ne (a := .global { g with isConst }) hmem he heq)

/-- Hooks keep all signatures and all values when a declaration is entered. -/
theorem allow_spec (hp : program.Tidy) {a : Declaration}
    (ha : program.declaration? a.id = some a) (view : View) (s : σ) :
    program.Alike (h.allow view program s a).2.1 ∧
      (h.allow view program s a).2.1.table = program.table ∧ ∀ e ∈ program.allIds,
        (h.allow view program s a).2.1.content e = program.content e := by
  cases a with
  | global =>
    obtain ⟨g', hg, heq⟩ := map_eq_some_iff.mp ha
    obtain rfl := Declaration.global.inj heq
    have hmem : DeclId.global g'.id ∈ program.allIds := by
      rw [allIds_eq_map]
      exact List.mem_map_of_mem (mem_all_global.mpr (Array.mem_of_getElem? hg))
    exact ⟨alike_setGlobal hg rfl rfl, rfl, fun e he => content_setGlobal hp hg hmem _ he⟩
  | script => exact ⟨.refl _, rfl, fun _ _ => rfl⟩

/-- A declaration that is being entered is no longer unseen; the other entries of the table stay
as they are. -/
theorem Stands.entered_erase (hm : m.Stands p trail) (d : DeclId) :
    ∀ e ∈ p.table.entries, e ∈ m.entries ∨ e ∉ m.unseen.erase d := fun e he =>
  (hm.entered e he).imp_right fun hnot hmem => hnot (mem_of_mem_erase hmem)

/-- **Going into a declaration** is a move; if it has been entered, nothing is left to be done. -/
theorem enter_moves (hp : p.Tidy) (hm : m.Stands p trail) (d : DeclId) {due : Option DeclId}
    (hdue : ∀ e ∈ due, e = d) (hreach : (m.standing trail).Reaches d) :
    ∃ trail', Moves h { m.standing trail with due } ((m.enter h d).standing trail') ∧
      (m.enter h d).Stands p trail' ∧ d ∉ (m.enter h d).unseen := by
  have htidy := hm.tidy hp
  have hshows := hm.shows hp
  by_cases hmem : d ∈ m.unseen
  case neg =>
    have hskip : Move h { m.standing trail with due } (m.standing trail) :=
      Move.skip fun e he => hdue e he ▸ hmem
    rw [enter_of_not_mem hmem]
    exact ⟨trail, .single hskip, hm, hmem⟩
  have hknown := hm.known _ hmem
  obtain ⟨a, ha, rfl⟩ := htidy.exists_declaration (hm.alike.allIds_eq ▸ hknown)
  have hids : a.id ∈ m.program.allIds := hm.alike.allIds_eq ▸ hknown
  have hmove := Move.enter (h := h) (s := { m.standing trail with due })
    { hshows with }
    ((hm.declaration?_now hp hknown (hm.not_mem_of_unseen hmem)).trans ha) hmem hreach hdue
  obtain ⟨hsigns, htable, hcontent⟩ :=
    allow_spec (h := h) htidy ha (.during m.program m.frames) m.state
  have hnow := hm.allow_now (h := h) hp hmem (.during m.program m.frames) m.state
  have hpush := hm.fillable_push hmem a.values a.suits_values
  have hentered := hm.entered_erase a.id
  have hunseen : ∀ d ∈ trail.opened, d ∈ p.allIds ∧ d ∉ m.unseen.erase a.id := fun d hd =>
    ⟨(hm.opened_known d hd).1, fun h => (hm.opened_known d hd).2 (mem_of_mem_erase h)⟩
  have herase : ∀ d ∈ m.unseen.erase a.id, d ∈ p.allIds := fun d hd =>
    hm.known d (mem_of_mem_erase hd)
  rw [enter_of_some hmem ha]
  dsimp only [standing] at hmove
  rw [hnow] at hmove
  generalize h.allow (.during m.program m.frames) m.program m.state a = r
    at hmove hsigns htable hcontent
  obtain ⟨remove, program', state'⟩ := r
  have hcontent := (hcontent a.id hids).trans (content_eq ha)
  have halike := hm.alike.trans hsigns
  have htable := htable.trans hm.table
  cases remove with
  | true =>
    exact ⟨{ trail with removed := a.id :: trail.removed }, .single hmove,
      ⟨halike, htable, hm.entries, hentered, hm.unseen.erase _, herase, hunseen,
        congrArg (a.id.name :: ·) hm.removals, hm.rooted, hm.fillable, hm.open'⟩,
      hm.unseen.not_mem_erase⟩
  | false =>
    have hpushed : contents none (⟨a.id.owner, [], a.values⟩ :: m.frames) =
        (a.id, a.values) :: contents none m.frames := contents_decl _ _ _ _
    refine ⟨{ trail with opened := a.id :: trail.opened }, .single ?_,
      ⟨halike, htable, hm.entries, hentered, hm.unseen.erase _, herase,
        forall_mem_cons.mpr ⟨⟨hknown, hm.unseen.not_mem_erase⟩, hunseen⟩, hm.removals,
        ⟨by cases a <;> simp [Owner.decl?, DeclId.owner, Declaration.id], hm.rooted⟩,
        hpushed ▸ hpush, fun c hc => ?_⟩,
      hm.unseen.not_mem_erase⟩
    · -- the frame holds the values that the declaration has
      have hfill := fill_push (hp.of_alike halike (by rw [htable])) (halike.allIds_eq ▸ hknown)
        (contents none m.frames)
      rw [hcontent, ← hpushed] at hfill
      show Move h _ ⟨program'.fill (contents none (⟨a.id.owner, [], a.values⟩ :: m.frames)),
        _, _, _, _, _, _, _, _⟩
      rw [hfill]
      exact hmove
    · rcases mem_cons.mp (hpushed ▸ hc) with rfl | hc
      · exact mem_cons_self
      · exact mem_cons_of_mem _ (hm.open' c hc)

/-! ## 5. Editing and ending lists -/

/-- Another stack that holds the same is the same to everyone. -/
theorem Stands.reframe (hm : Stands p ⟨program, unseen, entries, frames, removals, state⟩ trail)
    (frames' : List Frame) (state' : σ) (hrooted : Rooted frames')
    (hcontents : contents none frames' = contents none frames) :
    Stands p ⟨program, unseen, entries, frames', removals, state'⟩ trail := by
  refine { hm with rooted := hrooted, fillable := ?_, open' := ?_ }
  · dsimp only
    rw [hcontents]
    exact hm.fillable
  · dsimp only
    rw [hcontents]
    exact hm.open'

/-- **An edit of the innermost list** is an edit of one declaration in the program as it is
now. -/
theorem Stands.edit (hp : p.Tidy) {v : Value}
    (hm : Stands p
      ⟨program, unseen, entries, ⟨owner, done, v :: rest⟩ :: below, removals, state⟩ trail)
    (vs : List Value) (hglobal : ∀ id, owner = .global id → vs.length = 1) :
    ∃ d ∈ trail.opened, ∃ ws : List Value, Suits d ws ∧
      Spot.Edit ⟨owner, done.reverse, v, rest⟩ vs d.owner
        ((now ⟨program, unseen, entries, ⟨owner, done, v :: rest⟩ :: below, removals,
          state⟩).content d) ws ∧
      ∀ (done' todo' : List Value) (state' : σ),
        done'.reverse ++ todo' = done.reverse ++ (vs ++ rest) →
        now ⟨program, unseen, entries, ⟨owner, done', todo'⟩ :: below, removals, state'⟩ =
          (now ⟨program, unseen, entries, ⟨owner, done, v :: rest⟩ :: below, removals,
            state⟩).put d ws ∧
        Stands p ⟨program, unseen, entries, ⟨owner, done', todo'⟩ :: below, removals, state'⟩
          trail := by
  have htidy := hm.tidy hp
  obtain ⟨d, context, others, hcontents, hedit, hlength, hroot⟩ :=
    surround owner below hm.rooted.1 hm.rooted.2
  have hold := hcontents none done (v :: rest)
  simp only [toList_none, append_nil] at hold
  set old := context (done.reverse ++ v :: rest)
  set new := context (done.reverse ++ (vs ++ rest))
  have hfill := hm.fillable_program
  have hopen := hm.open'
  rw [hold] at hfill hopen
  have hknown : d ∈ program.allIds := hfill.head_known
  have hsuits : Suits d new := by
    have hsuits : Suits d old := hfill.suits _ mem_cons_self
    cases d with
    | script => exact True.intro
    | global =>
      refine (hlength _ _ ?_).trans hsuits
      cases howner : owner with
      | call => exact .inl rfl
      | global id' => exact .inr (by simp [hglobal id' howner]; omega)
      | script id' => exact absurd (hroot (.script id') (by rw [howner]; rfl)) (by simp)
  have hbase : (program.put d old).fill (contents none others) =
      (program.fill (contents none others)).put d old :=
    hfill.tail.fill_put htidy hfill.head_not_mem hknown old
  have hbase' : (program.put d new).fill (contents none others) =
      (program.fill (contents none others)).put d new :=
    hfill.tail.fill_put htidy hfill.head_not_mem hknown new
  have hotherTidy := hfill.tail.tidy_fill htidy
  have hotherKnown : d ∈ (program.fill (contents none others)).allIds :=
    (hfill.tail.alike_fill htidy).allIds_eq ▸ hknown
  have hnow : now ⟨program, unseen, entries, ⟨owner, done, v :: rest⟩ :: below, removals, state⟩ =
      (program.fill (contents none others)).put d old := by
    rw [← hbase]
    show program.fill (contents none _) = _
    rw [hold]
    rfl
  refine ⟨d, hopen _ mem_cons_self, new, hsuits, ?_, ?_⟩
  · rw [hnow, hotherTidy.content_put_self hotherKnown (hfill.suits _ mem_cons_self)]
    exact hedit _ _ _ _ .here
  · intro done' todo' state' hitems
    have hnew : contents none (⟨owner, done', todo'⟩ :: below) =
        (d, new) :: contents none others := by
      rw [hcontents none done' todo', toList_none, append_nil, hitems]
    refine ⟨?_, ?_⟩
    · rw [hnow, hotherTidy.put_put hotherKnown hsuits, ← hbase']
      show program.fill (contents none _) = _
      rw [hnew]
      rfl
    · refine { hm with fillable := ?_, open' := ?_ }
      · dsimp only
        rw [hnew]
        refine ⟨hfill.nodup, fun e he => hm.alike.allIds_eq ▸ hfill.known e he, ?_⟩
        exact forall_mem_cons.mpr ⟨hsuits, hfill.tail.suits⟩
      · dsimp only
        rw [hnew]
        exact forall_mem_cons.mpr ⟨hopen (d, old) mem_cons_self, fun c hc =>
          hopen c (mem_cons_of_mem _ hc)⟩

theorem Stands.visit (hm : m.Stands p trail) (r : Root) :
    m.Stands p { trail with visited := r :: trail.visited } := { hm with }

/-- **Visiting a value** replaces it by what its hook answers, and enters what it refers to. -/
theorem visit_moves (hp : p.Tidy) {v : Value} (offered : Option Spot)
    (hm : Stands p { m with frames := ⟨owner, done, v :: rest⟩ :: below } trail)
    (hoffered : (∀ id, owner ≠ .global id) → offered = some ⟨owner, done.reverse, v, rest⟩) :
    ∃ trail', Moves h
        { standing { m with frames := ⟨owner, done, v :: rest⟩ :: below } trail with offered }
        ((m.visit h true owner done v rest below).standing trail') ∧
      (m.visit h true owner done v rest below).Stands p trail' := by
  obtain ⟨program, unseen, entries, frames, removals, state⟩ := m
  set view := View.during program (⟨owner, done, v :: rest⟩ :: below)
  set m : Machine σ :=
    ⟨program, unseen, entries, ⟨owner, done, v :: rest⟩ :: below, removals, state⟩
  set s : Standing σ := { m.standing trail with offered }
  have hshows := hm.shows hp
  obtain ⟨d, hd, ws, hsuits, hedit, hnext⟩ := hm.edit hp [(h.onValue view v state).1] fun _ _ => rfl
  have hmove : Move h s (s.visit d (h.onValue view v state) ws (rest ++ pending below)) :=
    .value view d ⟨owner, done.reverse, v, rest⟩ ws (rest ++ pending below)
      { hshows with } hd hoffered rfl
      rfl hedit hsuits
  have hids : d ∈ m.now.allIds := (hm.alike_now hp).allIds_eq ▸ (hm.opened_known d hd).1
  have hcontent := (hm.tidy_now hp).content_put_self hids hsuits
  obtain ⟨others, hothers⟩ := hedit.refer_iff
  rw [visit_eq]
  generalize h.onValue view v state = answer at hnext hmove hothers ⊢
  obtain ⟨v', state'⟩ := answer
  obtain ⟨hnow, hstands⟩ := hnext done (v' :: rest) state' (by simp)
  dsimp only at hnow ⊢
  have hcontents : contents none (answered owner done rest below v') =
      contents none (⟨owner, done, v' :: rest⟩ :: below) := by
    cases v' with
    | leaf => exact contents_congr below (by simp)
    | call => exact contents_congr below (by simp [items])
  have hrooted : Rooted (answered owner done rest below v') := by
    cases v' with
    | leaf => exact hm.rooted
    | call => exact ⟨by simp, hm.rooted⟩
  have hinside := (hstands.reframe _ (h.told v' state') hrooted hcontents).visit v'.root
  set m' : Machine σ :=
    ⟨program, unseen, entries, answered owner done rest below v', removals, h.told v' state'⟩
  have hnow' : m'.now = m.now.put d ws := by rw [← hnow, now, now, hcontents]
  have hmoves : Moves h s { m'.standing { trail with visited := v'.root :: trail.visited } with
      due := v'.root.refers? } := by
    rw [standing, hnow']
    cases v' with
    | leaf => exact .single hmove
    | call t head => exact .tail (.single hmove) (.call head)
  have hlead : v'.lead? true = v'.root.refers? := by cases v' <;> rfl
  rw [hlead]
  cases hrefers : v'.root.refers? with
  | none =>
    rw [hrefers] at hmoves
    exact ⟨{ trail with visited := v'.root :: trail.visited }, hmoves, hinside⟩
  | some e =>
    rw [hrefers] at hmoves
    -- what the new value refers to can be entered
    have hreach : (m'.standing { trail with visited := v'.root :: trail.visited }).Reaches e := by
      refine .inr ⟨d, hd, ?_⟩
      show Refer (m'.now.content d) e
      rw [hnow', hcontent]
      exact (hothers e).2.mpr (.inl (refer_root hrefers))
    obtain ⟨trail', hentered, hstands', -⟩ :=
      enter_moves (h := h) hp hinside e (fun d hd => (mem_some.mp hd).symm) hreach
    exact ⟨trail', hmoves.trans hentered, hstands'⟩

/-- **Offering an element** replaces it by what its hook answers, and visits it if it stays. -/
theorem offer_moves (hp : p.Tidy) {v : Value} (hm : m.Stands p trail)
    (hframes : m.frames = ⟨owner, done, v :: rest⟩ :: below) (howner : ∀ id, owner ≠ .global id) :
    ∃ trail', Moves h (m.standing trail)
        ((m.offer h true owner done v rest below).standing trail') ∧
      (m.offer h true owner done v rest below).Stands p trail' := by
  obtain ⟨program, unseen, entries, frames, removals, state⟩ := m
  subst hframes
  set view := View.during program (⟨owner, done, v :: rest⟩ :: below)
  set place : Place := ⟨owner, !done.isEmpty, !rest.isEmpty⟩
  set m : Machine σ :=
    ⟨program, unseen, entries, ⟨owner, done, v :: rest⟩ :: below, removals, state⟩
  obtain ⟨d, hd, ws, hsuits, hedit, hnext⟩ :=
    hm.edit hp (h.onElement view place v state).1.values fun id hid => absurd hid (howner id)
  have hplace : Spot.place ⟨owner, done.reverse, v, rest⟩ = place := by
    simp [Spot.place, place]
  have hmove : Move h (m.standing trail) ((m.standing trail).offer d
      ⟨owner, done.reverse, v, rest⟩ (h.onElement view place v state) ws
      (rest ++ pending below)) := by
    have hspot := Move.element (h := h) view d ⟨owner, done.reverse, v, rest⟩ ws
      (rest ++ pending below) (hm.shows hp) hd howner rfl rfl
      (by rw [hplace]; exact hedit) hsuits
    rw [hplace] at hspot
    exact hspot
  unfold offer
  dsimp only
  generalize h.onElement view place v state = answer at hnext hmove ⊢
  obtain ⟨offer, state'⟩ := answer
  cases offer with
  | drop inserted =>
    obtain ⟨hnow, hstands⟩ := hnext done (inserted ++ rest) state' (by simp [Offer.values])
    have hstanding : standing ⟨program, unseen, entries, ⟨owner, done, inserted ++ rest⟩ :: below,
        removals, state'⟩ trail = (m.standing trail).offer d
          ⟨owner, done.reverse, v, rest⟩ (.drop inserted, state') ws (rest ++ pending below) := by
      rw [standing, hnow]
      simp [Standing.offer, standing, pending, Offer.values, m]
    rw [← hstanding] at hmove
    exact ⟨trail, .single hmove, hstands⟩
  | keep v' inserted =>
    obtain ⟨hnow, hstands⟩ := hnext done (v' :: (inserted ++ rest)) state' (by simp [Offer.values])
    obtain ⟨trail', hmoves, hstands'⟩ := visit_moves (h := h) hp
      (m := ⟨program, unseen, entries, [], removals, state'⟩) _ hstands fun _ => rfl
    have hstanding : { standing ⟨program, unseen, entries,
        ⟨owner, done, v' :: (inserted ++ rest)⟩ :: below, removals, state'⟩ trail with
          offered := some ⟨owner, done.reverse, v', inserted ++ rest⟩ } =
        (m.standing trail).offer d ⟨owner, done.reverse, v, rest⟩
          (.keep v' inserted, state') ws (rest ++ pending below) := by
      rw [standing, hnow]
      simp [Standing.offer, standing, pending, Offer.values, m]
    rw [← hstanding] at hmove
    exact ⟨trail', .head hmove hmoves, hstands'⟩

/-- At the end of a declaration its values are put into it. -/
theorem close_decl (hp : m.program.Tidy) (hd : d ∈ m.program.allIds)
    (hsuits : Suits d done.reverse) (below : List Frame) :
    m.close ⟨d.owner, done, []⟩ below =
      { m with program := m.program.put d done.reverse, frames := below } := by
  obtain ⟨a, ha, rfl⟩ := hp.exists_declaration hd
  rw [put_eq ha]
  obtain ⟨program, unseen, entries, frames, removals, state⟩ := m
  cases a with
  | global =>
    obtain ⟨v, hv⟩ := length_eq_one_iff.mp hsuits
    obtain rfl : done = [v] := by simpa using congrArg List.reverse hv
    obtain ⟨g', hg, heq⟩ := map_eq_some_iff.mp ha
    obtain rfl := Declaration.global.inj heq
    simp only [close, DeclId.owner, Declaration.id, hg]
    rfl
  | script =>
    obtain ⟨a', hs, heq⟩ := map_eq_some_iff.mp ha
    obtain rfl := Declaration.script.inj heq
    simp only [close, DeclId.owner, Declaration.id, hs]
    rfl

/-- **Ending a list moves nothing.** -/
theorem close_stands (hp : p.Tidy) {f : Frame} (hm : m.Stands p trail)
    (hframes : m.frames = f :: below) (htodo : f.todo = []) :
    (m.close f below).standing trail = m.standing trail ∧
      (m.close f below).Stands p trail := by
  have htidy := hm.tidy hp
  have hfill := hm.fillable_program
  have hopen := hm.open'
  have htail := hm.fillable
  obtain ⟨owner, done, todo⟩ := f
  subst htodo
  obtain ⟨d, rfl⟩ | ⟨t, head, rfl⟩ := owner.decl_or_call
  · -- a declaration takes its values with it
    have hcontents : contents none m.frames =
        (d, done.reverse) :: contents none below := by
      rw [hframes, contents_decl, append_nil]
    rw [hcontents] at hfill hopen htail
    rw [close_decl htidy hfill.head_known (hfill.suits _ mem_cons_self)]
    refine ⟨?_, hm.alike.trans (htidy.alike_put hfill.head_known _), ?_, hm.entries, hm.entered,
      hm.unseen, hm.known, hm.opened_known, hm.removals, ?_, htail.tail,
      fun c hc => hopen c (mem_cons_of_mem _ hc)⟩
    · rw [standing, standing, now, now, hcontents, hframes]
      rfl
    · rw [table_put, hm.table]
    · have hrooted := hm.rooted
      rw [hframes] at hrooted
      exact hrooted.2
  · obtain ⟨program, unseen, entries, frames, removals, state⟩ := m
    subst hframes
    cases below with
    | nil => exact absurd rfl (hm.rooted.1 rfl)
    | cons f' rest =>
      have hcontents : contents none
          ({ f' with done := .call t head done.reverse :: f'.done } :: rest) =
          contents none (⟨.call t head, done, []⟩ :: f' :: rest) :=
        contents_congr rest (by simp [items])
      refine ⟨?_, hm.reframe _ _ ⟨hm.rooted.2.1, hm.rooted.2.2⟩ hcontents⟩
      simp only [close, standing, now, hcontents]
      rfl

/-! ## 6. Steps and runs -/

/-- **A step of the machine is a sequence of moves.** -/
theorem step_moves (hp : p.Tidy) (hm : m.Stands p trail) :
    ∃ trail', Moves h (m.standing trail)
        ((m.step h true).standing trail') ∧ (m.step h true).Stands p trail' := by
  unfold step
  split
  · split
    · exact ⟨trail, .refl, hm⟩
    · next d rest hentries =>
      have hreach : (m.standing trail).Reaches d := .inl (by
        rw [standing, hm.table_now]
        exact hm.entries d (by simp [hentries]))
      obtain ⟨trail', hmoves, hstands, hseen⟩ :=
        enter_moves (h := h) hp hm d (fun e he => absurd he (not_mem_none e)) hreach
      rw [enter_with_entries]
      have hall : (Machine.enter h d m).entries = d :: rest := (enter_entries d).trans hentries
      refine ⟨trail', hmoves, { hstands with
        entries := fun e he => hstands.entries e (by simp [hall, he])
        entered := fun e he => ?_ }⟩
      rcases hstands.entered e he with hmem | hnot
      · rw [hall] at hmem
        rcases mem_cons.mp hmem with rfl | hmem
        · exact .inr hseen
        · exact .inl hmem
      · exact .inr hnot
  · next owner done below hframes =>
    obtain ⟨hstanding, hstands⟩ := close_stands hp hm hframes rfl
    exact ⟨trail, hstanding ▸ .refl, hstands⟩
  · next owner done v rest below hframes =>
    split
    · next id =>
      have hm' : Stands p { m with frames := ⟨.global id, done, v :: rest⟩ :: below } trail := by
        rw [← hframes]
        exact hm
      have hvisit := visit_moves (h := h) hp none hm'
        fun howner => absurd rfl (howner id)
      rw [← hframes] at hvisit
      exact hvisit
    · next hglobal => exact offer_moves hp hm hframes hglobal

theorem run_moves (hp : p.Tidy) (m : Machine σ) (trail : Trail) (hm : m.Stands p trail) :
    ∃ trail', Moves h (m.standing trail) ((m.run h true).standing trail') ∧
      (m.run h true).Stands p trail' ∧ (m.run h true).isOver = true := by
  fun_induction run h true m generalizing trail with
  | case1 m hover => exact ⟨trail, .refl, hm, hover⟩
  | case2 m hover ih =>
    obtain ⟨trail', hmoves, hstands⟩ := step_moves (h := h) hp hm
    obtain ⟨trail'', hmoves', hrest⟩ := ih trail' hstands
    exact ⟨trail'', hmoves.trans hmoves', hrest⟩

end Machine

/-- The walk of a program is over: nothing is left to be visited or entered. -/
structure Standing.Ended (p : Program) (s : Standing σ) : Prop where
  pending : s.pending = []
  due : s.due = none
  entered : ∀ d ∈ p.table.entries, d ∉ s.unseen

/-- **Every walk is a sequence of moves** up to its end, after which the names to remove are taken
off the table. -/
theorem Program.walk_moves {p : Program} (hp : p.Tidy) (h : Hooks σ) (s : σ) :
    ∃ s', Moves h (.start p s) s' ∧ s'.Ended p ∧
      p.walk h true s =
        ((s'.removed.map DeclId.name).reverse.foldl remove s'.now, s'.state) := by
  obtain ⟨trail, hmoves, hstands, hover⟩ :=
    Machine.run_moves (h := h) hp _ _ (Machine.stands_start hp s)
  simp only [Machine.isOver, Bool.and_eq_true, List.isEmpty_iff] at hover
  refine ⟨_, hmoves, ⟨?_, rfl, fun d hd => ?_⟩, ?_⟩
  · simp [Machine.standing, Machine.pending, hover.1]
  · refine (hstands.entered d hd).resolve_left ?_
    rw [hover.2]
    exact not_mem_nil
  · simp only [walk, Machine.standing, Machine.now, hover.1, hstands.removals]
    rfl

/-! ## 7. What every walk keeps -/

namespace Standing

variable {p : Program} {s s' : Standing σ} {h : Hooks σ} {d e : DeclId} {g : Global}

/-- What holds of every standing of a walk of the program `p`. -/
structure Orderly (p : Program) (s : Standing σ) : Prop where
  alike : p.Alike s.now
  table : s.now.table = p.table
  unseen : s.unseen.Nodup
  unseen_known : ∀ d ∈ s.unseen, d ∈ p.allIds
  opened : s.opened.Nodup
  opened_known : ∀ d ∈ s.opened, d ∈ p.allIds
  opened_seen : ∀ d ∈ s.opened, d ∉ s.unseen

theorem orderly_start (hp : p.Tidy) (s : σ) : (start p s).Orderly p where
  alike := .refl p
  table := rfl
  unseen := hp.allIds_nodup
  unseen_known _ hd := hd
  opened := nodup_nil
  opened_known _ hd := absurd hd not_mem_nil
  opened_seen _ hd := absurd hd not_mem_nil

namespace Orderly

variable (hs : s.Orderly p)

include hs

theorem tidy (hp : p.Tidy) : s.now.Tidy :=
  hp.of_alike hs.alike (by rw [hs.table])

theorem known_now (hd : d ∈ p.allIds) : d ∈ s.now.allIds :=
  hs.alike.allIds_eq ▸ hd

/-- A declaration is entered, to be edited or to be removed. -/
theorem enter {a : Declaration} {r : Bool × Program × σ} (halike : s.now.Alike r.2.1)
    (htable : r.2.1.table = s.now.table) (hd : a.id ∈ s.unseen) : (s.enter a r).Orderly p := by
  have hseen : a.id ∉ s.unseen.erase a.id := hs.unseen.not_mem_erase
  have hkeep : ∀ e ∈ s.opened, e ∉ s.unseen.erase a.id := fun e he hmem =>
    hs.opened_seen e he (mem_of_mem_erase hmem)
  have hknown : ∀ e ∈ s.unseen.erase a.id, e ∈ p.allIds := fun e he =>
    hs.unseen_known e (mem_of_mem_erase he)
  obtain ⟨remove, program, state⟩ := r
  cases remove with
  | true => exact ⟨hs.alike.trans halike, htable.trans hs.table, hs.unseen.erase _, hknown,
      hs.opened, hs.opened_known, hkeep⟩
  | false => exact ⟨hs.alike.trans halike, htable.trans hs.table, hs.unseen.erase _, hknown,
      nodup_cons.mpr ⟨fun hmem => hs.opened_seen _ hmem hd, hs.opened⟩,
      forall_mem_cons.mpr ⟨hs.unseen_known _ hd, hs.opened_known⟩,
      forall_mem_cons.mpr ⟨hseen, hkeep⟩⟩

section

variable (hp : p.Tidy)

include hp

/-- The values of a declaration are edited. -/
theorem put (hd : d ∈ s.opened) {vs : List Value} (hnow : s'.now = s.now.put d vs)
    (hunseen : s'.unseen = s.unseen) (hopened : s'.opened = s.opened) : s'.Orderly p where
  alike := by
    rw [hnow]
    exact hs.alike.trans ((hs.tidy hp).alike_put (hs.known_now (hs.opened_known d hd)) vs)
  table := by rw [hnow, table_put, hs.table]
  unseen := hunseen ▸ hs.unseen
  unseen_known := hunseen ▸ hs.unseen_known
  opened := hopened ▸ hs.opened
  opened_known := hopened ▸ hs.opened_known
  opened_seen := by
    rw [hunseen, hopened]
    exact hs.opened_seen

theorem move (hmove : Move h s s') : s'.Orderly p := by
  cases hmove with
  | global view g hview hg hunseen =>
    exact hs.enter (a := .global g) (r := h.allow view s.now s.state (.global g))
      (alike_setGlobal hg rfl rfl) (table_set _ (.global _)) hunseen
  | script a ha hunseen =>
    exact hs.enter (a := .script a) (r := ((h.onScript a s.state).1, s.now, _)) (.refl _) rfl
      hunseen
  | element view d spot vs rest hview hd =>
    exact hs.put hp hd rfl rfl rfl
  | value view d spot vs rest hview hd =>
    exact hs.put hp hd rfl rfl rfl
  | call | skip => exact { hs with }

/-- **What every move keeps, every walk keeps.** -/
theorem moves {Q : Standing σ → Prop} (hQ : Q s)
    (hkeep : ∀ s s', s.Orderly p → Q s → Move h s s' → Q s') (hmoves : Moves h s s') :
    s'.Orderly p ∧ Q s' := by
  induction hmoves with
  | refl => exact ⟨hs, hQ⟩
  | tail _ hmove ih => exact ⟨ih.1.move hp hmove, hkeep _ _ ih.1 ih.2 hmove⟩

theorem declaration?_enterGlobal_self (hg : .global g.id ∈ p.allIds) (answer : Verdict × σ) :
    (s.enterGlobal g answer).now.declaration? (.global g.id) =
      some (.global { g with isConst := answer.1.isConst }) :=
  (hs.tidy hp).declaration?_set_self (a := .global { g with isConst := answer.1.isConst })
    (hs.known_now hg)

theorem declaration?_enterGlobal_of_ne (hg : .global g.id ∈ p.allIds) (he : e ∈ p.allIds)
    (hne : .global g.id ≠ e) (answer : Verdict × σ) :
    (s.enterGlobal g answer).now.declaration? e = s.now.declaration? e :=
  (hs.tidy hp).declaration?_set_of_ne (a := .global { g with isConst := answer.1.isConst })
    (hs.known_now hg) (hs.known_now he) hne

theorem content_enterGlobal (hg : s.now.global? g.id = some g) (hknown : .global g.id ∈ p.allIds)
    (he : e ∈ p.allIds) (answer : Verdict × σ) :
    (s.enterGlobal g answer).now.content e = s.now.content e :=
  Machine.content_setGlobal (hs.tidy hp) hg (hs.known_now hknown) _ (hs.known_now he)

theorem content_put_self (hd : d ∈ s.opened) {vs : List Value} (hvs : Suits d vs) :
    (s.now.put d vs).content d = vs :=
  (hs.tidy hp).content_put_self (hs.known_now (hs.opened_known d hd)) hvs

theorem content_put_of_ne (hd : d ∈ s.opened) (he : e ∈ p.allIds) (hne : d ≠ e) (vs : List Value) :
    (s.now.put d vs).content e = s.now.content e :=
  (hs.tidy hp).content_put_of_ne (hs.known_now (hs.opened_known d hd)) (hs.known_now he) hne vs

end

end Orderly

end Standing

end HaloScript
