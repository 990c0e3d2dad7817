/-
# The walk

A walk visits the declarations of the table in order, each once, and everything in them from
the outside in.  On its way it goes into the scripts that are called and, where `references`
asks for it, into the declarations that are referred to, before it goes on.

The walk is a machine that takes small steps.  It stops because each step lowers a rank: first
the potential of the hooks, then the number of declarations not yet entered, then the amount
of work on the stack.  Names are taken off the table only when the walk is over.
-/
import HaloScript.Walk.Hooks

namespace HaloScript

/-- A walk under way. -/
structure Machine (σ : Type) where
  program : Program
  /-- The declarations not entered yet. -/
  unseen : List DeclId
  /-- The entries of the table still to be started with. -/
  entries : List DeclId
  /-- Where the walk stands, the innermost list first. -/
  frames : List Frame
  /-- The names to take off the table, the last one first. -/
  removals : List Text
  state : σ

namespace Machine

variable {σ : Type}

def start (p : Program) (s : σ) : Machine σ := ⟨p, p.allIds, p.table.entries, [], [], s⟩

/-! ## 1. Steps -/

def enterGlobal (h : Edits σ) (id : GlobalId) : Machine σ → Machine σ
  | ⟨program, unseen, entries, frames, removals, state⟩ =>
    if DeclId.global id ∈ unseen then
      let unseen := unseen.erase (.global id)
      match program.global? id with
      | none => ⟨program, unseen, entries, frames, removals, state⟩
      | some g =>
        let (verdict, state) := h.onGlobal (.during program frames) g state
        let program := program.setGlobal { g with isConst := verdict.isConst }
        if verdict.remove then ⟨program, unseen, entries, frames, id.name :: removals, state⟩
        else ⟨program, unseen, entries, ⟨.global id, [], [g.value]⟩ :: frames, removals, state⟩
    else ⟨program, unseen, entries, frames, removals, state⟩

def enterScript (h : Edits σ) (id : ScriptId) : Machine σ → Machine σ
  | ⟨program, unseen, entries, frames, removals, state⟩ =>
    if DeclId.script id ∈ unseen then
      let unseen := unseen.erase (.script id)
      match program.script? id with
      | none => ⟨program, unseen, entries, frames, removals, state⟩
      | some s =>
        let (remove, state) := h.onScript s state
        if remove then ⟨program, unseen, entries, frames, id.name :: removals, state⟩
        else ⟨program, unseen, entries, ⟨.script id, [], s.body⟩ :: frames, removals, state⟩
    else ⟨program, unseen, entries, frames, removals, state⟩

def enter (h : Edits σ) : DeclId → Machine σ → Machine σ
  | .global id => enterGlobal h id
  | .script id => enterScript h id

/-- Ends the walk of a list: the list is put where it belongs. -/
def close (f : Frame) (below : List Frame) : Machine σ → Machine σ
  | ⟨program, unseen, entries, _, removals, state⟩ =>
    match f.owner with
    | .global id =>
      let program := match program.global? id, f.done with
        | some g, v :: _ => program.setGlobal { g with value := v }
        | _, _ => program
      ⟨program, unseen, entries, below, removals, state⟩
    | .script id =>
      let program := match program.script? id with
        | some s => program.setScript { s with body := f.done.reverse }
        | none => program
      ⟨program, unseen, entries, below, removals, state⟩
    | .call tag head =>
      match below with
      | [] => ⟨program, unseen, entries, [], removals, state⟩
      | f' :: rest =>
        let v := Value.call tag head f.done.reverse
        ⟨program, unseen, entries, { f' with done := v :: f'.done } :: rest, removals, state⟩

/-- Visits the first value `v` of a list; `rest` follows it. -/
def visit (h : Edits σ) (references : Bool) (owner : Owner) (done : List Value) (v : Value)
    (rest : List Value) (below : List Frame) : Machine σ → Machine σ
  | ⟨program, unseen, entries, _, removals, state⟩ =>
    let view := View.during program (⟨owner, done, v :: rest⟩ :: below)
    match h.onValue view v state with
    | (.leaf t l, state) =>
      let m : Machine σ :=
        ⟨program, unseen, entries, ⟨owner, .leaf t l :: done, rest⟩ :: below, removals, state⟩
      match l, references with
      | .global id, true => m.enterGlobal h id
      | .script id, true => m.enterScript h id
      | _, _ => m
    | (.call t head args, state) =>
      let m : Machine σ :=
        ⟨program, unseen, entries, ⟨.call t head, [], args⟩ :: ⟨owner, done, rest⟩ :: below,
          removals, h.onCall head state⟩
      match head.callee with
      | .script id => m.enterScript h id
      | .word _ _ => m

/-- Offers the first value `v` of a list, and visits it if it stays. -/
def offer (h : Edits σ) (references : Bool) (owner : Owner) (done : List Value) (v : Value)
    (rest : List Value) (below : List Frame) : Machine σ → Machine σ
  | ⟨program, unseen, entries, _, removals, state⟩ =>
    let view := View.during program (⟨owner, done, v :: rest⟩ :: below)
    match h.onElement view ⟨owner, !done.isEmpty, !rest.isEmpty⟩ v state with
    | (.drop inserted, state) =>
      ⟨program, unseen, entries, ⟨owner, done, inserted ++ rest⟩ :: below, removals, state⟩
    | (.keep v inserted, state) =>
      visit h references owner done v (inserted ++ rest) below
        ⟨program, unseen, entries, [], removals, state⟩

def isOver (m : Machine σ) : Bool := m.frames.isEmpty && m.entries.isEmpty

/-- One step of the walk.  Nothing changes when it is over. -/
def step (h : Edits σ) (references : Bool) (m : Machine σ) : Machine σ :=
  match m.frames with
  | [] =>
    match m.entries with
    | [] => m
    | d :: rest => Machine.enter h d { m with entries := rest }
  | ⟨owner, done, []⟩ :: below => m.close ⟨owner, done, []⟩ below
  | ⟨owner, done, v :: rest⟩ :: below =>
    match owner with
    | .global _ => m.visit h references owner done v rest below
    | _ => m.offer h references owner done v rest below

/-! ## 2. The walk ends -/

/-- The work on a stack of frames. -/
def work (frames : List Frame) : Nat :=
  frames.foldr (fun f n => 2 * Value.nodeCountAll f.todo + 1 + n) 0

def weight (m : Machine σ) : Nat := m.entries.length + work m.frames

def rank (h : Hooks σ) (m : Machine σ) : Nat × Nat × Nat :=
  (h.potential m.state, m.unseen.length, m.weight)

def RankLt : Nat × Nat × Nat → Nat × Nat × Nat → Prop :=
  Prod.Lex (· < ·) (Prod.Lex (· < ·) (· < ·))

theorem rankLt_of {a a' b b' c c' : Nat} (ha : a' ≤ a)
    (h : a' < a ∨ b' < b ∨ (b' ≤ b ∧ c' < c)) : RankLt (a', b', c') (a, b, c) := by
  rcases Nat.lt_or_eq_of_le ha with hlt | rfl
  · exact Prod.Lex.left _ _ hlt
  · refine Prod.Lex.right _ ?_
    rcases h with h | h | ⟨hb, hc⟩
    · omega
    · exact Prod.Lex.left _ _ h
    · rcases Nat.lt_or_eq_of_le hb with hlt | rfl
      · exact Prod.Lex.left _ _ hlt
      · exact Prod.Lex.right _ hc

theorem nodeCount_pos (v : Value) : 0 < v.nodeCount := by
  cases v <;> simp only [Value.nodeCount] <;> omega

theorem nodeCountAll_append (xs ys : List Value) :
    Value.nodeCountAll (xs ++ ys) = Value.nodeCountAll xs + Value.nodeCountAll ys := by
  induction xs with
  | nil => simp [Value.nodeCountAll]
  | cons x xs ih => simp [Value.nodeCountAll, ih]; omega

/-- Going into a declaration uses it up, or does nothing. -/
def Entered (h : Hooks σ) (m m' : Machine σ) : Prop :=
  h.potential m'.state ≤ h.potential m.state ∧ (m'.unseen.length < m.unseen.length ∨ m' = m)

theorem length_erase_lt {l : List DeclId} {d : DeclId} (hd : d ∈ l) :
    (l.erase d).length < l.length := by
  have := List.length_erase_of_mem hd
  have : 0 < l.length := List.length_pos_of_mem hd
  omega

theorem enterGlobal_entered (h : Hooks σ) (id : GlobalId) (m : Machine σ) :
    Entered h m (m.enterGlobal h id) := by
  obtain ⟨program, unseen, entries, frames, removals, state⟩ := m
  unfold enterGlobal
  dsimp only
  split
  · next hmem =>
    have hlt := length_erase_lt hmem
    split
    · exact ⟨Nat.le_refl _, .inl hlt⟩
    · split
      · exact ⟨h.onGlobal_le _ _ _, .inl hlt⟩
      · exact ⟨h.onGlobal_le _ _ _, .inl hlt⟩
  · exact ⟨Nat.le_refl _, .inr rfl⟩

theorem enterScript_entered (h : Hooks σ) (id : ScriptId) (m : Machine σ) :
    Entered h m (m.enterScript h id) := by
  obtain ⟨program, unseen, entries, frames, removals, state⟩ := m
  unfold enterScript
  dsimp only
  split
  · next hmem =>
    have hlt := length_erase_lt hmem
    split
    · exact ⟨Nat.le_refl _, .inl hlt⟩
    · split
      · exact ⟨h.onScript_le _ _, .inl hlt⟩
      · exact ⟨h.onScript_le _ _, .inl hlt⟩
  · exact ⟨Nat.le_refl _, .inr rfl⟩

theorem enter_entered (h : Hooks σ) (d : DeclId) (m : Machine σ) : Entered h m (m.enter h d) := by
  cases d with
  | global id => exact enterGlobal_entered h id m
  | script id => exact enterScript_entered h id m

/-- A machine below `m₀` stays below it when it goes into a declaration. -/
theorem rankLt_of_entered {h : Hooks σ} {m₀ m m' : Machine σ} (he : Entered h m m')
    (hu : m.unseen.length ≤ m₀.unseen.length) (hp : h.potential m.state ≤ h.potential m₀.state)
    (hlt : h.potential m.state < h.potential m₀.state ∨ m.weight < m₀.weight) :
    RankLt (m'.rank h) (m₀.rank h) := by
  obtain ⟨hle, hseen⟩ := he
  refine rankLt_of (Nat.le_trans hle hp) ?_
  rcases hlt with hlt | hlt
  · exact .inl (Nat.lt_of_le_of_lt hle hlt)
  · rcases hseen with hseen | rfl
    · exact .inr (.inl (Nat.lt_of_lt_of_le hseen hu))
    · exact .inr (.inr ⟨hu, hlt⟩)

/-- Doing nothing is a way of going into a declaration. -/
theorem entered_self {h : Hooks σ} {m : Machine σ} : Entered h m m := ⟨Nat.le_refl _, .inr rfl⟩

/-- Visiting a value lowers the rank, measured from a machine in which it is still to come. -/
theorem visit_rankLt (h : Hooks σ) (references : Bool) (owner : Owner) (done : List Value)
    (v : Value) (rest : List Value) (below : List Frame) (m m₀ : Machine σ)
    (hu : m.unseen = m₀.unseen) (he : m.entries = m₀.entries)
    (hp : h.potential m.state ≤ h.potential m₀.state)
    (hlt : h.potential m.state < h.potential m₀.state ∨
      work (⟨owner, done, v :: rest⟩ :: below) ≤ work m₀.frames) :
    RankLt ((m.visit h references owner done v rest below).rank h) (m₀.rank h) := by
  obtain ⟨program, unseen, entries, frames, removals, state⟩ := m
  dsimp only at hu he hp hlt
  have hvalue := h.onValue_lt (View.during program (⟨owner, done, v :: rest⟩ :: below)) v state
  unfold visit
  dsimp only
  generalize h.onValue (View.during program (⟨owner, done, v :: rest⟩ :: below)) v state = r
    at hvalue ⊢
  obtain ⟨v', state'⟩ := r
  dsimp only at hvalue
  have hp' : h.potential state' ≤ h.potential m₀.state := by
    rcases hvalue with hv | ⟨hv, -⟩ <;> omega
  cases v' with
  | leaf t l =>
    have hentered : ∀ m' : Machine σ,
        Entered h ⟨program, unseen, entries, ⟨owner, .leaf t l :: done, rest⟩ :: below, removals,
          state'⟩ m' → RankLt (m'.rank h) (m₀.rank h) := by
      intro m' hm'
      refine rankLt_of_entered hm' (by simp [hu]) hp' ?_
      rcases hlt with hlt | hlt
      · exact .inl (by rcases hvalue with hv | ⟨hv, -⟩ <;> dsimp only <;> omega)
      · rcases hvalue with hv | ⟨hv, -⟩
        · exact .inl (by dsimp only; omega)
        · refine .inr ?_
          have hv1 := nodeCount_pos v
          simp only [work, List.foldr_cons, Value.nodeCountAll] at hlt
          simp only [weight, work, List.foldr_cons, he]
          omega
    dsimp only
    split
    · exact hentered _ (enterGlobal_entered h _ _)
    · exact hentered _ (enterScript_entered h _ _)
    · exact hentered _ entered_self
  | call t head args =>
    have hcall := h.onCall_le head state'
    have hentered : ∀ m' : Machine σ,
        Entered h ⟨program, unseen, entries,
          ⟨.call t head, [], args⟩ :: ⟨owner, done, rest⟩ :: below, removals,
          h.onCall head state'⟩ m' → RankLt (m'.rank h) (m₀.rank h) := by
      intro m' hm'
      refine rankLt_of_entered hm' (by simp [hu]) (Nat.le_trans hcall hp') ?_
      rcases hlt with hlt | hlt
      · exact .inl (by rcases hvalue with hv | ⟨hv, -⟩ <;> dsimp only <;> omega)
      · rcases hvalue with hv | ⟨hv, hsize⟩
        · exact .inl (by dsimp only; omega)
        · refine .inr ?_
          simp only [Value.nodeCount] at hsize
          simp only [work, List.foldr_cons, Value.nodeCountAll] at hlt
          simp only [weight, work, List.foldr_cons, he]
          omega
    dsimp only
    split
    · exact hentered _ (enterScript_entered h _ _)
    · exact hentered _ entered_self

/-- Offering an element lowers the rank. -/
theorem offer_rankLt (h : Hooks σ) (references : Bool) (owner : Owner) (done : List Value)
    (v : Value) (rest : List Value) (below : List Frame) (m : Machine σ)
    (hf : m.frames = ⟨owner, done, v :: rest⟩ :: below) :
    RankLt ((m.offer h references owner done v rest below).rank h) (m.rank h) := by
  obtain ⟨program, unseen, entries, frames, removals, state⟩ := m
  dsimp only at hf
  subst hf
  have helement := h.onElement_lt (View.during program (⟨owner, done, v :: rest⟩ :: below))
    ⟨owner, !done.isEmpty, !rest.isEmpty⟩ v state
  unfold offer
  dsimp only
  generalize h.onElement (View.during program (⟨owner, done, v :: rest⟩ :: below))
    ⟨owner, !done.isEmpty, !rest.isEmpty⟩ v state = r at helement ⊢
  obtain ⟨o, state'⟩ := r
  dsimp only at helement
  have hp' : h.potential state' ≤ h.potential state := by
    rcases helement with hv | ⟨hv, -⟩ <;> omega
  cases o with
  | drop inserted =>
    refine rankLt_of hp' ?_
    rcases helement with hv | ⟨-, hsize⟩
    · exact .inl hv
    · refine .inr (.inr ⟨Nat.le_refl _, ?_⟩)
      simp only [Offer.size] at hsize
      simp only [weight, work, List.foldr_cons, Value.nodeCountAll,
        nodeCountAll_append]
      omega
  | keep v' inserted =>
    refine visit_rankLt h references owner done v' (inserted ++ rest) below _ _ rfl rfl hp' ?_
    rcases helement with hv | ⟨-, hsize⟩
    · exact .inl hv
    · refine .inr ?_
      simp only [Offer.size] at hsize
      simp only [work, List.foldr_cons, Value.nodeCountAll, nodeCountAll_append]
      omega

/-- Ending a list lowers the rank. -/
theorem close_rankLt (h : Hooks σ) (f : Frame) (below : List Frame) (m : Machine σ)
    (hf : m.frames = f :: below) (htodo : f.todo = []) :
    RankLt ((m.close f below).rank h) (m.rank h) := by
  obtain ⟨program, unseen, entries, frames, removals, state⟩ := m
  dsimp only at hf
  subst hf
  unfold close
  dsimp only
  split
  · refine rankLt_of (Nat.le_refl _) (.inr (.inr ⟨Nat.le_refl _, ?_⟩))
    simp [weight, work, htodo, Value.nodeCountAll]
  · refine rankLt_of (Nat.le_refl _) (.inr (.inr ⟨Nat.le_refl _, ?_⟩))
    simp [weight, work, htodo, Value.nodeCountAll]
  · split
    · refine rankLt_of (Nat.le_refl _) (.inr (.inr ⟨Nat.le_refl _, ?_⟩))
      simp [weight, work, htodo, Value.nodeCountAll]
    · refine rankLt_of (Nat.le_refl _) (.inr (.inr ⟨Nat.le_refl _, ?_⟩))
      simp [weight, work, htodo, Value.nodeCountAll]

/-- **Every step lowers the rank** until the walk is over. -/
theorem step_rankLt {h : Hooks σ} {references : Bool} {m : Machine σ}
    (hm : m.isOver = false) : RankLt ((m.step h references).rank h) (m.rank h) := by
  unfold step
  split
  · next hf =>
    split
    · next he => simp [isOver, hf, he] at hm
    · next d rest he =>
      refine rankLt_of_entered (enter_entered h d _) (Nat.le_refl _) (Nat.le_refl _) (.inr ?_)
      simp [weight, he]
  · next owner done below hf => exact close_rankLt h _ _ m hf rfl
  · next owner done v rest below hf =>
    split
    · exact visit_rankLt h references _ done v rest below m m rfl rfl (Nat.le_refl _)
        (.inr (Nat.le_of_eq (by rw [hf])))
    · exact offer_rankLt h references _ done v rest below m hf

def run (h : Hooks σ) (references : Bool) (m : Machine σ) : Machine σ :=
  if _hm : m.isOver then m else run h references (m.step h references)
termination_by m.rank h
decreasing_by exact step_rankLt (by simpa using _hm)

end Machine

/-- Walks a program and takes the names off its table that the hooks have asked to remove. -/
def Program.walk {σ : Type} (p : Program) (h : Hooks σ) (references : Bool) (s : σ) :
    Program × σ :=
  let m := (Machine.start p s).run h references
  (m.removals.reverse.foldl Program.remove m.program, m.state)

end HaloScript
