/-
# Walks on record

What a walk has done cannot always be told from the program and the state that it leaves.  So its
hooks are made to keep a record (`Hooks.recorded`): they give the same answers and note down, next
to the state, whatever a `Recorder` has to say about each answer.

A walk on record is the same walk.  Without the record its steps, its moves and its end are those
of the plain hooks (`Machine.step_plain`, `Move.plain`, `Program.walk_recorded`), so everything
that is known about the plain walk holds of it.
-/
import HaloScript.Proofs.Walk.Moments

namespace HaloScript

variable {σ ε : Type}

/-- What is noted down about the answers of hooks, given what they are asked. -/
structure Recorder (σ ε : Type) where
  onElement : View → Place → Value → σ → List ε
  onValue : View → Value → σ → List ε

/-- The hooks with a record, the oldest entry first. -/
def Hooks.recorded (h : Hooks σ) (r : Recorder σ ε) : Hooks (σ × List ε) where
  onGlobal view g s := ((h.onGlobal view g s.1).1, (h.onGlobal view g s.1).2, s.2)
  onScript a s := ((h.onScript a s.1).1, (h.onScript a s.1).2, s.2)
  onElement view place v s := ((h.onElement view place v s.1).1,
    (h.onElement view place v s.1).2, s.2 ++ r.onElement view place v s.1)
  onValue view v s := ((h.onValue view v s.1).1, (h.onValue view v s.1).2,
    s.2 ++ r.onValue view v s.1)
  onCall head s := (h.onCall head s.1, s.2)
  potential s := h.potential s.1
  onGlobal_le view g s := h.onGlobal_le view g s.1
  onScript_le a s := h.onScript_le a s.1
  onCall_le head s := h.onCall_le head s.1
  onElement_lt view place v s := h.onElement_lt view place v s.1
  onValue_lt view v s := h.onValue_lt view v s.1

/-! ## 1. Steps -/

namespace Machine

variable {h : Hooks σ} {r : Recorder σ ε} {references : Bool}

def plain (m : Machine (σ × List ε)) : Machine σ :=
  ⟨m.program, m.unseen, m.entries, m.frames, m.removals, m.state.1⟩

theorem enter_plain (d : DeclId) (m : Machine (σ × List ε)) :
    (enter (h.recorded r) d m).plain = enter h d m.plain := by
  by_cases hd : d ∈ m.unseen
  · cases ha : m.program.declaration? d with
    | none =>
      rw [enter_of_none hd ha, enter_of_none (m := m.plain) hd ha]
      rfl
    | some a =>
      rw [enter_of_some hd ha, enter_of_some (m := m.plain) hd ha]
      cases a <;> rfl
  · rw [enter_of_not_mem hd, enter_of_not_mem (m := m.plain) hd]

theorem close_plain (f : Frame) (below : List Frame) (m : Machine (σ × List ε)) :
    (m.close f below).plain = m.plain.close f below := by
  obtain ⟨program, unseen, entries, frames, removals, state⟩ := m
  obtain ⟨owner, done, todo⟩ := f
  cases owner with
  | global => rfl
  | script => rfl
  | call => cases below <;> rfl

theorem visit_plain (owner : Owner) (done : List Value) (v : Value) (rest : List Value)
    (below : List Frame) (m : Machine (σ × List ε)) :
    (m.visit (h.recorded r) references owner done v rest below).plain =
      m.plain.visit h references owner done v rest below := by
  have hnext : ∀ w s, plain { m with
      frames := answered owner done rest below w, state := (h.recorded r).told w s } =
        { m.plain with frames := answered owner done rest below w, state := h.told w s.1 } := by
    intro w s
    cases w <;> rfl
  rw [visit_eq, visit_eq]
  show plain (Option.elim (Value.lead? references
    (h.onValue (.during m.program (⟨owner, done, v :: rest⟩ :: below)) v m.state.1).1) _ _) =
      Option.elim (Value.lead? references
        (h.onValue (.during m.program (⟨owner, done, v :: rest⟩ :: below)) v m.state.1).1) _ _
  cases Value.lead? references _ with
  | none => exact hnext _ _
  | some d => exact (enter_plain d _).trans (congrArg (enter h d) (hnext _ _))

theorem offer_plain (owner : Owner) (done : List Value) (v : Value) (rest : List Value)
    (below : List Frame) (m : Machine (σ × List ε)) :
    (m.offer (h.recorded r) references owner done v rest below).plain =
      m.plain.offer h references owner done v rest below := by
  obtain ⟨program, unseen, entries, frames, removals, state⟩ := m
  simp only [offer, plain, Hooks.recorded]
  generalize h.onElement (.during program (⟨owner, done, v :: rest⟩ :: below))
    ⟨owner, !done.isEmpty, !rest.isEmpty⟩ v state.1 = answer
  obtain ⟨o, e⟩ := answer
  cases o with
  | drop => rfl
  | keep => exact visit_plain _ _ _ _ _ _

/-- **A step on record is a step.** -/
theorem step_plain (m : Machine (σ × List ε)) :
    (m.step (h.recorded r) references).plain = m.plain.step h references := by
  obtain ⟨program, unseen, entries, frames, removals, state⟩ := m
  cases frames with
  | nil =>
    cases entries with
    | nil => rfl
    | cons d => exact enter_plain d _
  | cons f =>
    obtain ⟨owner, done, todo⟩ := f
    cases todo with
    | nil => exact close_plain _ _ _
    | cons =>
      cases owner with
      | global => exact visit_plain _ _ _ _ _ _
      | script => exact offer_plain _ _ _ _ _ _
      | call => exact offer_plain _ _ _ _ _ _

theorem run_plain (m : Machine (σ × List ε)) :
    (m.run (h.recorded r) references).plain = m.plain.run h references := by
  fun_induction run (h.recorded r) references m with
  | case1 m hover =>
    rw [run, dif_pos]
    exact hover
  | case2 m hover ih =>
    have hnot : ¬ m.plain.isOver = true := hover
    rw [ih, step_plain, run.eq_def h references m.plain, dif_neg hnot]

end Machine

namespace Program

/-- **A walk on record is a walk.** -/
theorem walk_recorded (p : Program) (h : Hooks σ) (r : Recorder σ ε) (s : σ) (log : List ε) :
    p.walk h true s = ((p.walk (h.recorded r) true (s, log)).1,
      (p.walk (h.recorded r) true (s, log)).2.1) := by
  have hrun : ((Machine.start p (s, log)).run (h.recorded r) true).plain =
      (Machine.start p s).run h true := Machine.run_plain _
  rw [walk, ← hrun]
  rfl

/-- **The moments on record are the moments.** -/
theorem moment_recorded (p : Program) (h : Hooks σ) (r : Recorder σ ε) (s : σ) (log : List ε)
    (k : Nat) : (p.moment (h.recorded r) (s, log) k).plain = p.moment h s k := by
  induction k with
  | zero => rfl
  | succ k ih => rw [moment_succ, moment_succ, Machine.step_plain, ih]

end Program

/-! ## 2. Moves -/

namespace Standing

def plain (s : Standing (σ × List ε)) : Standing σ where
  now := s.now
  unseen := s.unseen
  opened := s.opened
  removed := s.removed
  state := s.state.1
  pending := s.pending
  visited := s.visited
  due := s.due
  offered := s.offered

variable {p : Program} {s : Standing (σ × List ε)}

theorem Orderly.plain (hs : s.Orderly p) : s.plain.Orderly p := { hs with }

end Standing

theorem View.Shows.plain {view : View} {s : Standing (σ × List ε)} (hview : view.Shows s) :
    view.Shows s.plain := { hview with }

/-- **A move on record is a move.** -/
theorem Move.plain {h : Hooks σ} {r : Recorder σ ε} {s s' : Standing (σ × List ε)}
    (hmove : Move (h.recorded r) s s') : Move h s.plain s'.plain := by
  cases hmove with
  | global view g hview hg hunseen hreach hdue =>
    exact .global (s := s.plain) view g hview.plain hg hunseen hreach hdue
  | script a ha hunseen hreach hdue =>
    exact .script (s := s.plain) a ha hunseen hreach hdue
  | element view d spot vs rest hview hd howner hdue hpending hedit hsuits =>
    exact .element (s := s.plain) view d spot vs rest hview.plain hd howner hdue hpending hedit
      hsuits
  | value view d spot vs rest hview hd hoffered hdue hpending hedit hsuits =>
    exact .value (s := s.plain) view d spot vs rest hview.plain hd hoffered hdue hpending hedit
      hsuits
  | call head => exact .call (s := s.plain) head
  | skip hdue => exact .skip (s := s.plain) hdue

end HaloScript
