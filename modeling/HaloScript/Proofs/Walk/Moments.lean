/-
# The moments of a walk

A walk is a number of steps (`Machine.run_eq_iterate`), so what is said about a walk as a whole can
be said about each moment of it.  At every moment the program, with all frames put back where they
belong, is what a sequence of moves has made of it (`Program.moment_moves`), and what every move
keeps holds at every moment (`Program.moment_keeps`).  The last moment is the end of the walk, but
for the names that are taken off the table there (`Program.walk_eq_moment`).

Where only the hooks for elements and values do anything to the state, a step is one answer of
either, or an element that stays and is visited in the same step (`Machine.step_act`).
-/
import HaloScript.Proofs.Walk.Coverage
import Mathlib.Logic.Function.Iterate

namespace HaloScript

variable {σ : Type}

namespace Machine

variable {h : Hooks σ} {references : Bool}

/-- **A run is a number of steps**, after which the walk is over. -/
theorem run_eq_iterate (m : Machine σ) : ∃ k, m.run h references = (step h references)^[k] m ∧
    ((step h references)^[k] m).isOver = true := by
  fun_induction run h references m with
  | case1 m hover => exact ⟨0, rfl, hover⟩
  | case2 m hover ih =>
    obtain ⟨k, hrun, hend⟩ := ih
    exact ⟨k + 1, hrun, hend⟩

theorem now_of_isOver {m : Machine σ} (hover : m.isOver = true) : m.now = m.program := by
  simp only [isOver, Bool.and_eq_true, List.isEmpty_iff] at hover
  rw [now, hover.1]
  rfl

end Machine

namespace Program

variable {p : Program} {h : Hooks σ}

/-- The walk after `k` steps. -/
def moment (p : Program) (h : Hooks σ) (s : σ) (k : Nat) : Machine σ :=
  (Machine.step h true)^[k] (.start p s)

theorem moment_succ (s : σ) (k : Nat) : p.moment h s (k + 1) = (p.moment h s k).step h true :=
  Function.iterate_succ_apply' _ _ _

/-- **Every moment is reached by moves.** -/
theorem moment_moves (hp : p.Tidy) (s : σ) (k : Nat) : ∃ trail,
    Moves h (.start p s) ((p.moment h s k).standing trail) ∧ (p.moment h s k).Stands p trail := by
  induction k with
  | zero => exact ⟨⟨[], [], []⟩, .refl, Machine.stands_start hp s⟩
  | succ k ih =>
    obtain ⟨trail, hmoves, hstands⟩ := ih
    obtain ⟨trail', hstep, hstands'⟩ := Machine.step_moves (h := h) hp hstands
    rw [moment_succ]
    exact ⟨trail', hmoves.trans hstep, hstands'⟩

/-- **What every move keeps, holds at every moment**, of what hooks can see there. -/
theorem moment_keeps (hp : p.Tidy) (s : σ) {Q : Standing σ → Prop} (hstart : Q (.start p s))
    (hkeep : ∀ s s', s.Orderly p → Q s → Move h s s' → Q s') (k : Nat) :
    ∃ trail, ((p.moment h s k).standing trail).Orderly p ∧
      (View.during (p.moment h s k).program (p.moment h s k).frames).Shows
        ((p.moment h s k).standing trail) ∧ Q ((p.moment h s k).standing trail) := by
  obtain ⟨trail, hmoves, hstands⟩ := moment_moves (h := h) hp s k
  obtain ⟨hs, hq⟩ := (Standing.orderly_start hp s).moves hp hstart hkeep hmoves
  exact ⟨trail, hs, hstands.shows hp, hq⟩

/-- **A walk ends with one of its moments**, at which names are taken off the table. -/
theorem walk_eq_moment (p : Program) (h : Hooks σ) (s : σ) : ∃ k,
    (p.moment h s k).isOver = true ∧ p.walk h true s =
      ((p.moment h s k).removals.reverse.foldl remove (p.moment h s k).now,
        (p.moment h s k).state) := by
  have hend : ∃ k, (Machine.start p s).run h true = p.moment h s k ∧
      (p.moment h s k).isOver = true := Machine.run_eq_iterate _
  obtain ⟨k, hrun, hover⟩ := hend
  refine ⟨k, hover, ?_⟩
  rw [Machine.now_of_isOver hover, walk, hrun]

end Program

/-- What the hooks of a walk do to the state in one step of the walk. -/
inductive Hooks.Act (h : Hooks σ) (script? : ScriptId → Option Script) : σ → σ → Prop
  | idle (s : σ) : Act h script? s s
  | visit (view : View) (v : Value) (s : σ) (hview : view.script? = script?) :
      Act h script? s (h.onValue view v s).2
  | drop (view : View) (place : Place) (v : Value) (s : σ) {inserted : List Value}
      (hview : view.script? = script?)
      (hdrop : (h.onElement view place v s).1 = .drop inserted) :
      Act h script? s (h.onElement view place v s).2
  | keep (view view' : View) (place : Place) (v : Value) (s : σ) {w : Value}
      {inserted : List Value} (hview : view.script? = script?) (hview' : view'.script? = script?)
      (hkeep : (h.onElement view place v s).1 = .keep w inserted) :
      Act h script? s (h.onValue view' w (h.onElement view place v s).2).2

namespace Machine

variable {h : Hooks σ} {references : Bool}

/-- **A step does one thing to the state**, if only the hooks for elements and values do
anything. -/
theorem step_act (hglobal : ∀ view g s, (h.onGlobal view g s).2 = s)
    (hscript : ∀ a s, (h.onScript a s).2 = s) (hcall : ∀ head s, h.onCall head s = s)
    (m : Machine σ) : h.Act m.program.script? m.state (m.step h references).state := by
  unfold step
  split
  · split
    · exact .idle _
    · next d rest hentries =>
      rw [enter_state hglobal hscript]
      exact .idle _
  · next owner done below hframes =>
    rw [(close_keeps _ _ _).1]
    exact .idle _
  · next owner done v rest below hframes =>
    split
    · rw [visit_state hglobal hscript hcall]
      exact .visit _ v m.state rfl
    · obtain ⟨program, unseen, entries, frames, removals, state⟩ := m
      unfold offer
      dsimp only
      split
      · next inserted state' hanswer =>
        have hact := Hooks.Act.drop (h := h)
          (.during program (⟨owner, done, v :: rest⟩ :: below))
          ⟨owner, !done.isEmpty, !rest.isEmpty⟩ v state rfl (congrArg Prod.fst hanswer)
        rw [hanswer] at hact
        exact hact
      · next w inserted state' hanswer =>
        have hact := Hooks.Act.keep (h := h)
          (.during program (⟨owner, done, v :: rest⟩ :: below))
          (.during program (⟨owner, done, w :: (inserted ++ rest)⟩ :: below))
          ⟨owner, !done.isEmpty, !rest.isEmpty⟩ v state rfl rfl (congrArg Prod.fst hanswer)
        rw [hanswer] at hact
        rw [visit_state hglobal hscript hcall]
        exact hact

end Machine

end HaloScript
