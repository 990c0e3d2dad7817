/-
# Editing a list while it is walked

A hook may put values behind the element it is offered, and it may drop the element.  The walk goes
on with what is there by then, and in between it goes wherever the element leads.

The machine has the values of a list before it and no cursors.  But what its hooks reply
(`Machine.Replies`) and what its visits do until the walk is back (`Machine.Visits`) can be done in
a loop that goes through a linked list, and the walk does what this loop does
(`Machine.list_process`): it offers the same values, and those that stay make up both lists at the
end.  Visits open other lists, but all of these are over before the walk comes back, and then one
value more is done and nothing else has changed in the list (`Machine.Returns.of_visit`).  The walk
keeps no record of its visits, and the steps of a lowering need none (`Pass.visits_nodup`).
-/
import HaloScript.Proofs.Walk.Cursor
import HaloScript.Proofs.Walk.Steps
import HaloScript.Walk.Trace
import Mathlib.Logic.Function.Iterate

namespace HaloScript

open List LinkedList

variable {σ : Type}

namespace Machine

/-! ## 1. Coming back to a list -/

/-- The walk comes from `m` to `m'` in a number of steps, and not before are no more than `n` lists
open. -/
inductive Returns (h : Edits σ) (references : Bool) (n : Nat) :
    Machine σ → Nat → Machine σ → Prop
  | here {m : Machine σ} (hm : m.frames.length ≤ n) : Returns h references n m 0 m
  | later {m m' : Machine σ} {k : Nat} (hm : n < m.frames.length)
      (hrest : Returns h references n (m.step h references) k m') :
      Returns h references n m (k + 1) m'

/-- Other lists are being walked above the list of `owner`.  If a call lies right above it, the
call will be the next value that is done there; if a declaration does, the value has been done. -/
inductive Inside (owner : Owner) (done rest : List Value) (below : List Frame) : List Frame → Prop
  | args (t : Tag) (head : Head) (ds ts : List Value) :
      Inside owner done rest below (⟨.call t head, ds, ts⟩ :: ⟨owner, done, rest⟩ :: below)
  | aside (d : DeclId) (ds ts : List Value) (w : Value) :
      Inside owner done rest below (⟨d.owner, ds, ts⟩ :: ⟨owner, w :: done, rest⟩ :: below)
  | atop (o : Owner) (ds ts : List Value) {frames : List Frame}
      (hin : Inside owner done rest below frames) :
      Inside owner done rest below (⟨o, ds, ts⟩ :: frames)

/-- The walk is above the list, or has come back to it with one value more done. -/
def Above (owner : Owner) (done rest : List Value) (below frames : List Frame) : Prop :=
  (∃ w, frames = ⟨owner, w :: done, rest⟩ :: below) ∨ Inside owner done rest below frames

variable {h : Edits σ} {references : Bool} {m m' : Machine σ} {owner o : Owner}
  {done rest ds ts : List Value} {below frames : List Frame} {n k : Nat}

theorem Inside.length_lt (hin : Inside owner done rest below frames) :
    below.length + 1 < frames.length := by
  induction hin with
  | args | aside => simp
  | atop o ds ts hin ih => exact Nat.lt_succ_of_lt ih

/-- How far the innermost list has been walked makes no difference. -/
theorem Inside.retop (hin : Inside owner done rest below (⟨o, ds, ts⟩ :: frames))
    (ds' ts' : List Value) : Inside owner done rest below (⟨o, ds', ts'⟩ :: frames) := by
  cases hin with
  | args t head => exact .args t head ds' ts'
  | aside d _ _ w => exact .aside d ds' ts' w
  | atop _ _ _ hin => exact .atop o ds' ts' hin

theorem Above.enter (habove : Above owner done rest below m.frames) (d : DeclId) :
    Above owner done rest below (m.enter h d).frames := by
  rcases enter_cases h d m with heq | heq | ⟨a, heq⟩
  · rwa [heq]
  · rwa [heq]
  · rw [heq, allow]
    split
    · exact habove
    · rcases habove with ⟨w, hw⟩ | hin
      · rw [hw]
        exact .inr (.aside d [] a.values w)
      · exact .inr (.atop _ _ _ hin)

theorem visit_above {v : Value}
    (hanswered : ∀ w, Above owner done rest below (answered o ds ts frames w)) :
    Above owner done rest below (m.visit h references o ds v ts frames).frames := by
  rw [visit_eq]
  dsimp only
  cases Value.lead? references _ with
  | none => exact hanswered _
  | some d => exact Above.enter (hanswered _) d

/-- **A step above the list** stays above it or comes back to it. -/
theorem Inside.step (hin : Inside owner done rest below m.frames) :
    Above owner done rest below (m.step h references).frames := by
  obtain ⟨program, unseen, entries, frames, removals, state⟩ := m
  cases frames with
  | nil => cases hin
  | cons f frames =>
    obtain ⟨o, ds, ts⟩ := f
    cases ts with
    | nil =>
      obtain ⟨d, rfl⟩ | ⟨t, head, rfl⟩ := o.decl_or_call
      · have hframes : (Machine.step h references ⟨program, unseen, entries,
            ⟨d.owner, ds, []⟩ :: frames, removals, state⟩).frames = frames := by cases d <;> rfl
        rw [hframes]
        generalize howner : d.owner = o at hin
        cases hin with
        | args => cases d <;> cases howner
        | aside d' _ _ w => exact .inl ⟨w, rfl⟩
        | atop _ _ _ hin => exact .inr hin
      · generalize howner : Owner.call t head = o at hin
        cases hin with
        | args => exact .inl ⟨_, rfl⟩
        | aside d => cases d <;> cases howner
        | @atop _ _ _ frames hin =>
          subst howner
          cases frames with
          | nil => cases hin
          | cons => exact .inr (hin.retop _ _)
    | cons v ts =>
      have hanswered : ∀ ts w, Above owner done rest below (answered o ds ts frames w) := by
        intro ts w
        cases w with
        | leaf => exact .inr (hin.retop _ _)
        | call => exact .inr (.atop _ _ _ (hin.retop _ _))
      have hoffer : Above owner done rest below (Machine.offer h references o ds v ts frames
          ⟨program, unseen, entries, ⟨o, ds, v :: ts⟩ :: frames, removals, state⟩).frames := by
        unfold Machine.offer
        dsimp only
        split
        · exact .inr (hin.retop _ _)
        · exact visit_above (hanswered _)
      cases o with
      | global => exact visit_above (hanswered _)
      | script => exact hoffer
      | call => exact hoffer

theorem Above.returns (habove : Above owner done rest below m.frames)
    (hr : Returns h references (below.length + 1) m k m') :
    ∃ w, m'.frames = ⟨owner, w :: done, rest⟩ :: below := by
  induction hr with
  | here hm => exact habove.resolve_right fun hin => Nat.not_lt.mpr hm hin.length_lt
  | later hm _ ih =>
    rcases habove with ⟨w, hw⟩ | hin
    · simp [hw] at hm
    · exact ih hin.step

/-- **After a visit the walk comes back** to the list with one value more done. -/
theorem Returns.of_visit {v : Value} (hr : Returns h references (below.length + 1)
      (m.visit h references owner done v rest below) k m') :
    ∃ w, m'.frames = ⟨owner, w :: done, rest⟩ :: below := by
  refine Above.returns (visit_above fun w => ?_) hr
  cases w with
  | leaf => exact .inl ⟨_, rfl⟩
  | call t head args => exact .inr (.args t head [] args)

/-- A walk that has left a list behind has come back to it before. -/
theorem exists_returns (hk : ((step h references)^[k] m).frames.length ≤ n) :
    ∃ j, j ≤ k ∧ ∃ m', Returns h references n m j m' := by
  induction k generalizing m with
  | zero => exact ⟨0, Nat.le_refl _, m, .here hk⟩
  | succ k ih =>
    by_cases hm : m.frames.length ≤ n
    · exact ⟨0, Nat.zero_le _, m, .here hm⟩
    · obtain ⟨j, hj, m', hr⟩ := ih hk
      exact ⟨j + 1, Nat.succ_le_succ hj, m', .later (Nat.not_le.mp hm) hr⟩

variable {m₁ m₂ : Machine σ}

theorem Returns.unique {j : Nat} (hr : Returns h references n m k m₁)
    (hr' : Returns h references n m j m₂) : m₂ = m₁ := by
  induction hr generalizing j with
  | here hm =>
    cases hr' with
    | here => rfl
    | later hm' => exact absurd hm (Nat.not_le.mpr hm')
  | later hm _ ih =>
    cases hr' with
    | here hm' => exact absurd hm' (Nat.not_le.mpr hm)
    | later _ hr' => exact ih hr'

/-! ## 2. The recursion -/

/-- What the hook says to the first value of a list. -/
def answer (h : Edits σ) (owner : Owner) (done : List Value) (v : Value) (rest : List Value)
    (below : List Frame) (m : Machine σ) : Offer × σ :=
  h.onElement (.during m.program (⟨owner, done, v :: rest⟩ :: below))
    ⟨owner, !done.isEmpty, !rest.isEmpty⟩ v m.state

/-- What the hook makes of an element of the list of `owner`. -/
inductive Replies (h : Edits σ) (owner : Owner) (below : List Frame) :
    Act Value (Machine σ) (Reply Value)
  | drop {done rest inserted : List Value} {v : Value} {m : Machine σ} {s : σ}
      (hanswer : m.answer h owner done v rest below = (.drop inserted, s)) :
      Replies h owner below done v rest m (.drop inserted)
        { m with frames := ⟨owner, done, inserted ++ rest⟩ :: below, state := s }
  | keep {done rest inserted : List Value} {v w : Value} {m : Machine σ} {s : σ}
      (hanswer : m.answer h owner done v rest below = (.keep w inserted, s)) :
      Replies h owner below done v rest m (.keep w inserted) { m with state := s }

/-- What a visit in the list of `owner` comes to: the walk goes on until it is back at the list. -/
def Visits (h : Edits σ) (references : Bool) (owner : Owner) (below : List Frame) :
    Act Value (Machine σ) Value := fun done v rest m v' m' =>
  (∃ k, Returns h references (below.length + 1)
    (m.visit h references owner done v rest below) k m') ∧
    m'.frames = ⟨owner, v' :: done, rest⟩ :: below

/-- The value that the next step offers, if the list is innermost that is the `n`-th one from the
bottom. -/
def offered? (n : Nat) (m : Machine σ) : Option Value :=
  if m.frames.length = n then m.frames.head?.bind (·.todo.head?) else none

/-- The values of the `n`-th list from the bottom that are offered in a number of steps. -/
def offers (h : Edits σ) (references : Bool) (n : Nat) : Nat → Machine σ → List Value
  | 0, _ => []
  | k + 1, m => (m.offered? n).toList ++ offers h references n k (m.step h references)

theorem offers_add (j k : Nat) (m : Machine σ) : m.offers h references n (j + k) =
    m.offers h references n j ++ offers h references n k ((step h references)^[j] m) := by
  induction j generalizing m with
  | zero => rw [Nat.zero_add]; rfl
  | succ j ih => rw [Nat.add_right_comm, offers, ih, offers, append_assoc]; rfl

/-- On the way back nothing is offered from the list. -/
theorem Returns.iterate (hr : Returns h references n m k m') :
    (step h references)^[k] m = m' ∧ m.offers h references n k = [] := by
  induction hr with
  | here => exact ⟨rfl, rfl⟩
  | later hm _ ih =>
    refine ⟨ih.1, ?_⟩
    rw [offers, ih.2, offered?, if_neg (Nat.ne_of_gt hm)]
    rfl

section

variable {v : Value} {s : σ} {inserted : List Value} (references : Bool)

section

variable (howner : ∀ id, owner ≠ .global id) (hm : m.frames = ⟨owner, done, v :: rest⟩ :: below)

include howner hm

theorem step_list : m.step h references = m.offer h references owner done v rest below := by
  unfold step
  rw [hm]
  cases owner with
  | global id => exact absurd rfl (howner id)
  | script => rfl
  | call => rfl

theorem step_of_drop (hanswer : m.answer h owner done v rest below = (.drop inserted, s)) :
    m.step h references =
      { m with frames := ⟨owner, done, inserted ++ rest⟩ :: below, state := s } := by
  rw [step_list references howner hm]
  unfold offer
  unfold answer at hanswer
  dsimp only
  rw [hanswer]

theorem step_of_keep {w : Value}
    (hanswer : m.answer h owner done v rest below = (.keep w inserted, s)) :
    m.step h references =
      visit h references owner done w (inserted ++ rest) below { m with state := s } := by
  rw [step_list references howner hm]
  unfold offer
  unfold answer at hanswer
  dsimp only
  rw [hanswer]
  rfl

end

/-- **The recursion ends** if the walk leaves the list behind. -/
theorem exists_process (howner : ∀ id, owner ≠ .global id) (k : Nat) {m : Machine σ}
    {done todo : List Value} (hm : m.frames = ⟨owner, done, todo⟩ :: below)
    (hk : ((step h references)^[k] m).frames.length ≤ below.length) :
    ∃ turns out m', Process (Replies h owner below) (Visits h references owner below) done todo m
      turns out m' := by
  induction k using Nat.strongRecOn generalizing m done todo with
  | ind k ih =>
    cases todo with
    | nil => exact ⟨[], [], m, .nil done m⟩
    | cons v rest =>
      cases k with
      | zero =>
        rw [Function.iterate_zero_apply, hm] at hk
        exact absurd hk (Nat.not_succ_le_self _)
      | succ k =>
        rw [Function.iterate_succ_apply] at hk
        rcases hanswer : m.answer h owner done v rest below with ⟨_ | _, s⟩
        case drop inserted =>
          rw [step_of_drop references howner hm hanswer] at hk
          obtain ⟨turns, out, m', hrest⟩ := ih k (Nat.lt_succ_self k) rfl hk
          exact ⟨_, _, m', .drop (.drop hanswer) hrest⟩
        case keep w inserted =>
          rw [step_of_keep references howner hm hanswer] at hk
          obtain ⟨j, hj, m₁, hr⟩ := exists_returns (Nat.le_succ_of_le hk)
          obtain ⟨w', hleft⟩ := hr.of_visit
          -- the rest of the walk starts where the visit is over
          rw [← Nat.sub_add_cancel hj, Function.iterate_add_apply, hr.iterate.1] at hk
          obtain ⟨turns, out, m', hrest⟩ := ih (k - j) (by omega) hleft hk
          exact ⟨_, _, m', .keep (.keep hanswer) ⟨⟨j, hr⟩, hleft⟩ hrest⟩

end

theorem Replies.unique {v : Value} {r r' : Reply Value}
    (hr : Replies h owner below done v rest m r m₁)
    (hr' : Replies h owner below done v rest m r' m₂) : r' = r ∧ m₂ = m₁ := by
  cases hr with
  | drop hanswer =>
    cases hr' with
    | drop hanswer' =>
      cases hanswer.symm.trans hanswer'
      exact ⟨rfl, rfl⟩
    | keep hanswer' => cases hanswer.symm.trans hanswer'
  | keep hanswer =>
    cases hr' with
    | drop hanswer' => cases hanswer.symm.trans hanswer'
    | keep hanswer' =>
      cases hanswer.symm.trans hanswer'
      exact ⟨rfl, rfl⟩

theorem Visits.unique {v w w' : Value} (hv : Visits h references owner below done v rest m w m₁)
    (hv' : Visits h references owner below done v rest m w' m₂) : w' = w ∧ m₂ = m₁ := by
  obtain ⟨⟨j, hr⟩, hleft⟩ := hv
  obtain ⟨⟨k, hr'⟩, hleft'⟩ := hv'
  obtain rfl := hr.unique hr'
  cases hleft.symm.trans hleft'
  exact ⟨rfl, rfl⟩

/-- The recursion has one result, since a machine has one next step. -/
theorem process_unique {turns turns' : List (Turn Value)} {todo out out' : List Value}
    (hp : Process (Replies h owner below) (Visits h references owner below) done todo m
      turns out m₁)
    (hp' : Process (Replies h owner below) (Visits h references owner below) done todo m
      turns' out' m₂) :
    turns' = turns ∧ out' = out ∧ m₂ = m₁ :=
  Process.unique (fun hr hr' => hr.unique hr') (fun hv hv' => hv.unique hv') hp hp'

/-- **The walk of a list is the recursion**, and offers the same values. -/
theorem run_of_process {turns : List (Turn Value)} {todo out : List Value}
    (hp : Process (Replies h owner below) (Visits h references owner below) done todo m
      turns out m')
    (howner : ∀ id, owner ≠ .global id) (hm : m.frames = ⟨owner, done, todo⟩ :: below) :
    m'.frames = ⟨owner, out.reverse ++ done, []⟩ :: below ∧
      ∃ k, (step h references)^[k] m = m' ∧
        m.offers h references (below.length + 1) k = turns.map Turn.element := by
  induction hp with
  | nil => exact ⟨hm, 0, rfl, rfl⟩
  | drop hreply hrest ih =>
    cases hreply with
    | drop hanswer =>
      obtain ⟨hframes, k, hk, hoffers⟩ := ih rfl
      have hstep := step_of_drop references howner hm hanswer
      refine ⟨hframes, k + 1, ?_, ?_⟩
      · rw [Function.iterate_succ_apply, hstep, hk]
      · rw [offers, hstep, hoffers, offered?, hm]
        simp
  | keep hreply hvisit hrest ih =>
    cases hreply with
    | keep hanswer =>
      obtain ⟨⟨j, hr⟩, hleft⟩ := hvisit
      obtain ⟨hframes, k, hk, hoffers⟩ := ih hleft
      have hstep := step_of_keep references howner hm hanswer
      obtain ⟨hj, hnone⟩ := hr.iterate
      rw [← hstep] at hj hnone
      refine ⟨?_, (j + k) + 1, ?_, ?_⟩
      · rw [hframes]
        simp
      · rw [Function.iterate_succ_apply, Nat.add_comm j, Function.iterate_add_apply, hj, hk]
      · rw [offers, offers_add, hnone, hj, hoffers, offered?, hm]
        simp

/-- **Editing a list while it is walked is a worklist recursion.**  Take any kind of linked lists
that is lawful, any hook that puts values behind the element it is offered, and any visits, also
such as pass over what has been visited before.  Then every run of the cursor loop that ends is one
of the recursion: it offers the same values in the same order, and it leaves the same list and the
same world; and the recursion has no other runs.  The values offered are those that were in the list
or came into it, each one once, and the list in the end is made up of those that stay, as their
visits leave them.

The walk does what the loop does.  Take any edits and a walk that leaves a body or an argument list
behind at some time after the list was opened; a walk that goes on for ever there has no list at the
end to speak of.  Then the loop ends, too, with the replies and the visits of the walk, and can end
in one way only.  The walk comes by the machine that the loop ends in, until then it offers from
this list what the loop offers, and it has the same values done. -/
theorem list_process {α ω : Type} {L : LinkedList α} (hL : L.Lawful) (hook : Act α ω (Reply α))
    (visit : Act α ω α) {V : LinkedList Value} (hV : V.Lawful) (h : Edits σ) (references : Bool)
    {owner : Owner} (howner : ∀ id, owner ≠ .global id) (vs : V.Lists) (below : List Frame)
    {m : Machine σ} (hm : m.frames = ⟨owner, [], V.toList vs⟩ :: below) (n : Nat)
    (hends : ((step h references)^[n] m).frames.length ≤ below.length) :
    (∀ l w turns w', (∀ out, (∃ l', L.Sweep hook visit (L.front? l) l w turns l' w' ∧
          L.toList l' = out) ↔ Process hook visit [] (L.toList l) w turns out w') ∧
        ∀ l', L.Sweep hook visit (L.front? l) l w turns l' w' →
          L.toList l' = turns.filterMap Turn.left ∧
            (turns.map Turn.element).Perm (L.toList l ++ turns.flatMap Turn.inserted)) ∧
      ∃ turns vs' m',
        V.Sweep (Replies h owner below) (Visits h references owner below) (V.front? vs) vs m turns
          vs' m' ∧
        (∀ turns' vs'' m'', V.Sweep (Replies h owner below) (Visits h references owner below)
          (V.front? vs) vs m turns' vs'' m'' →
            turns' = turns ∧ V.toList vs'' = V.toList vs' ∧ m'' = m') ∧
        (∃ k, (step h references)^[k] m = m' ∧
          m.offers h references (below.length + 1) k = turns.map Turn.element) ∧
        m'.frames = ⟨owner, (V.toList vs').reverse, []⟩ :: below := by
  refine ⟨fun l w turns w' => ⟨fun out => sweep_iff_process hL, fun l' hsweep => ?_⟩, ?_⟩
  · have hp := (sweep_iff_process hL).mp ⟨l', hsweep, rfl⟩
    exact ⟨hp.out_eq, hp.perm⟩
  · obtain ⟨turns, out, m', hp⟩ := exists_process references howner n hm hends
    obtain ⟨vs', hsweep, rfl⟩ := (sweep_iff_process hV).mpr hp
    obtain ⟨hframes, hrun⟩ := run_of_process hp howner hm
    rw [append_nil] at hframes
    refine ⟨turns, vs', m', hsweep, fun turns' vs'' m'' hsweep' => ?_, hrun, hframes⟩
    exact process_unique hp ((sweep_iff_process hV).mp ⟨vs'', hsweep', rfl⟩)

def callSample (id : NodeId) (name : Text) : Value :=
  .call ⟨id, none⟩ ⟨id, none, .word name none, false⟩ []

def chainSample : Chain Value where
  order := [0, 1]
  values c := if c = 0 then callSample 1 "f" else callSample 2 "g"
  limit := 2
  nodup := by decide
  lt_limit := by decide

/-- Calls of `f` are dropped. -/
def spliceEdits : Edits Trace := (Trace.hooks ⟨[], ["f"], [], []⟩ {}).toEdits

/-- A walk that inserts a word behind the first call of `f`. -/
def spliceSample : Machine Trace :=
  ⟨{}, [], [], [⟨.script ⟨"s", 0⟩, [], [callSample 1 "f", callSample 2 "g"]⟩], [],
    ⟨[], [("f", .atom "x")], 0, 3⟩⟩

/-- The word is offered between the calls and takes the place of the first, which is the first
element of the list.  The loop ends with the same two values. -/
theorem list_process_spliceSample : ∃ k turns vs' m',
    (Chain.lists Value).Sweep (Replies spliceEdits (.script ⟨"s", 0⟩) [])
      (Visits spliceEdits true (.script ⟨"s", 0⟩) []) (some (0 : Nat)) chainSample spliceSample
      turns vs' m' ∧
    (Chain.lists Value).toList vs' = [.leaf ⟨3, none⟩ (.atom "x"), callSample 2 "g"] ∧
    offers spliceEdits true 1 k spliceSample =
      [callSample 1 "f", .leaf ⟨3, none⟩ (.atom "x"), callSample 2 "g"] ∧
    ((step spliceEdits true)^[k] spliceSample).frames =
      [⟨.script ⟨"s", 0⟩, [callSample 2 "g", .leaf ⟨3, none⟩ (.atom "x")], []⟩] := by
  obtain ⟨hloop, turns, vs', m', hsweep, -, ⟨k, hk, hoffers⟩, hframes⟩ :=
    list_process (Chain.lists_lawful Value) (Replies spliceEdits (.script ⟨"s", 0⟩) [])
      (Visits spliceEdits true (.script ⟨"s", 0⟩) []) (Chain.lists_lawful Value) spliceEdits true
      (fun id h => by cases h) chainSample [] (m := spliceSample) rfl 5 (by decide)
  have hp := ((hloop chainSample spliceSample turns m').1 _).mp ⟨vs', hsweep, rfl⟩
  obtain ⟨rfl, hvs, -⟩ := process_unique
    (.drop (.drop rfl) (.keep (.keep rfl) ⟨⟨0, .here (Nat.le_refl 1)⟩, rfl⟩
      (.keep (.keep rfl) ⟨⟨1, .later (Nat.lt_succ_self 1) (.here (Nat.le_refl 1))⟩, rfl⟩
        (.nil _ _)))) hp
  rw [hvs] at hframes
  exact ⟨k, _, vs', m', hsweep, hvs, hoffers, hk ▸ hframes⟩

end Machine

end HaloScript
