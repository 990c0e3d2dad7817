/-
# Expansion on record

The calls that macro expansion tries are put on record (`Macros.recorder`): a call of a macro with
as many arguments as the macro has parameters, unless it has been set aside before, together with
what it was expanded to.  One call of a hook can try several, since what comes out of an expansion
is tried in turn.

All that is needed to know about the answer of a hook, the record and the state after it is
collected in `Macros.Reply`: which calls are set aside, that the calls that are put in are new, and
that no call is tried twice.
-/
import HaloScript.Proofs.Lowering.Numbers
import HaloScript.Proofs.Lowering.Templates
import HaloScript.Proofs.Walk.Record

namespace HaloScript

open List Value

namespace Macros

/-! ## 1. The record -/

/-- A call of a macro with the right number of arguments that was tried, and what it was expanded
to, if it was. -/
structure Attempt where
  head : Head
  args : List Value
  result : Option (List Value)

/-- What is noted down when a call is to be expanded. -/
def attempt (view : View) (h : Head) (args : List Value) (e : Env) : List Attempt :=
  match h.template? view.script? with
  | none => []
  | some m =>
    if e.isMarked h.id || args.length != m.params.length then []
    else [⟨h, args, (expand? view h args e).1⟩]

/-- What is noted down about a value. -/
def attemptsValue (view : View) (v : Value) (e : Env) : List Attempt :=
  match v with
  | .leaf _ _ => []
  | .call t h args =>
    match _hx : expand? view h args e with
    | (none, _) => attempt view h args e
    | (some [w], e') => attempt view h args e ++ attemptsValue view (w.withTag t) e'
    | (some _, _) => attempt view h args e
termination_by e.potential
decreasing_by exact expand?_lt _hx

def attemptsElement (view : View) (place : Place) (v : Value) (e : Env) : List Attempt :=
  match v with
  | .leaf _ _ => []
  | .call _ h args => if place.owner.takesStatements then attempt view h args e else []

def recorder : Recorder Env Attempt := ⟨attemptsElement, attemptsValue⟩

/-! ## 2. One trial -/

/-- What can become of a call, and what is noted down about it. -/
inductive Trial (script? : ScriptId → Option Script) (h : Head) (args : List Value) (e : Env) :
    Option (List Value) → Env → List Attempt → Prop
  | other (hm : h.template? script? = none) : Trial script? h args e none e []
  | aside {m : Script} (hm : h.template? script? = some m) (hmark : e.isMarked h.id = true) :
    Trial script? h args e none e []
  | wrong {m : Script} (hm : h.template? script? = some m) (hmark : e.isMarked h.id = false)
    (hargs : args.length ≠ m.params.length) : Trial script? h args e none
      ((e.mark h.id).tellNode .error h.span (wrongArgumentCount m args.length)) []
  | exceeded {m : Script} {e' : Env} (hm : h.template? script? = some m)
    (hmark : e.isMarked h.id = false) (hargs : args.length = m.params.length)
    (hspend : e.spend 1 h.span = (false, e')) :
    Trial script? h args e none (e'.mark h.id) [⟨h, args, none⟩]
  | expanded {m : Script} {e' : Env} {vs : List Value} {n : NodeId}
    (hm : h.template? script? = some m)
    (hmark : e.isMarked h.id = false) (hargs : args.length = m.params.length)
    (hspend : e.spend 1 h.span = (true, e'))
    (hvs : Value.instantiateAll (substitution m.params args) m.body e'.nextNode = (vs, n)) :
    Trial script? h args e (some vs) { e' with nextNode := n } [⟨h, args, some vs⟩]

/-- **Expansion is a trial.** -/
theorem expand?_trial (view : View) (h : Head) (args : List Value) (e : Env) :
    Trial view.script? h args e (expand? view h args e).1 (expand? view h args e).2
      (attempt view h args e) := by
  unfold attempt
  cases hm : h.template? view.script? with
  | none =>
    rw [expand?_of_none hm]
    exact .other hm
  | some m =>
    have hx := expand?_of_some hm args e
    by_cases hmark : e.isMarked h.id = true
    · rw [if_pos hmark] at hx
      simp only [hx, hmark, Bool.true_or, if_true]
      exact .aside hm hmark
    · rw [if_neg hmark] at hx
      rw [Bool.not_eq_true] at hmark
      by_cases hargs : args.length = m.params.length
      · rw [if_neg (not_not.mpr hargs)] at hx
        have hkeep : (e.isMarked h.id || args.length != m.params.length) = false := by
          simp [hmark, hargs]
        simp only [hkeep, Bool.false_eq_true, if_false]
        rcases hspend : e.spend 1 h.span with ⟨_ | _, e'⟩
        · rw [hspend] at hx
          rw [hx]
          exact .exceeded hm hmark hargs hspend
        · rw [hspend] at hx
          rw [hx]
          exact .expanded hm hmark hargs hspend rfl
      · rw [if_pos hargs] at hx
        have hdrop : (e.isMarked h.id || args.length != m.params.length) = true := by simp [hargs]
        simp only [hx, hdrop, if_true]
        exact .wrong hm hmark hargs

/-- Nothing is taken back: calls that have been set aside, numbers that have been drawn, and that
the budget is exhausted. -/
structure Later (e e' : Env) : Prop where
  nextNode : e.nextNode ≤ e'.nextNode
  marks : ∀ i, e.isMarked i = true → e'.isMarked i = true
  exhausted : e.budget.exhausted = true → e'.budget.exhausted = true

theorem Later.refl (e : Env) : Later e e := ⟨Nat.le_refl _, fun _ h => h, fun h => h⟩

theorem Later.trans {e e' e'' : Env} (h : Later e e') (h' : Later e' e'') : Later e e'' :=
  ⟨Nat.le_trans h.nextNode h'.nextNode, fun i hi => h'.marks i (h.marks i hi),
    fun hx => h'.exhausted (h.exhausted hx)⟩

theorem isMarked_mark (e : Env) (i j : NodeId) :
    (e.mark i).isMarked j = true ↔ j = i ∨ e.isMarked j = true := by
  rw [eq_comm (a := j)]
  simp [Env.mark, Env.isMarked, Std.HashSet.contains_insert]

theorem covers_one {b : Budget} (hx : b.exhausted = false) :
    b.covers 1 = decide (1 ≤ b.left.toInt) := by
  simp [Budget.covers, hx, Int64.le_iff_toInt_le]

/-- What spending leaves alone, and that it fails only when the budget is exhausted. -/
theorem spend_spec (e : Env) (span : Option Span) :
    (e.spend 1 span).2.nextNode = e.nextNode ∧ (e.spend 1 span).2.marks = e.marks ∧
      (e.budget.exhausted = true → (e.spend 1 span).2.budget.exhausted = true) ∧
      ((e.spend 1 span).1 = false → (e.spend 1 span).2.budget.exhausted = true) := by
  obtain ⟨hx, heq⟩ | ⟨hx, -, heq⟩ | ⟨-, -, heq⟩ := e.spend_cases 1 span
  · rw [heq]
    exact ⟨rfl, rfl, fun h => h, fun _ => hx⟩
  · rw [heq]
    exact ⟨rfl, rfl, fun h => absurd (hx.symm.trans h) Bool.false_ne_true, nofun⟩
  · rw [heq]
    exact ⟨rfl, rfl, fun _ => rfl, fun _ => rfl⟩

namespace Trial

variable {script? : ScriptId → Option Script} {h : Head} {args : List Value} {e e' : Env}
  {r : Option (List Value)} {new : List Attempt} {vs : List Value} {i : NodeId}

/-- A trial takes nothing back: numbers stay drawn, and calls set aside stay aside. -/
theorem later (ht : Trial script? h args e r e' new) : Later e e' := by
  cases ht with
  | other | aside => exact .refl e
  | wrong =>
    exact ⟨Nat.le_refl _, fun i hi => (isMarked_mark e h.id i).mpr (.inr hi), fun hx => hx⟩
  | @exceeded m e₁ hm hmark hargs hspend =>
    obtain ⟨hnext, hmarks, hx, -⟩ := spend_spec e h.span
    rw [hspend] at hnext hmarks hx
    refine ⟨Nat.le_of_eq hnext.symm, fun i hi => (isMarked_mark e₁ h.id i).mpr (.inr ?_), hx⟩
    rw [Env.isMarked, hmarks]
    exact hi
  | @expanded m e₁ vs n hm hmark hargs hspend hvs =>
    obtain ⟨hnext, hmarks, hx, -⟩ := spend_spec e h.span
    rw [hspend] at hnext hmarks hx
    have hrenews := instantiateAll_renews (m := substitution m.params args) m.body e₁.nextNode
    rw [hvs] at hrenews
    refine ⟨hnext ▸ hrenews.le, fun i hi => ?_, hx⟩
    show e₁.isMarked i = true
    rw [Env.isMarked, hmarks]
    exact hi

/-- Only the call itself is set aside, if it cannot be expanded: because it has the wrong number of
arguments or because the budget is exhausted. -/
theorem marks (ht : Trial script? h args e r e' new) (hi : e'.isMarked i = true) :
    e.isMarked i = true ∨ (i = h.id ∧ r = none ∧ ∀ m, h.template? script? = some m →
      args.length = m.params.length → e'.budget.exhausted = true) := by
  cases ht with
  | other | aside => exact .inl hi
  | wrong hm hmark hargs =>
    refine ((isMarked_mark e h.id i).mp hi).symm.imp_right fun heq => ⟨heq, rfl, fun m' hm' => ?_⟩
    obtain rfl := Option.some.inj (hm.symm.trans hm')
    exact fun h => absurd h hargs
  | @exceeded m e₁ hm hmark hargs hspend =>
    obtain ⟨-, hmarks, -, hx⟩ := spend_spec e h.span
    rw [hspend] at hmarks hx
    rcases (isMarked_mark e₁ h.id i).mp hi with heq | hi
    · exact .inr ⟨heq, rfl, fun _ _ _ => hx rfl⟩
    · rw [Env.isMarked, hmarks] at hi
      exact .inl hi
  | @expanded m e₁ vs n hm hmark hargs hspend =>
    obtain ⟨-, hmarks, -, -⟩ := spend_spec e h.span
    rw [hspend] at hmarks
    have hi : e₁.isMarked i = true := hi
    rw [Env.isMarked, hmarks] at hi
    exact .inl hi

theorem isMarked_of_none (ht : Trial script? h args e none e' new)
    (hm : h.template? script? ≠ none) : e'.isMarked h.id = true := by
  cases ht with
  | other hnone => exact absurd hnone hm
  | aside _ hmark => exact hmark
  | wrong => exact (isMarked_mark e h.id h.id).mpr (.inl rfl)
  | @exceeded m e₁ => exact (isMarked_mark e₁ h.id h.id).mpr (.inl rfl)

section

variable (ht : Trial script? h args e (some vs) e' new)

include ht

theorem numbers : Renews e.nextNode e'.nextNode [] (Value.numbers vs) := by
  cases ht with
  | @expanded m e₁ _ n hm hmark hargs hspend hvs =>
    obtain ⟨hnext, -⟩ := spend_spec e h.span
    rw [hspend] at hnext
    have hrenews := instantiateAll_renews (m := substitution m.params args) m.body e₁.nextNode
    rw [hvs, hnext] at hrenews
    exact hrenews

theorem nextNode_le (hi : i ∈ Value.numbers vs) : e.nextNode ≤ i := by
  rcases ht.numbers.mem i hi with hold | ⟨hle, -⟩
  · exact absurd hold not_mem_nil
  · exact hle

theorem isMarked_of_some (hi : e'.isMarked i = true) : e.isMarked i = true := by
  rcases ht.marks hi with hi | ⟨-, hnone, -⟩
  · exact hi
  · cases hnone

end

theorem attempts (ht : Trial script? h args e r e' new) {a : Attempt} (ha : a ∈ new) :
    new = [a] ∧ a = ⟨h, args, r⟩ ∧ h.template? script? ≠ none ∧ e.isMarked h.id = false := by
  cases ht with
  | other | aside | wrong => exact absurd ha not_mem_nil
  | exceeded hm hmark =>
    obtain rfl := mem_singleton.mp ha
    exact ⟨rfl, rfl, by rw [hm]; exact nofun, hmark⟩
  | expanded hm hmark =>
    obtain rfl := mem_singleton.mp ha
    exact ⟨rfl, rfl, by rw [hm]; exact nofun, hmark⟩

theorem nodup (ht : Trial script? h args e r e' new) : (new.map fun a => a.head.id).Nodup := by
  cases new with
  | nil => exact nodup_nil
  | cons =>
    rw [(ht.attempts mem_cons_self).1]
    exact nodup_singleton _

end Trial

/-! ## 3. The answers of hooks -/

/-- What can become of a value, which is tried until it is no call of a macro that can be
expanded. -/
inductive Trials (script? : ScriptId → Option Script) :
    Value → Env → Value → Env → List Attempt → Prop
  | leaf (t : Tag) (l : Leaf) (e : Env) : Trials script? (.leaf t l) e (.leaf t l) e []
  | stays {t : Tag} {h : Head} {args : List Value} {e e' : Env} {new : List Attempt}
    (ht : Trial script? h args e none e' new) :
    Trials script? (.call t h args) e (.call t h args) e' new
  | turns {t : Tag} {h : Head} {args : List Value} {e e' e'' : Env} {w v' : Value}
    {new more : List Attempt} (ht : Trial script? h args e (some [w]) e' new)
    (hw : Trials script? (w.withTag t) e' v' e'' more) :
    Trials script? (.call t h args) e v' e'' (new ++ more)
  | blocks {t : Tag} {h : Head} {args vs : List Value} {e e' : Env} {new : List Attempt}
    (ht : Trial script? h args e (some vs) e' new) :
    Trials script? (.call t h args) e (.call t h.becomeBegin vs) e' new

/-- Expanding a value is a chain of trials.  By the recursion of the expansion: each macro call that
is found turns into another value, until one stays or becomes a block. -/
theorem expandValue_trials (view : View) (v : Value) (e : Env) :
    Trials view.script? v e (expandValue view v e).1 (expandValue view v e).2
      (attemptsValue view v e) := by
  fun_induction expandValue view v e with
  | case1 e t l =>
    rw [attemptsValue]
    exact .leaf t l e
  | case2 e t h args e' hx =>
    have ht := expand?_trial view h args e
    rw [hx] at ht
    have hnew : attemptsValue view (.call t h args) e = attempt view h args e := by
      rw [attemptsValue]
      split <;> simp_all
    rw [hnew]
    exact .stays ht
  | case3 e t h args w e' hx ih =>
    have ht := expand?_trial view h args e
    rw [hx] at ht
    have hnew : attemptsValue view (.call t h args) e =
        attempt view h args e ++ attemptsValue view (w.withTag t) e' := by
      rw [attemptsValue]
      split <;> simp_all
    rw [hnew]
    exact .turns ht ih
  | case4 e t h args vs e' hmany hx =>
    have ht := expand?_trial view h args e
    rw [hx] at ht
    have hnew : attemptsValue view (.call t h args) e = attempt view h args e := by
      rw [attemptsValue]
      split
      · rfl
      · next w _ hx' =>
        rw [hx] at hx'
        exact absurd (Option.some.inj (Prod.mk.inj hx').1) (hmany w)
      · rfl
    rw [hnew]
    exact .blocks ht

/-- What the walk can rely on when the value `v` is replaced by the values `vs`, the calls `new` are
tried and the state `e` becomes `e'`. -/
structure Reply (script? : ScriptId → Option Script) (v : Value) (e : Env) (vs : List Value)
    (e' : Env) (new : List Attempt) : Prop where
  later : Later e e'
  /-- Only a call that stays is set aside. -/
  marks : ∀ i, e'.isMarked i = true → e.isMarked i = true ∨ ∃ t h args, vs = [.call t h args] ∧
    i = h.id ∧ ∀ m, h.template? script? = some m → args.length = m.params.length →
      e'.budget.exhausted = true
  /-- Calls of macros that are put in are new. -/
  fresh : vs = [v] ∨ ∀ h args, .call h args ∈ nodesAll vs →
    e.nextNode ≤ h.id ∨ h.template? script? = none
  ids : (new.map fun a => a.head.id).Nodup
  known : ∀ a ∈ new, a.head.id < e'.nextNode
  /-- The calls that are tried are the value itself and new ones. -/
  tried : ∀ a ∈ new, e.nextNode ≤ a.head.id ∨ (∃ t args, v = .call t a.head args) ∧
    a.head.template? script? ≠ none ∧ e.isMarked a.head.id = false
  /-- A call that was tried is no call of a macro any more, or it is set aside. -/
  gone : ∀ a ∈ new, e'.isMarked a.head.id = true ∨ ∀ h args, .call h args ∈ nodesAll vs →
    h.id = a.head.id → h.template? script? = none

namespace Reply

variable {script? : ScriptId → Option Script} {v : Value} {e e' : Env}

theorem congr {script?' : ScriptId → Option Script} {vs : List Value} {new : List Attempt}
    (hr : Reply script? v e vs e' new)
    (hsame : ∀ h : Head, h.template? script? = h.template? script?') :
    Reply script?' v e vs e' new :=
  ⟨hr.later, by simpa only [hsame] using hr.marks, by simpa only [hsame] using hr.fresh, hr.ids,
    hr.known, by simpa only [hsame] using hr.tried, by simpa only [hsame] using hr.gone⟩

theorem refl (v : Value) (e : Env) : Reply script? v e [v] e [] where
  later := .refl e
  marks _ hi := .inl hi
  fresh := .inl rfl
  ids := nodup_nil
  known _ ha := absurd ha not_mem_nil
  tried _ ha := absurd ha not_mem_nil
  gone _ ha := absurd ha not_mem_nil

variable {t : Tag} {h : Head} {args vs : List Value} {new : List Attempt}

theorem id_mem_numbers (hmem : Node.call h args ∈ nodesAll vs) : h.id ∈ Value.numbers vs :=
  mem_map.mpr ⟨_, hmem, rfl⟩

/-- A call stays. -/
theorem of_none (ht : Trial script? h args e none e' new) (hid : h.id < e.nextNode) :
    Reply script? (.call t h args) e [.call t h args] e' new where
  later := ht.later
  marks i hi := (ht.marks hi).imp_right fun ⟨heq, _, hx⟩ => ⟨t, h, args, rfl, heq, hx⟩
  fresh := .inl rfl
  ids := ht.nodup
  known a ha := by
    obtain ⟨-, rfl, -⟩ := ht.attempts ha
    exact Nat.lt_of_lt_of_le hid ht.later.nextNode
  tried a ha := by
    obtain ⟨-, rfl, hm, hmark⟩ := ht.attempts ha
    exact .inr ⟨⟨t, args, rfl⟩, hm, hmark⟩
  gone a ha := by
    obtain ⟨-, rfl, hm, -⟩ := ht.attempts ha
    exact .inl (ht.isMarked_of_none hm)

/-- A call is replaced by the values that it is expanded to. -/
theorem of_some (ht : Trial script? h args e (some vs) e' new) (hid : h.id < e.nextNode) :
    Reply script? (.call t h args) e vs e' new where
  later := ht.later
  marks _ hi := .inl (ht.isMarked_of_some hi)
  fresh := .inr fun _ _ hmem => .inl (ht.nextNode_le (id_mem_numbers hmem))
  ids := ht.nodup
  known a ha := by
    obtain ⟨-, rfl, -⟩ := ht.attempts ha
    exact Nat.lt_of_lt_of_le hid ht.later.nextNode
  tried a ha := by
    obtain ⟨-, rfl, hm, hmark⟩ := ht.attempts ha
    exact .inr ⟨⟨t, args, rfl⟩, hm, hmark⟩
  gone a ha := by
    obtain ⟨-, rfl, -⟩ := ht.attempts ha
    refine .inr fun h' args' hmem heq => ?_
    have hle := ht.nextNode_le (id_mem_numbers hmem)
    rw [heq] at hle
    exact absurd hid (Nat.not_lt.mpr hle)

/-- The values that a call is expanded to become a block. -/
theorem of_block (ht : Trial script? h args e (some vs) e' new) (hid : h.id < e.nextNode) :
    Reply script? (.call t h args) e [.call t h.becomeBegin vs] e' new := by
  have hreply := of_some (t := t) ht hid
  have hcalls : ∀ h' args', .call h' args' ∈ nodesAll [.call t h.becomeBegin vs] →
      h'.template? script? = none ∨ .call h' args' ∈ nodesAll vs := by
    intro h' args' hmem
    simp only [nodesAll, nodes, append_nil, mem_cons, reduceCtorEq,
      false_or] at hmem
    rcases hmem with heq | hmem
    · obtain ⟨rfl, -⟩ := Node.call.inj heq
      exact .inl rfl
    · exact .inr hmem
  refine ⟨hreply.later, fun i hi => .inl (ht.isMarked_of_some hi), .inr fun h' args' hmem => ?_,
    hreply.ids, hreply.known, hreply.tried, fun a ha => ?_⟩
  · rcases hcalls h' args' hmem with hnone | hmem
    · exact .inr hnone
    · exact .inl (ht.nextNode_le (id_mem_numbers hmem))
  · refine (hreply.gone a ha).imp_right fun hgone h' args' hmem heq => ?_
    rcases hcalls h' args' hmem with hnone | hmem
    · exact hnone
    · exact hgone h' args' hmem heq

/-- A value is expanded once, and what comes out of it is tried in turn. -/
theorem of_turn {w v' : Value} {e'' : Env} {more : List Attempt}
    (ht : Trial script? h args e (some [w]) e' new) (hid : h.id < e.nextNode)
    (hw : Reply script? (w.withTag t) e' [v'] e'' more) :
    Reply script? (.call t h args) e [v'] e'' (new ++ more) := by
  have hreply := of_some (t := t) ht hid
  -- the calls in the value that is tried next are those that were put in
  have hcalls : ∀ h' args', .call h' args' ∈ nodesAll [w.withTag t] → e.nextNode ≤ h'.id := by
    intro h' args' hmem
    have hmem' : Node.call h' args' ∈ nodesAll [w] := by
      cases w with
      | leaf => simp [withTag, nodesAll, nodes] at hmem
      | call => simpa [withTag, nodesAll, nodes] using hmem
    exact ht.nextNode_le (id_mem_numbers hmem')
  have hfresh : ∀ h' args', .call h' args' ∈ nodesAll [v'] →
      e.nextNode ≤ h'.id ∨ h'.template? script? = none := by
    intro h' args' hmem
    rcases hw.fresh with heq | hnew
    · exact .inl (hcalls h' args' (heq ▸ hmem))
    · exact (hnew h' args' hmem).imp_left (Nat.le_trans ht.later.nextNode)
  -- what is tried later is new
  have hmore : ∀ a ∈ more, e.nextNode ≤ a.head.id := by
    intro a ha
    rcases hw.tried a ha with hle | ⟨⟨t', args', heq⟩, -⟩
    · exact Nat.le_trans ht.later.nextNode hle
    · refine hcalls a.head args' ?_
      rw [heq]
      simp [nodesAll, nodes]
  refine ⟨ht.later.trans hw.later, fun i hi => ?_, .inr hfresh, ?_, fun a ha => ?_, fun a ha => ?_,
    fun a ha => ?_⟩
  · exact (hw.marks i hi).imp_left ht.isMarked_of_some
  · rw [map_append]
    refine nodup_append.mpr ⟨hreply.ids, hw.ids, fun i hi j hj heq => ?_⟩
    obtain ⟨a, ha, rfl⟩ := mem_map.mp hi
    obtain ⟨b, hb, rfl⟩ := mem_map.mp hj
    obtain ⟨-, rfl, -⟩ := ht.attempts ha
    exact absurd hid (Nat.not_lt.mpr (heq ▸ hmore b hb))
  · rcases mem_append.mp ha with ha | ha
    · exact Nat.lt_of_lt_of_le (hreply.known a ha) hw.later.nextNode
    · exact hw.known a ha
  · rcases mem_append.mp ha with ha | ha
    · exact hreply.tried a ha
    · exact .inl (hmore a ha)
  · rcases mem_append.mp ha with ha | ha
    · obtain ⟨-, rfl, -⟩ := ht.attempts ha
      refine .inr fun h' args' hmem heq => (hfresh h' args' hmem).resolve_left fun hle => ?_
      exact absurd hid (Nat.not_lt.mpr (heq ▸ hle))
    · exact hw.gone a ha

end Reply

/-- **What trying a value leads to.** -/
theorem Trials.reply {script? : ScriptId → Option Script} {v v' : Value} {e e' : Env}
    {new : List Attempt} (ht : Trials script? v e v' e' new)
    (hv : ∀ i ∈ Value.numbers [v], i < e.nextNode) : Reply script? v e [v'] e' new := by
  induction ht with
  | leaf => exact .refl _ _
  | @stays t h args e e' new ht => exact .of_none ht (hv h.id (by simp [numbers_call]))
  | @blocks t h args vs e e' new ht => exact .of_block ht (hv h.id (by simp [numbers_call]))
  | @turns t h args e e' e'' w v' new more ht hw ih =>
    refine .of_turn ht (hv h.id (by simp [numbers_call])) (ih fun i hi => ?_)
    -- the value keeps its number, and all others are new
    obtain ⟨inner, hold, hnew⟩ := Value.exists_numbers_withTag w t
    rw [hnew] at hi
    rcases mem_cons.mp hi with rfl | hi
    · exact Nat.lt_of_lt_of_le (hv t.id (by simp [numbers_call])) ht.later.nextNode
    · exact ht.numbers.below (fun _ hi => absurd hi not_mem_nil) i
        (hold ▸ mem_cons_of_mem _ hi)

theorem Trials.isMarked {script? : ScriptId → Option Script} {v v' : Value} {e e' : Env}
    {new : List Attempt} (ht : Trials script? v e v' e' new) {t : Tag} {h : Head}
    (hroot : v'.root = .call t h) (hm : h.template? script? ≠ none) : e'.isMarked h.id = true := by
  induction ht with
  | leaf => cases hroot
  | stays ht =>
    cases hroot
    exact ht.isMarked_of_none hm
  | turns _ _ ih => exact ih hroot
  | blocks =>
    cases hroot
    exact absurd rfl hm

/-- What the hook for elements leads to. -/
theorem expandElement_reply (view : View) (place : Place) (v : Value) (e : Env)
    (hv : ∀ i ∈ Value.numbers [v], i < e.nextNode) :
    Reply view.script? v e (expandElement view place v e).1.values (expandElement view place v e).2
      (attemptsElement view place v e) := by
  unfold expandElement attemptsElement
  cases v with
  | leaf => exact .refl _ _
  | call t h args =>
    have hid : h.id < e.nextNode := hv h.id (by simp [numbers_call])
    have ht := expand?_trial view h args e
    dsimp only
    split
    · rcases hx : expand? view h args e with ⟨_ | vs, e'⟩
      · rw [hx] at ht
        exact .of_none ht hid
      · rw [hx] at ht
        exact .of_some ht hid
    · exact .refl _ _

theorem length_expandElement (view : View) (place : Place) (v : Value) (e : Env) :
    (expandElement view place v e).1.values.length = 1 ∨ place.owner.takesStatements = true := by
  unfold expandElement
  split
  · exact .inl rfl
  · split
    · next hstatements => exact .inr hstatements
    · exact .inl rfl

end Macros

end HaloScript
