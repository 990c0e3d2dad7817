/-
# Macro expansion

A call of a macro is replaced by the macro's body with the parameters replaced by the call's
arguments, all at once.  In a list of statements the body takes the place of the call;
elsewhere a body of one value becomes the content of the calling value, and any other body a
`begin`.  What comes out is expanded in turn.  Macros themselves are dropped, unwalked.

A call with the wrong number of arguments, or one that exceeds the budget, stays as it is and
is not tried again.
-/
import HaloScript.Lowering.Env

namespace HaloScript

namespace Macros

/-- Parameters replaced by arguments; of two parameters with one name the later counts. -/
def substitution (params : List Param) (args : List Value) : Substitution :=
  ⟨((params.zip args).map fun (p, v) => (Leaf.atom p.name, v)).reverse⟩

def wrongArgumentCount (m : Script) (got : Nat) : Text :=
  "Invalid expression: wrong number of arguments! " ++ m.id.name.quote ++ " takes " ++
    Text.ofNat m.params.length ++ ", got " ++ Text.ofNat got

/-- The expansion of a call, if it is a macro call that can be expanded. -/
def expand? (view : View) (h : Head) (args : List Value) (e : Env) : Option (List Value) × Env :=
  match h.callee with
  | .word _ _ => (none, e)
  | .script id =>
    match view.script? id with
    | none => (none, e)
    | some m =>
      if !m.isMacro || e.isMarked h.id then (none, e)
      else if args.length ≠ m.params.length then
        (none, (e.mark h.id).tellNode .error h.span (wrongArgumentCount m args.length))
      else match e.spend 1 h.span with
        | (false, e) => (none, e.mark h.id)
        | (true, e) =>
          let (vs, e) := e.supply (Value.instantiateAll (substitution m.params args) m.body)
          (some vs, e)

/-- An expansion uses up potential, and a failure adds none. -/
theorem expand?_potential (view : View) (h : Head) (args : List Value) (e : Env) :
    (expand? view h args e).2.potential < e.potential ∨
      ((expand? view h args e).1 = none ∧ (expand? view h args e).2.potential ≤ e.potential) := by
  unfold expand?
  split
  · exact .inr ⟨rfl, Nat.le_refl _⟩
  · split
    · exact .inr ⟨rfl, Nat.le_refl _⟩
    · split
      · exact .inr ⟨rfl, Nat.le_refl _⟩
      · split
        · exact .inr ⟨rfl, by simp⟩
        · split
          · next hs =>
            have := Env.potential_spend_le e 1 h.span
            rw [hs] at this
            exact .inr ⟨rfl, by simpa using this⟩
          · next hs =>
            have := Env.potential_spend_of_true e (by decide : (1 : Int64) ≠ 0) h.span (by rw [hs])
            rw [hs] at this
            exact .inl (by simpa using this)

theorem expand?_lt {view : View} {h : Head} {args : List Value} {e e' : Env} {vs : List Value}
    (hx : expand? view h args e = (some vs, e')) : e'.potential < e.potential := by
  have := expand?_potential view h args e
  rw [hx] at this
  simpa using this

theorem expand?_le {view : View} {h : Head} {args : List Value} {e e' : Env}
    {r : Option (List Value)} (hx : expand? view h args e = (r, e')) :
    e'.potential ≤ e.potential := by
  have := expand?_potential view h args e
  rw [hx] at this
  rcases this with h | ⟨-, h⟩
  · exact Nat.le_of_lt h
  · exact h

/-- Expands a value until it is no longer a macro call. -/
def expandValue (view : View) (v : Value) (e : Env) : Value × Env :=
  match v with
  | .leaf t l => (.leaf t l, e)
  | .call t h args =>
    match _hx : expand? view h args e with
    | (none, e') => (.call t h args, e')
    | (some [w], e') => expandValue view (w.withTag t) e'
    | (some vs, e') => (.call t h.becomeBegin vs, e')
termination_by e.potential
decreasing_by exact expand?_lt _hx

theorem expandValue_potential (view : View) (v : Value) (e : Env) :
    (expandValue view v e).2.potential < e.potential ∨
      ((expandValue view v e).2.potential ≤ e.potential ∧ (expandValue view v e).1 = v) := by
  fun_induction expandValue view v e with
  | case1 e t l => exact .inr ⟨Nat.le_refl _, rfl⟩
  | case2 e t h args e' hx => exact .inr ⟨expand?_le hx, rfl⟩
  | case3 e t h args w e' hx ih =>
    refine .inl ?_
    rcases ih with ih | ⟨ih, -⟩
    · exact Nat.lt_trans ih (expand?_lt hx)
    · exact Nat.lt_of_le_of_lt ih (expand?_lt hx)
  | case4 e t h args vs e' _ hx => exact .inl (expand?_lt hx)

def expandElement (view : View) (place : Place) (v : Value) (e : Env) : Offer × Env :=
  match v with
  | .leaf t l => (.keep (.leaf t l) [], e)
  | .call t h args =>
    if place.owner.takesStatements then
      match expand? view h args e with
      | (some vs, e) => (.drop vs, e)
      | (none, e) => (.keep (.call t h args) [], e)
    else (.keep (.call t h args) [], e)

theorem expandElement_potential (view : View) (place : Place) (v : Value) (e : Env) :
    (expandElement view place v e).2.potential < e.potential ∨
      ((expandElement view place v e).2.potential ≤ e.potential ∧
        (expandElement view place v e).1.size ≤ v.nodeCount) := by
  unfold expandElement
  split
  · exact .inr ⟨Nat.le_refl _, by simp [Offer.size, Value.nodeCountAll]⟩
  · split
    · split
      · next hx => exact .inl (expand?_lt hx)
      · next hx => exact .inr ⟨expand?_le hx, by simp [Offer.size, Value.nodeCountAll]⟩
    · exact .inr ⟨Nat.le_refl _, by simp [Offer.size, Value.nodeCountAll]⟩

def hooks : Hooks Env :=
  { Env.idle with
    onScript := fun s e => (s.isMacro, e)
    onElement := expandElement
    onValue := expandValue
    onScript_le := fun _ _ => Nat.le_refl _
    onElement_lt := expandElement_potential
    onValue_lt := fun view v e =>
      (expandValue_potential view v e).imp_right fun h => ⟨h.1, Nat.le_of_eq (by rw [h.2])⟩ }

end Macros

end HaloScript
