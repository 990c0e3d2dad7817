/-
# Constant folding

Calls with a constant value are replaced by a literal.  A `begin` of one value is replaced by
that value, and an `if` with a known condition by the branch that is taken.

A statement of a script other than the last has to stay a call.  One that is constant does
nothing and is dropped, and so is an `if` without an `else` whose condition is false; but the
only statement of a script is never dropped.
-/
import HaloScript.Lowering.Env

namespace HaloScript

namespace Folding

def literal? (view : View) (h : Head) (args : List Value) (e : Env) : Option Text × Env :=
  let (value, e) := e.eval (view.scene.evalCall h args)
  (value.bind Const.literal?, e)

/-- The condition of an `if` with one or two branches, if its truth is known. -/
def condition? (view : View) (h : Head) (args : List Value) (e : Env) : Option Bool × Env :=
  match args with
  | test :: _ =>
    if h.isCallOf "if" && (args.length == 2 || args.length == 3) then
      let (value, e) := e.eval (view.scene.evalValue test)
      (value.bind Const.toBool?, e)
    else (none, e)
  | [] => (none, e)

/-- The only argument of a `begin`. -/
def onlyArgument? (h : Head) : List Value → Option Value
  | [v] => if h.isCallOf "begin" then some v else none
  | _ => none

/-- The value a call can be replaced by: the only argument of a `begin`, or the branch of an
`if` that is taken. -/
def simplify? (view : View) (h : Head) (args : List Value) (e : Env) : Option Value × Env :=
  match onlyArgument? h args with
  | some v => (some v, e)
  | none =>
    match condition? view h args e with
    | (none, e) => (none, e)
    | (some true, e) => (args[1]?, e)
    | (some false, e) => (args[2]?, e)

theorem nodeCount_lt_of_mem {v : Value} {args : List Value} (hv : v ∈ args) :
    v.nodeCount ≤ Value.nodeCountAll args := by
  induction args with
  | nil => simp at hv
  | cons a rest ih =>
    simp only [Value.nodeCountAll]
    rcases List.mem_cons.mp hv with rfl | hv
    · omega
    · have := ih hv; omega

theorem condition?_potential (view : View) (h : Head) (args : List Value) (e : Env) :
    (condition? view h args e).2.potential = e.potential := by
  unfold condition?
  split
  · split <;> rfl
  · rfl

theorem mem_of_onlyArgument? {h : Head} {args : List Value} {v : Value}
    (hv : onlyArgument? h args = some v) : v ∈ args := by
  unfold onlyArgument? at hv
  split at hv
  · split at hv
    · cases hv; simp
    · exact absurd hv (by simp)
  · exact absurd hv (by simp)

theorem simplify?_spec {view : View} {h : Head} {args : List Value} {e e' : Env}
    {r : Option Value} (hx : simplify? view h args e = (r, e')) :
    e'.potential = e.potential ∧ ∀ v, r = some v → v ∈ args := by
  unfold simplify? at hx
  split at hx
  · next ho => cases hx; exact ⟨rfl, fun v hv => by cases hv; exact mem_of_onlyArgument? ho⟩
  · have hc := condition?_potential view h args e
    split at hx
    · next hq => rw [hq] at hc; cases hx; exact ⟨hc, by simp⟩
    · next hq => rw [hq] at hc; cases hx; exact ⟨hc, fun v hv => List.mem_of_getElem? hv⟩
    · next hq => rw [hq] at hc; cases hx; exact ⟨hc, fun v hv => List.mem_of_getElem? hv⟩

def isCall : Value → Bool
  | .call _ _ _ => true
  | .leaf _ _ => false

/-- Simplifies a value as long as that is possible.  A value that has to stay a call is not
replaced by anything else. -/
def simplifyValue (view : View) (v : Value) (e : Env) : Value × Env :=
  match v with
  | .leaf t l => (.leaf t l, e)
  | .call t h args =>
    match _hx : simplify? view h args e with
    | (none, e') => (.call t h args, e')
    | (some w, e') =>
      if !isCall w && e'.isMarked t.id then (.call t h args, e')
      else simplifyValue view (w.withTag t) e'
termination_by v.nodeCount
decreasing_by
  have := nodeCount_lt_of_mem ((simplify?_spec _hx).2 w rfl)
  cases w <;> simp only [Value.withTag, Value.nodeCount] at this ⊢ <;> omega

theorem simplifyValue_spec (view : View) (v : Value) (e : Env) :
    (simplifyValue view v e).2.potential = e.potential ∧
      (simplifyValue view v e).1.nodeCount ≤ v.nodeCount := by
  fun_induction simplifyValue view v e with
  | case1 e t l => exact ⟨rfl, Nat.le_refl _⟩
  | case2 e t h args e' hx => exact ⟨(simplify?_spec hx).1, Nat.le_refl _⟩
  | case3 e t h args w e' hx hm => exact ⟨(simplify?_spec hx).1, Nat.le_refl _⟩
  | case4 e t h args w e' hx hm ih =>
    have hmem := nodeCount_lt_of_mem ((simplify?_spec hx).2 w rfl)
    have hw : (w.withTag t).nodeCount = w.nodeCount := by
      cases w <;> simp [Value.withTag, Value.nodeCount]
    refine ⟨ih.1.trans (simplify?_spec hx).1, ?_⟩
    have hle := ih.2
    simp only [Value.nodeCount]
    omega

def foldValue (view : View) (v : Value) (e : Env) : Value × Env :=
  match v with
  | .leaf t l => (.leaf t l, e)
  | .call t h args =>
    match literal? view h args e with
    | (some text, e) =>
      if e.isMarked t.id then (.call t h args, e) else (.leaf t (.atom text), e)
    | (none, e) => simplifyValue view (.call t h args) e

theorem foldValue_spec (view : View) (v : Value) (e : Env) :
    (foldValue view v e).2.potential = e.potential ∧
      (foldValue view v e).1.nodeCount ≤ v.nodeCount := by
  unfold foldValue
  split
  · exact ⟨rfl, Nat.le_refl _⟩
  · next t h args =>
    split
    · next text e' hx =>
      have hp : e'.potential = e.potential := congrArg (fun r => r.2.potential) hx.symm
      split
      · exact ⟨hp, Nat.le_refl _⟩
      · exact ⟨hp, by simp [Value.nodeCount]⟩
    · next e' hx =>
      have hp : e'.potential = e.potential := congrArg (fun r => r.2.potential) hx.symm
      have hs := simplifyValue_spec view (.call t h args) e'
      exact ⟨hs.1.trans hp, hs.2⟩

/-- Whether an element is a statement of a script and not its last. -/
def isInnerStatement (place : Place) : Bool := place.owner.isBody && place.hasNext

def isOnlyStatement (place : Place) : Bool :=
  place.owner.isBody && !place.hasPrevious && !place.hasNext

/-- An `if` without an `else` in a list of statements, dropped if its condition is false. -/
def foldConditional (view : View) (place : Place) (t : Tag) (h : Head) (args : List Value)
    (e : Env) : Offer × Env :=
  match condition? view h args e with
  | (some false, e) =>
    if args.length == 2 then
      if isOnlyStatement place then (.keep (.call t h.becomeBegin []) [], e) else (.drop [], e)
    else (.keep (.call t h args) [], e)
  | (_, e) => (.keep (.call t h args) [], e)

/-- A call in a list of statements, dropped if it does nothing. -/
def foldElement (view : View) (place : Place) (v : Value) (e : Env) : Offer × Env :=
  match v with
  | .leaf t l => (.keep (.leaf t l) [], e)
  | .call t h args =>
    if place.owner.takesStatements then
      if isInnerStatement place then
        match literal? view h args e with
        | (some _, e) => (.drop [], e)
        | (none, e) => foldConditional view place t h args (e.mark t.id)
      else foldConditional view place t h args e
    else (.keep (.call t h args) [], e)

theorem foldConditional_spec (view : View) (place : Place) (t : Tag) (h : Head)
    (args : List Value) (e : Env) :
    (foldConditional view place t h args e).2.potential = e.potential ∧
      (foldConditional view place t h args e).1.size ≤ (Value.call t h args).nodeCount := by
  have hc := condition?_potential view h args e
  unfold foldConditional
  split
  · next hq =>
    rw [hq] at hc
    split
    · split
      · exact ⟨hc, by simp [Offer.size, Value.nodeCount, Value.nodeCountAll]⟩
      · exact ⟨hc, by simp [Offer.size, Value.nodeCount, Value.nodeCountAll]⟩
    · exact ⟨hc, by simp [Offer.size, Value.nodeCountAll]⟩
  · next hq =>
    rw [hq] at hc
    exact ⟨hc, by simp [Offer.size, Value.nodeCountAll]⟩

/-- Folding spends no potential and makes no element larger. -/
theorem foldElement_spec (view : View) (place : Place) (v : Value) (e : Env) :
    (foldElement view place v e).2.potential = e.potential ∧
      (foldElement view place v e).1.size ≤ v.nodeCount := by
  unfold foldElement
  split
  · exact ⟨rfl, by simp [Offer.size, Value.nodeCountAll]⟩
  · next t h args =>
    split
    · split
      · split
        · next text e' hx =>
          exact ⟨congrArg (fun r => r.2.potential) hx.symm,
            by simp [Offer.size, Value.nodeCount, Value.nodeCountAll]⟩
        · next e' hx =>
          have hp : e'.potential = e.potential := congrArg (fun r => r.2.potential) hx.symm
          have hs := foldConditional_spec view place t h args (e'.mark t.id)
          exact ⟨hs.1.trans hp, hs.2⟩
      · exact foldConditional_spec view place t h args e
    · exact ⟨rfl, by simp [Offer.size, Value.nodeCountAll]⟩

def hooks : Hooks Env :=
  { Env.idle with
    onElement := foldElement
    onValue := foldValue
    onElement_lt := fun view place v e =>
      .inr ⟨Nat.le_of_eq (foldElement_spec view place v e).1, (foldElement_spec view place v e).2⟩
    onValue_lt := fun view v e =>
      .inr ⟨Nat.le_of_eq (foldValue_spec view v e).1, (foldValue_spec view v e).2⟩ }

end Folding

end HaloScript
