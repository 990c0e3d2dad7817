/-
# Loop unrolling

`(loop counter start end body...)` is replaced by one copy of the body for each whole number
from `start` up to but not including `end`, the counter being replaced by the number.  The
bounds have to be constants that coerce to longs.  In a list of statements the copies take the
place of the loop; elsewhere the loop becomes a `begin`.  The last statement of a script is
never removed: an empty loop leaves an empty `begin` there.

The price of a loop is the number of its steps times the length of its body, an empty body
counting as one.  The price is computed in machine words that saturate one past the limit of
the budget, because the distance between two longs need not be a long.
-/
import HaloScript.Lowering.Env

namespace HaloScript

namespace Loops

def isLoop (h : Head) : Bool := h.isCallOf "loop"

/-- The price of a loop, at most one more than the limit. -/
def price (limit start stop : Int64) (bodyLength : Nat) : UInt64 :=
  let cap := limit.toUInt64 + 1
  let width := min (stop.toUInt64 - start.toUInt64) cap
  let perStep := UInt64.ofNatClamp (max bodyLength 1)
  if width ≤ cap / perStep then width * perStep else cap

theorem toNat_toUInt64 (x : Int64) :
    (x.toUInt64.toNat : Int) = x.toInt % 18446744073709551616 := by
  have hbits := x.toBitVec.isLt
  show (x.toBitVec.toNat : Int) = x.toBitVec.toInt % 18446744073709551616
  rw [BitVec.toInt_eq_toNat_cond]
  split <;> omega

theorem toNat_width {start stop : Int64} (h : start < stop) :
    (stop.toUInt64 - start.toUInt64).toNat = (stop.toInt - start.toInt).toNat := by
  have hlt := Int64.lt_iff_toInt_lt.mp h
  have hstart := toNat_toUInt64 start
  have hstop := toNat_toUInt64 stop
  have h1 := start.le_toInt
  have h2 := stop.toInt_lt
  rw [UInt64.toNat_sub]
  omega

theorem toNat_cap {limit : Int64} (h : 0 < limit) :
    (limit.toUInt64 + 1).toNat = limit.toInt.toNat + 1 := by
  have hlt : 0 < limit.toInt := Int64.lt_iff_toInt_lt.mp h
  have hword := toNat_toUInt64 limit
  have hbelow := limit.toInt_lt
  rw [UInt64.toNat_add, UInt64.toNat_one]
  omega

/-- A product that has been compared by division does not overflow. -/
theorem toNat_saturated {width perStep cap : UInt64} (hpos : 0 < perStep.toNat) :
    (if width ≤ cap / perStep then width * perStep else cap).toNat =
      min (width.toNat * perStep.toNat) cap.toNat := by
  have hcap := cap.toNat_lt
  have hiff : width ≤ cap / perStep ↔ width.toNat * perStep.toNat ≤ cap.toNat := by
    rw [UInt64.le_iff_toNat_le, UInt64.toNat_div, Nat.le_div_iff_mul_le hpos]
  split
  · next h =>
    have hle := hiff.mp h
    rw [UInt64.toNat_mul, Nat.mod_eq_of_lt (by omega), Nat.min_eq_left hle]
  · next h =>
    have hgt : ¬ width.toNat * perStep.toNat ≤ cap.toNat := fun hle => h (hiff.mpr hle)
    rw [Nat.min_eq_right (Nat.le_of_not_le hgt)]

theorem perStep_pos (bodyLength : Nat) : 0 < (UInt64.ofNatClamp (max bodyLength 1)).toNat := by
  have hsize : UInt64.size = 2 ^ 64 := rfl
  by_cases hb : max bodyLength 1 < UInt64.size
  · rw [UInt64.toNat_ofNatClamp_of_lt hb]
    omega
  · rw [UInt64.toNat_ofNatClamp_of_le (Nat.le_of_not_lt hb)]
    omega

/-- No loop that is gone through is for free. -/
theorem price_ne_zero {limit start stop : Int64} (hlimit : 0 < limit) (h : start < stop)
    (bodyLength : Nat) : (price limit start stop bodyLength).toInt64 ≠ 0 := by
  have hlt := Int64.lt_iff_toInt_lt.mp h
  have hcap := toNat_cap hlimit
  have hwidth : 0 < (min (stop.toUInt64 - start.toUInt64) (limit.toUInt64 + 1)).toNat := by
    show 0 < (if _ then _ else _ : UInt64).toNat
    split
    · rw [toNat_width h]
      omega
    · omega
  have hpos : 0 < (price limit start stop bodyLength).toNat := by
    rw [price, toNat_saturated (perStep_pos bodyLength)]
    exact Nat.lt_min.mpr ⟨Nat.mul_pos hwidth (perStep_pos bodyLength), by omega⟩
  intro hzero
  have hprice : price limit start stop bodyLength = 0 := congrArg Int64.toUInt64 hzero
  rw [hprice] at hpos
  exact absurd hpos (by decide)

/-- A number below another one has a successor. -/
theorem toInt_succ {i stop : Int64} (h : i < stop) : (i + 1).toInt = i.toInt + 1 := by
  have h1 := Int64.lt_iff_toInt_lt.mp h
  have h2 := stop.toInt_lt
  have h3 := i.le_toInt
  rw [Int64.toInt_add, Int64.toInt_one, Int.bmod_eq_of_le] <;> omega

/-- The copy of a loop's body for one value of the counter. -/
def copyFor (counter : Value) (body : List Value) (i : Int64) : Supply (List Value) := do
  let number ← Value.newLeaf (.atom (Text.ofInt i.toInt))
  Value.instantiateAll ((Substitution.add? {} counter number).getD {}) body

/-- The copies of a loop's body from the value `i` of the counter on, after those that are done;
of these the last comes first. -/
def copiesFrom (counter : Value) (body : List Value) (stop i : Int64) (done : List (List Value)) :
    Supply (List Value) := do
  if h : i < stop then
    let next ← copyFor counter body i
    copiesFrom counter body stop (i + 1) (next :: done)
  else return done.reverse.flatten
termination_by (stop.toInt - i.toInt).toNat
decreasing_by
  have hlt := Int64.lt_iff_toInt_lt.mp h
  rw [toInt_succ h]
  omega

def copies (counter : Value) (body : List Value) (start stop : Int64) : Supply (List Value) :=
  copiesFrom counter body stop start []

def bound? (view : View) (name : Text) (v : Value) (e : Env) : Option Int64 × Env :=
  let (value, e) := e.eval (view.scene.evalValue v)
  match value with
  | none => (none, e.tellNode .error v.span ("unable to evaluate " ++ name ++ " value for loop!"))
  | some c =>
    match c.toLong? with
    | none =>
      (none, e.tellNode .error v.span
        ("unable to evaluate loop " ++ name ++ " value as a long!"))
    | some n => (some n, e)

/-- The copies of the body of the loop with these arguments, or a complaint. -/
def tryUnroll (view : View) (h : Head) (args : List Value) (e : Env) : Option (List Value) × Env :=
  match args with
  | counter :: low :: high :: body =>
    match bound? view "start" low e with
    | (none, e) => (none, e)
    | (some start, e) =>
      match bound? view "end" high e with
      | (none, e) => (none, e)
      | (some stop, e) =>
        if stop ≤ start then (some [], e)
        else match e.spend (price e.budget.limit start stop body.length).toInt64 h.span with
          | (false, e) => (none, e)
          | (true, e) =>
            let (vs, e) := e.supply (copies counter body start stop)
            (some vs, e)
  | _ =>
    (none, e.tellNode .error h.span <|
      "invalid loop expression, expecting (loop <counter> <start value> <end value> " ++
        "[expressions])")

/-- The copies of the body, if the call is a loop that can be unrolled.  A loop that cannot be
is not tried again. -/
def unroll? (view : View) (h : Head) (args : List Value) (e : Env) : Option (List Value) × Env :=
  if !isLoop h || e.isMarked h.id then (none, e)
  else match tryUnroll view h args e with
    | (some vs, e) => (some vs, e)
    | (none, e) => (none, e.mark h.id)

/-! ## What unrolling does to the potential -/

theorem bound?_potential (view : View) (name : Text) (v : Value) (e : Env) :
    (bound? view name v e).2.potential = e.potential := by
  unfold bound?
  dsimp only
  split
  · simp
  · split <;> simp

/-- Unrolling uses up potential, fails, or leaves nothing. -/
theorem tryUnroll_potential (view : View) (h : Head) (args : List Value) (e : Env) :
    (tryUnroll view h args e).2.potential < e.potential ∨
      ((tryUnroll view h args e).2.potential ≤ e.potential ∧
        ∀ vs, (tryUnroll view h args e).1 = some vs → vs = [] ∧ args ≠ []) := by
  unfold tryUnroll
  split
  · next counter low high body =>
    have hstart := bound?_potential view "start" low e
    split
    · next e₁ h₁ =>
      rw [h₁] at hstart
      exact .inr ⟨Nat.le_of_eq hstart, by simp⟩
    · next start e₁ h₁ =>
      rw [h₁] at hstart
      have hstop := bound?_potential view "end" high e₁
      split
      · next e₂ h₂ =>
        rw [h₂] at hstop
        exact .inr ⟨Nat.le_of_eq (hstop.trans hstart), by simp⟩
      · next stop e₂ h₂ =>
        rw [h₂] at hstop
        have heq : e₂.potential = e.potential := hstop.trans hstart
        split
        · exact .inr ⟨Nat.le_of_eq heq, by simp⟩
        · next hlt =>
          split
          · next e₃ h₃ =>
            have hle := Env.potential_spend_le e₂
              (price e₂.budget.limit start stop body.length).toInt64 h.span
            rw [h₃] at hle
            exact .inr ⟨heq ▸ hle, by simp⟩
          · next e₃ h₃ =>
            have hpaid := Env.potential_spend_of_true e₂ (price_ne_zero e₂.budget.limit_pos
              (Int64.not_le.mp hlt) body.length) h.span (by rw [h₃])
            rw [h₃] at hpaid
            exact .inl (by simpa [← heq] using hpaid)
  · exact .inr ⟨by simp, by simp⟩

theorem unroll?_potential (view : View) (h : Head) (args : List Value) (e : Env) :
    (unroll? view h args e).2.potential < e.potential ∨
      ((unroll? view h args e).2.potential ≤ e.potential ∧
        ∀ vs, (unroll? view h args e).1 = some vs → vs = [] ∧ args ≠ []) := by
  unfold unroll?
  split
  · exact .inr ⟨Nat.le_refl _, by simp⟩
  · have htry := tryUnroll_potential view h args e
    split
    · next vs e' hx => rw [hx] at htry; exact htry
    · next e' hx =>
      rw [hx] at htry
      rcases htry with hlt | ⟨hle, -⟩
      · exact .inl hlt
      · exact .inr ⟨hle, by simp⟩

/-! ## The edits -/

def unrollElement (view : View) (place : Place) (v : Value) (e : Env) : Offer × Env :=
  match v with
  | .leaf t l => (.keep (.leaf t l) [], e)
  | .call t h args =>
    if place.owner.takesStatements then
      match unroll? view h args e with
      | (none, e) => (.keep (.call t h args) [], e)
      | (some vs, e) =>
        if vs.isEmpty && place.owner.isBody && !place.hasPrevious && !place.hasNext then
          (.keep (.call t h.becomeBegin []) [], e)
        else (.drop vs, e)
    else (.keep (.call t h args) [], e)

/-- Unrolls a loop that stands anywhere else. -/
def unrollValue (view : View) (v : Value) (e : Env) : Value × Env :=
  match v with
  | .leaf t l => (.leaf t l, e)
  | .call t h args =>
    match unroll? view h args e with
    | (none, e) => (.call t h args, e)
    | (some vs, e) => (.call t h.becomeBegin vs, e)

/-- An element that is unrolled uses up potential, or what is left of it is no larger than it was.
So a walk cannot go on for ever, though loops are copied into the list being walked. -/
theorem unrollElement_potential (view : View) (place : Place) (v : Value) (e : Env) :
    (unrollElement view place v e).2.potential < e.potential ∨
      ((unrollElement view place v e).2.potential ≤ e.potential ∧
        (unrollElement view place v e).1.size ≤ v.nodeCount) := by
  unfold unrollElement
  split
  · exact .inr ⟨Nat.le_refl _, by simp [Offer.size, Value.nodeCountAll]⟩
  · next t h args =>
    split
    · have hu := unroll?_potential view h args e
      split
      · next e' hx =>
        rw [hx] at hu
        rcases hu with hlt | ⟨hle, -⟩
        · exact .inl hlt
        · exact .inr ⟨hle, by simp [Offer.size, Value.nodeCountAll]⟩
      · next vs e' hx =>
        rw [hx] at hu
        rcases hu with hlt | ⟨hle, hnil⟩
        · split
          · exact .inl hlt
          · exact .inl hlt
        · obtain ⟨rfl, -⟩ := hnil vs rfl
          split
          · exact .inr ⟨hle, by simp [Offer.size, Value.nodeCount, Value.nodeCountAll]⟩
          · exact .inr ⟨hle, by simp [Offer.size, Value.nodeCount, Value.nodeCountAll]⟩
    · exact .inr ⟨Nat.le_refl _, by simp [Offer.size, Value.nodeCountAll]⟩

/-- The same for a loop in value position, where the copies become a block. -/
theorem unrollValue_potential (view : View) (v : Value) (e : Env) :
    (unrollValue view v e).2.potential < e.potential ∨
      ((unrollValue view v e).2.potential ≤ e.potential ∧
        (unrollValue view v e).1.nodeCount ≤ v.nodeCount) := by
  unfold unrollValue
  split
  · exact .inr ⟨Nat.le_refl _, Nat.le_refl _⟩
  · next t h args =>
    have hu := unroll?_potential view h args e
    split
    · next e' hx =>
      rw [hx] at hu
      rcases hu with hlt | ⟨hle, -⟩
      · exact .inl hlt
      · exact .inr ⟨hle, Nat.le_refl _⟩
    · next vs e' hx =>
      rw [hx] at hu
      rcases hu with hlt | ⟨hle, hnil⟩
      · exact .inl hlt
      · obtain ⟨rfl, -⟩ := hnil vs rfl
        exact .inr ⟨hle, by simp [Value.nodeCount, Value.nodeCountAll]⟩

def hooks : Hooks Env :=
  { Env.idle with
    onElement := unrollElement
    onValue := unrollValue
    onElement_lt := unrollElement_potential
    onValue_lt := unrollValue_potential }

end Loops

end HaloScript
