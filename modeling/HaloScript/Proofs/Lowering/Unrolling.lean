/-
# Loop unrolling is exact

A loop whose bounds are known costs the number of its steps times the length of its body, an empty
body counting as one.  The machine words in which this price is computed have room for neither the
distance between two longs nor the product, so the price saturates one past the limit of the
budget, and may be negative when it is read as a long.  None of this can be noticed: a loop is
unrolled if and only if the exact price is within the budget (`Loops.covers_price`).

What it is unrolled to is one copy of the body for each value of the counter
(`Loops.copies_index`), where the number stands for every leaf that is the counter
(`Loops.counting`).
-/
import HaloScript.Proofs.Lowering.Hygiene

namespace HaloScript

open List Option Int64 Value

/-- A budget from which nothing has been spent in vain: what is left is within the limit, and no
demand has been refused. -/
structure Budget.Open (b : Budget) : Prop where
  left : 0 ≤ b.left
  le : b.left ≤ b.limit
  exhausted : b.exhausted = false

namespace Loops

variable {start stop : Int64}

/-! ## 1. The price -/

theorem toInt_toInt64 (x : UInt64) :
    x.toInt64.toInt = if x.toNat < 2 ^ 63 then (x.toNat : Int) else x.toNat - 2 ^ 64 := by
  have hcond := BitVec.toInt_eq_toNat_cond x.toBitVec
  rw [UInt64.toNat_toBitVec] at hcond
  show x.toBitVec.toInt = _
  rw [hcond]
  split <;> split <;> omega

def cost (start stop : Int64) (body : List Value) : Nat := steps start stop * max body.length 1

theorem one_le_steps (h : start < stop) : 1 ≤ steps start stop := by
  have hlt := lt_iff_toInt_lt.mp h
  rw [steps]
  omega

/-- A body too long for a word is as good as the longest one: its price is beyond every limit. -/
theorem min_mul_clamp {width b cap : Nat} (hwidth : 1 ≤ width) (hcap : cap < UInt64.size) :
    min (width * (UInt64.ofNatClamp b).toNat) cap = min (width * b) cap := by
  by_cases hb : b < UInt64.size
  · rw [UInt64.toNat_ofNatClamp_of_lt hb]
  · have hle : ∀ c, cap ≤ c → cap ≤ width * c := fun c hc =>
      Nat.le_trans hc (Nat.le_mul_of_pos_left c hwidth)
    rw [UInt64.toNat_ofNatClamp_of_le (Nat.le_of_not_lt hb), Nat.min_eq_right (hle _ (by omega)),
      Nat.min_eq_right (hle _ (by omega))]

theorem min_mul_min {width b cap : Nat} (hb : 1 ≤ b) :
    min (min width cap * b) cap = min (width * b) cap := by
  have hmore : ∀ w, w ≤ w * b := fun w => Nat.le_mul_of_pos_right w hb
  rcases Nat.le_total width cap with hle | hge
  · rw [Nat.min_eq_left hle]
  · rw [Nat.min_eq_right hge, Nat.min_eq_right (hmore cap),
      Nat.min_eq_right (Nat.le_trans hge (hmore width))]

/-- **The price is exact, up to one past the limit.** -/
theorem toNat_price {limit start stop : Int64} (hlimit : 0 < limit) (h : start < stop)
    (body : List Value) :
    (price limit start stop body.length).toNat =
      min (cost start stop body) (limit.toInt.toNat + 1) := by
  have hbelow := limit.toInt_lt
  have hsteps := one_le_steps h
  have hsize : UInt64.size = 2 ^ 64 := rfl
  rw [price, toNat_saturated (perStep_pos body.length), UInt64.toNat_min, toNat_width h, ← steps,
    toNat_cap hlimit, min_mul_clamp (by omega) (by omega), min_mul_min (by omega), cost]

/-- **The budget covers a loop exactly if it covers the exact price.** -/
theorem covers_price {b : Budget} (hb : b.Open) (h : start < stop) (body : List Value) :
    b.covers (price b.limit start stop body.length).toInt64 = true ↔
      (cost start stop body : Int) ≤ b.left.toInt := by
  have hprice := toNat_price b.limit_pos h body
  have hcost : 1 ≤ cost start stop body := Nat.mul_pos (one_le_steps h) (by omega)
  have hleft : 0 ≤ b.left.toInt := le_iff_toInt_le.mp hb.left
  have hle := le_iff_toInt_le.mp hb.le
  have hbelow := b.limit.toInt_lt
  have hread := toInt_toInt64 (price b.limit start stop body.length)
  rw [Budget.covers, hb.exhausted, Bool.not_false, Bool.true_and, Bool.and_eq_true_iff,
    decide_eq_true_eq, decide_eq_true_eq, le_iff_toInt_le, le_iff_toInt_le, hread]
  show 0 ≤ _ ∧ _ ↔ _
  split <;> omega

/-- What is paid is the exact price. -/
theorem toInt_price {b : Budget} (hb : b.Open) (h : start < stop) (body : List Value)
    (hcost : (cost start stop body : Int) ≤ b.left.toInt) :
    (b.left - (price b.limit start stop body.length).toInt64).toInt =
      b.left.toInt - cost start stop body := by
  have hprice := toNat_price b.limit_pos h body
  have hle := le_iff_toInt_le.mp hb.le
  have hread := toInt_toInt64 (price b.limit start stop body.length)
  have hcovers := (covers_price hb h body).mpr hcost
  simp only [Budget.covers, Bool.and_eq_true, decide_eq_true_eq] at hcovers
  rw [Env.toInt_sub_of_covers hcovers.1.2 hcovers.2, hread]
  have hbelow := b.limit.toInt_lt
  split <;> omega

/-! ## 2. The copies -/

end Loops

namespace Value

mutual

def fill (ρ : Leaf → Option Int) : Value → Value
  | .leaf t l => (ρ l).elim (.leaf t l) fun i => .leaf ⟨t.id, none⟩ (.atom (Text.ofInt i))
  | .call t h args => .call t h (fillAll ρ args)

def fillAll (ρ : Leaf → Option Int) : List Value → List Value
  | [] => []
  | v :: rest => fill ρ v :: fillAll ρ rest

end

theorem fillAll_eq_map (ρ : Leaf → Option Int) (vs : List Value) :
    fillAll ρ vs = vs.map (fill ρ) := by
  induction vs with
  | nil => rfl
  | cons v rest ih => rw [fillAll, ih, map_cons]

mutual

theorem copy_fill (ρ : Leaf → Option Int) (v : Value) (n : NodeId) :
    (v.fill ρ).copy n = ((v.copy n).1.fill ρ, (v.copy n).2) := by
  match v with
  | .leaf t l =>
    rw [copy_leaf_run, fill, fill]
    cases ρ l <;> rfl
  | .call t h args => rw [fill, copy_call_run, copy_call_run, copyAll_fillAll ρ args, fill]

theorem copyAll_fillAll (ρ : Leaf → Option Int) (vs : List Value) (n : NodeId) :
    copyAll (fillAll ρ vs) n = (fillAll ρ (copyAll vs n).1, (copyAll vs n).2) := by
  match vs with
  | [] => rfl
  | v :: rest =>
    rw [fillAll, copyAll_cons_run, copyAll_cons_run, copy_fill ρ v, copyAll_fillAll ρ rest, fillAll]

end

end Value

namespace Loops

/-- What the counter of a loop stands for in a step: the number, wherever the leaf is the counter.
A counter that is a call, or has no content, is no leaf. -/
def counting : Value → Int → Leaf → Option Int
  | .leaf _ c, i, l => if c ≠ .blank ∧ l = c then some i else none
  | .call _ _ _, _, _ => none

theorem find?_counter (counter : Value) (n : NodeId) (i : Int) (l : Leaf) :
    ((Substitution.add? {} counter (.leaf ⟨n, none⟩ (.atom (Text.ofInt i)))).getD {}).find? l =
      (counting counter i l).map fun i => .leaf ⟨n, none⟩ (.atom (Text.ofInt i)) := by
  match counter with
  | .call _ _ _ | .leaf _ .blank => rfl
  | .leaf _ (.atom _) | .leaf _ (.global _) | .leaf _ (.script _) =>
    simp only [Substitution.add?, getD_some, Substitution.find?, lookup_cons,
      lookup_nil, counting]
    split <;> simp_all

section Copying

variable (counter : Value) (i : Int) (n : NodeId)

mutual

/-- Substituting for the counter puts the number in its place, and draws no numbers for nodes. -/
theorem substitute_counter (v : Value) (m : NodeId) :
    v.substitute
        ((Substitution.add? {} counter (.leaf ⟨n, none⟩ (.atom (Text.ofInt i)))).getD {}) m =
      (v.fill (counting counter i), m) := by
  match v with
  | .leaf t l =>
    rw [substitute_leaf_run, find?_counter, fill]
    cases counting counter i l <;> rfl
  | .call t h args =>
    rw [substitute_call_run, fill, substituteAll_counter args]

theorem substituteAll_counter (vs : List Value) (m : NodeId) :
    substituteAll
      ((Substitution.add? {} counter (.leaf ⟨n, none⟩ (.atom (Text.ofInt i)))).getD {}) vs m =
      (fillAll (counting counter i) vs, m) := by
  match vs with
  | [] => rfl
  | v :: rest =>
    rw [substituteAll_cons_run, fillAll, substitute_counter v,
      substituteAll_counter rest]

end

end Copying

section

variable (counter : Value) (body : List Value) (i : Int64) (n : NodeId)

include counter body i n

/-- **One copy of the body** is a copy of the body with the number in place of the counter. -/
theorem copyFor_eq :
    copyFor counter body i n =
      copyAll (fillAll (counting counter i.toInt) body) (n + 1) := by
  rw [copyAll_fillAll]
  exact substituteAll_counter counter i.toInt n _ _

theorem unnumberedAll_copyFor :
    unnumberedAll (copyFor counter body i n).1 =
      unnumberedAll (fillAll (counting counter i.toInt) body) := by
  rw [copyFor_eq, unnumberedAll_copyAll]

theorem length_copyFor : (copyFor counter body i n).1.length = body.length := by
  have hlength := congrArg List.length (unnumberedAll_copyFor counter body i n)
  simpa only [unnumberedAll_eq_map, fillAll_eq_map, length_map] using hlength

end

theorem length_counts (start stop : Int64) : (counts start stop).length = steps start stop := by
  rw [counts, length_map, length_range]

/-- The counter never wraps around. -/
theorem toInt_count {start stop : Int64} {k : Nat} (hk : k < steps start stop) :
    (start + ofNat k).toInt = start.toInt + k := by
  rw [steps] at hk
  have h1 := start.le_toInt
  have h2 := stop.toInt_lt
  rw [toInt_add, toInt_ofNat', size, Int.add_bmod_bmod, Int.bmod_eq_of_le] <;>
    omega

end Loops

theorem Supply.mapM_index {α β : Type} (f : α → Supply β) (xs : List α) (n : NodeId) (k : Nat) :
    ∃ m, (xs.mapM f n).1[k]? = xs[k]?.map fun x => (f x m).1 := by
  induction xs generalizing n k with
  | nil => exact ⟨n, rfl⟩
  | cons x rest ih =>
    rw [mapM_cons]
    cases k with
    | zero => exact ⟨n, rfl⟩
    | succ k => exact ih (f x n).2 k

theorem Supply.length_mapM {α β : Type} (f : α → Supply β) (xs : List α) (n : NodeId) :
    (xs.mapM f n).1.length = xs.length := by
  induction xs generalizing n with
  | nil => rfl
  | cons x rest ih =>
    rw [mapM_cons]
    exact congrArg (· + 1) (ih (f x n).2)

namespace Loops

variable (counter : Value) (body : List Value) (start stop : Int64) (n : NodeId)

theorem length_copies :
    (copies counter body start stop n).1.length = steps start stop * body.length := by
  rw [copies_eq, length_flatten_of_length (Supply.mapM_all _ (length_copyFor counter body) _ n),
    Supply.length_mapM, length_counts]

/-- **The copies, one by one.**  The copies for a value of the counter stand together. -/
theorem copies_index {k j : Nat} (hk : k < steps start stop) (hj : j < body.length) :
    (copies counter body start stop n).1[k * body.length + j]?.map unnumbered =
      some (body[j].fill (counting counter (start.toInt + k))).unnumbered := by
  have hparts := Supply.mapM_all (fun vs : List Value => vs.length = body.length)
    (length_copyFor counter body) (counts start stop) n
  have hcount : (counts start stop)[k]? = some (start + ofNat k) := by
    rw [counts, getElem?_map, getElem?_range hk]
    rfl
  obtain ⟨m, hpart⟩ := Supply.mapM_index (copyFor counter body) (counts start stop) n k
  rw [hcount, map_some] at hpart
  have hcopy := congrArg (·[j]?) (unnumberedAll_copyFor counter body (start + ofNat k) m)
  simp only [unnumberedAll_eq_map, fillAll_eq_map, getElem?_map,
    getElem?_eq_getElem hj, map_some, toInt_count hk] at hcopy
  rw [copies_eq, getElem?_flatten_of_length hparts k hj, hpart, bind_some, hcopy]

/-! ## 3. One loop -/

variable (view : View) (low high : Value)

/-- What is remembered after the bounds of a loop have been evaluated. -/
def memoAfter (memo : Memo) : Memo :=
  (view.scene.evalValue high (view.scene.evalValue low memo).2).2

/-- The bounds of a loop, evaluated one after the other, are constants that coerce to longs. -/
structure Bounded (memo : Memo) (start stop : Int64) : Prop where
  start : (view.scene.evalValue low memo).1.bind Const.toLong? = some start
  stop : (view.scene.evalValue high (view.scene.evalValue low memo).2).1.bind Const.toLong? =
    some stop

/-- An atom that has not been evaluated before is its own value, and only this is remembered. -/
theorem evalValue_atom (t : Tag) (text : Text) {memo : Memo}
    (h : memo[MemoKey.value t.id]? = none) :
    (view.scene.evalValue (.leaf t (.atom text)) memo).1 = some (.atom text) ∧
      ∀ id, id ≠ t.id → (view.scene.evalValue (.leaf t (.atom text)) memo).2[MemoKey.value id]? =
        memo[MemoKey.value id]? := by
  rw [Scene.evalValue, Eval.value, Eval.memo_run, h]
  refine ⟨rfl, fun id hid => ?_⟩
  have hkey : ¬ MemoKey.value t.id = MemoKey.value id := fun heq => hid (MemoKey.value.inj heq).symm
  show ((memo.insert _ none).insert _ _)[MemoKey.value id]? = _
  simp [Std.HashMap.getElem?_insert, hkey]

/-- Bounds that are written as whole numbers. -/
theorem Bounded.of_numerals {t t' : Tag} (hne : t'.id ≠ t.id) {text text' : Text}
    {start stop : Int64} (hstart : Reading.long? text = some start)
    (hstop : Reading.long? text' = some stop) :
    Bounded view (.leaf t (.atom text)) (.leaf t' (.atom text')) {} start stop := by
  obtain ⟨hfirst, hmemo⟩ := @evalValue_atom view t text {} (by simp)
  obtain ⟨hsecond, -⟩ := evalValue_atom view t' text'
    ((hmemo t'.id hne).trans (by simp))
  constructor
  · rw [hfirst, bind_some, Const.toLong?, hstart, orElse_some]
  · rw [hsecond, bind_some, Const.toLong?, hstop, orElse_some]

theorem bound?_eq {v : Value} {e : Env} {i : Int64} (name : Text)
    (h : (view.scene.evalValue v e.memo).1.bind Const.toLong? = some i) :
    bound? view name v e = (some i, { e with memo := (view.scene.evalValue v e.memo).2 }) := by
  obtain ⟨c, hc, hi⟩ := bind_eq_some_iff.mp h
  have heval : e.eval (view.scene.evalValue v) =
    (some c, { e with memo := (view.scene.evalValue v e.memo).2 }) := congrArg (·, _) hc
  rw [bound?, heval]
  simp only [hi]

/-- What becomes of a loop with known bounds. -/
theorem tryUnroll_eq (h : Head) {e : Env} {start stop : Int64}
    (hbounds : Bounded view low high e.memo start stop) (hopen : e.budget.exhausted = false) :
    tryUnroll view h (counter :: low :: high :: body) e =
      let e' := { e with memo := memoAfter view low high e.memo }
      let n := (price e.budget.limit start stop body.length).toInt64
      if stop ≤ start then (some [], e')
      else if e.budget.covers n then
        (some (copies counter body start stop e.nextNode).1,
          { e' with
            nextNode := (copies counter body start stop e.nextNode).2
            budget := { e.budget with left := e.budget.left - n } })
      else
        (none,
          { e' with
            report := e.report.tellNode .error h.span (Macros.limitExceeded e.budget.limit)
            budget := { e.budget with exhausted := true } }) := by
  have hstop := bound?_eq view (e := { e with memo := (view.scene.evalValue low e.memo).2 }) "end"
    hbounds.stop
  simp only [tryUnroll, bound?_eq view "start" hbounds.start, hstop, Env.spend, hopen]
  by_cases hle : stop ≤ start
  · rw [if_pos hle, if_pos hle]
    rfl
  · rw [if_neg hle, if_neg hle]
    cases e.budget.covers (price e.budget.limit start stop body.length).toInt64 <;> rfl

/-- **Loop unrolling is exact.**  For bounds that are longs and a budget that is open, an empty loop
becomes nothing and costs nothing.  Any other loop costs the number of its steps times the length of
its body, an empty body counting as one, in whole numbers.  If so much is left, it becomes one copy
of the body for each value of the counter, and what is left drops by the price.  If not, it fails:
there is one more message, which is an error, and the budget is exhausted. -/
theorem unrolling_exact (view : View) (h : Head) (counter low high : Value) (body : List Value)
    (e : Env) (start stop : Int64) (hbounds : Bounded view low high e.memo start stop)
    (hopen : e.budget.Open) :
    let out := tryUnroll view h (counter :: low :: high :: body) e
    let e' := { e with memo := memoAfter view low high e.memo }
    (stop ≤ start → out = (some [], e')) ∧
    (start < stop → cost start stop body ≤ e.budget.left.toInt → ∃ vs nextNode left,
      out = (some vs, { e' with nextNode, budget := { e.budget with left } }) ∧
      vs.length = steps start stop * body.length ∧
      (∀ k j, k < steps start stop → ∀ hj : j < body.length,
        vs[k * body.length + j]?.map Value.unnumbered =
          some (body[j].fill (counting counter (start.toInt + k))).unnumbered) ∧
      Renews e.nextNode nextNode [] (Value.numbers vs) ∧
      left.toInt = e.budget.left.toInt - cost start stop body) ∧
    (start < stop → e.budget.left.toInt < cost start stop body →
      out = (none, { e' with
        report := e.report.tellNode .error h.span (Macros.limitExceeded e.budget.limit)
        budget := { e.budget with exhausted := true } })) := by
  have hout := tryUnroll_eq counter body view low high h hbounds hopen.exhausted
  have hnonempty : start < stop → ¬ stop ≤ start := fun hlt => Int64.not_le.mpr hlt
  refine ⟨fun hle => ?_, fun hlt hcost => ?_, fun hlt hcost => ?_⟩
  · rw [hout]
    exact if_pos hle
  · have hcovers := (covers_price hopen hlt body).mpr hcost
    refine ⟨(copies counter body start stop e.nextNode).1,
      (copies counter body start stop e.nextNode).2, _, ?_, length_copies counter body start stop _,
      fun k j hk hj => ?_,
      copies_renews counter body start stop _, toInt_price hopen hlt body hcost⟩
    · rw [hout]
      exact (if_neg (hnonempty hlt)).trans (if_pos hcovers)
    · exact copies_index counter body start stop _ hk hj
  · have hcovers : ¬ e.budget.covers (price e.budget.limit start stop body.length).toInt64 = true :=
      fun h => absurd ((covers_price hopen hlt body).mp h) (Int.not_le.mpr hcost)
    rw [hout]
    exact (if_neg (hnonempty hlt)).trans (if_neg hcovers)

def bareView : View := ⟨⟨fun _ => none, 0⟩, fun _ => none⟩

def bareAtom (id : NodeId) (t : Text) : Value := .leaf ⟨id, none⟩ (.atom t)

set_option maxRecDepth 20000 in
/-- At the largest limit there is, the loop over all longs exceeds the budget, although its price is
the least long when it is read as one; and the counter of a loop may go up to the largest long. -/
theorem unrolling_exact_samples :
    let e : Env := .fresh 9 {} Int64.maxValue
    let h : Head := ⟨0, none, .word "loop" none, false⟩
    let unroll := fun low high : Text => tryUnroll bareView h
      [bareAtom 1 "i", bareAtom 2 low, bareAtom 3 high, bareAtom 4 "i", bareAtom 5 "x"] e
    (e.budget.Open ∧ Bounded bareView (bareAtom 2 "-9223372036854775808")
        (bareAtom 3 "9223372036854775807") e.memo Int64.minValue Int64.maxValue ∧
      Bounded bareView (bareAtom 2 "9223372036854775806")
        (bareAtom 3 "9223372036854775807") e.memo (Int64.maxValue - 1) Int64.maxValue) ∧
    (unroll "-9223372036854775808" "9223372036854775807").1 = none ∧
    (unroll "-9223372036854775808" "9223372036854775807").2.budget.exhausted = true ∧
    ∃ vs, (unroll "9223372036854775806" "9223372036854775807").1 = some vs ∧ vs.length = 2 ∧
      vs[0]?.map Value.unnumbered = some (bareAtom 0 "9223372036854775806") := by
  intro e h unroll
  have hopen : e.budget.Open := ⟨by decide, by decide, rfl⟩
  have hwide : Bounded bareView (bareAtom 2 "-9223372036854775808")
      (bareAtom 3 "9223372036854775807") e.memo Int64.minValue Int64.maxValue :=
    .of_numerals bareView (by decide) (by decide +kernel) (by decide +kernel)
  have hlast : Bounded bareView (bareAtom 2 "9223372036854775806")
      (bareAtom 3 "9223372036854775807") e.memo (Int64.maxValue - 1) Int64.maxValue :=
    .of_numerals bareView (by decide) (by decide +kernel) (by decide +kernel)
  have hfails := (unrolling_exact bareView h (bareAtom 1 "i") _ _ [bareAtom 4 "i", bareAtom 5 "x"] e
    _ _ hwide hopen).2.2 (by decide) (by decide)
  obtain ⟨vs, nextNode, left, hout, hlength, hindex, -⟩ :=
    (unrolling_exact bareView h (bareAtom 1 "i") _ _ [bareAtom 4 "i", bareAtom 5 "x"] e
      _ _ hlast hopen).2.1 (by decide) (by decide)
  refine ⟨⟨hopen, hwide, hlast⟩, congrArg Prod.fst hfails,
    congrArg (fun out => out.2.budget.exhausted) hfails, vs, congrArg Prod.fst hout, hlength, ?_⟩
  exact (hindex 0 0 (by decide) (by decide)).trans (by cbv)

end Loops

end HaloScript
