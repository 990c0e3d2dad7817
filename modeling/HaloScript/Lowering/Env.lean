/-
# What a lowering step works with

A step carries along the numbers for new nodes, the remembered results of evaluation, the
report and a budget.  The budget limits how much a step may add to the program, so that a macro
that expands into itself fails instead of running forever.  The first demand that exceeds it is
reported; later ones fail silently.
-/
import Std.Data.HashSet
import HaloScript.Report.Message
import HaloScript.Walk.Machine
import HaloScript.Program.Copy

namespace HaloScript

/-- How much may still be added to a program. -/
structure Budget where
  left : Int64
  limit : Int64
  exhausted : Bool := false
  limit_pos : 0 < limit
deriving DecidableEq

namespace Budget

def defaultLimit : Int64 := 100000

/-- The limit that a number stands for: if it is not positive, the usual one. -/
def limitOf (n : Int64) : Int64 := if n ≤ 0 then defaultLimit else n

theorem limitOf_pos (n : Int64) : 0 < limitOf n := by
  unfold limitOf
  split
  · decide
  · next hn => exact Int64.not_le.mp hn

def ofLimit (n : Int64) : Budget := ⟨limitOf n, limitOf n, false, limitOf_pos n⟩

/-- Whether an amount, which must not be negative, can be spent. -/
def covers (b : Budget) (n : Int64) : Bool := !b.exhausted && 0 ≤ n && n ≤ b.left

end Budget

/-- The state of a lowering step. -/
structure Env where
  nextNode : NodeId
  memo : Memo
  report : Report
  budget : Budget
  /-- The nodes a step has set aside, for a reason of its own. -/
  marks : Std.HashSet NodeId

namespace Env

def fresh (nextNode : NodeId) (report : Report) (limit : Int64) : Env :=
  ⟨nextNode, {}, report, .ofLimit limit, {}⟩

/-- Runs an evaluation on the remembered results. -/
def eval {α : Type} (e : Env) (x : Eval α) : α × Env :=
  let memo := e.memo
  let e := { e with memo := {} }
  let (a, memo) := x.run memo
  (a, { e with memo })

def supply {α : Type} (e : Env) (x : Supply α) : α × Env :=
  let (a, nextNode) := x.run e.nextNode
  (a, { e with nextNode })

def tellNode (e : Env) (level : Level) (span : Option Span) (content : Text) : Env :=
  { e with report := e.report.tellNode level span content }

def mark (e : Env) (id : NodeId) : Env := { e with marks := e.marks.insert id }

def isMarked (e : Env) (id : NodeId) : Bool := e.marks.contains id

/-- Spends an amount on a call written at `span`, and says whether that was possible. -/
def spend (e : Env) (n : Int64) (span : Option Span) : Bool × Env :=
  if e.budget.exhausted then (false, e)
  else if e.budget.covers n then
    (true, { e with budget := { e.budget with left := e.budget.left - n } })
  else
    let e := e.tellNode .error span
      ("expansion limit of " ++ Text.ofInt e.budget.limit.toInt ++
        " exceeded; is a macro expanding into itself?")
    (false, { e with budget := { e.budget with exhausted := true } })

def potential (e : Env) : Nat := e.budget.left.toNatClampNeg

/-! ## What changes the potential -/

@[simp] theorem potential_eval {α : Type} (e : Env) (x : Eval α) :
    (e.eval x).2.potential = e.potential := rfl

@[simp] theorem potential_supply {α : Type} (e : Env) (x : Supply α) :
    (e.supply x).2.potential = e.potential := rfl

@[simp] theorem potential_tellNode (e : Env) (level : Level) (span : Option Span)
    (content : Text) : (e.tellNode level span content).potential = e.potential := rfl

@[simp] theorem potential_mark (e : Env) (id : NodeId) : (e.mark id).potential = e.potential := rfl

theorem toInt_sub_of_covers {a n : Int64} (hn : 0 ≤ n) (hle : n ≤ a) :
    (a - n).toInt = a.toInt - n.toInt := by
  have h1 : (0 : Int) ≤ n.toInt := by simpa using Int64.le_iff_toInt_le.mp hn
  have h2 : n.toInt ≤ a.toInt := Int64.le_iff_toInt_le.mp hle
  have h3 := a.toInt_lt
  rw [Int64.toInt_sub, Int.bmod_eq_of_le] <;> omega

/-- What is spent is gone, and nothing else is. -/
theorem potential_spend (e : Env) (n : Int64) (span : Option Span) :
    ((e.spend n span).1 = true →
      0 ≤ n.toInt ∧ (e.spend n span).2.potential + n.toInt = e.potential) ∧
    ((e.spend n span).1 = false → (e.spend n span).2.potential = e.potential) := by
  unfold spend
  split
  · simp
  · split
    · next hc =>
      simp only [Budget.covers, Bool.and_eq_true, decide_eq_true_eq] at hc
      have h1 : (0 : Int) ≤ n.toInt := by simpa using Int64.le_iff_toInt_le.mp hc.1.2
      have h2 : n.toInt ≤ e.budget.left.toInt := Int64.le_iff_toInt_le.mp hc.2
      refine ⟨fun _ => ⟨h1, ?_⟩, by simp⟩
      simp only [potential, Int64.toNatClampNeg, toInt_sub_of_covers hc.1.2 hc.2]
      omega
    · exact ⟨by simp, fun _ => rfl⟩

/-- Spending uses up potential, if it is not nothing that is spent. -/
theorem potential_spend_of_true (e : Env) {n : Int64} (hn : n ≠ 0) (span : Option Span)
    (h : (e.spend n span).1 = true) : (e.spend n span).2.potential < e.potential := by
  obtain ⟨hle, heq⟩ := (e.potential_spend n span).1 h
  have hne : n.toInt ≠ 0 := fun h0 => hn (Int64.toInt_inj.mp h0)
  omega

/-- Spending never adds. -/
theorem potential_spend_le (e : Env) (n : Int64) (span : Option Span) :
    (e.spend n span).2.potential ≤ e.potential := by
  obtain ⟨hpaid, hrefused⟩ := e.potential_spend n span
  cases h : (e.spend n span).1 with
  | true =>
    obtain ⟨hle, heq⟩ := hpaid h
    omega
  | false => exact Nat.le_of_eq (hrefused h)

/-- Hooks that leave everything as it is. -/
def idle : Hooks Env where
  onGlobal _ g e := (⟨false, g.isConst⟩, e)
  onScript _ e := (false, e)
  onElement _ _ v e := (.keep v [], e)
  onValue _ v e := (v, e)
  onCall _ e := e
  potential := potential
  onGlobal_le _ _ _ := Nat.le_refl _
  onScript_le _ _ := Nat.le_refl _
  onCall_le _ _ := Nat.le_refl _
  onElement_lt _ _ _ _ := .inr ⟨Nat.le_refl _, by simp [Offer.size, Value.nodeCountAll]⟩
  onValue_lt _ _ _ := .inr ⟨Nat.le_refl _, Nat.le_refl _⟩

end Env

/-- The head of the call a call turns into when it is replaced by a sequence of values; it
stays the same call. -/
def Head.becomeBegin (h : Head) : Head := { h with callee := .word "begin" none, clause := false }

end HaloScript
