/-
# The parts of a value

A statement about every leaf and every call of a value, at any depth, is a statement about two
lists.  This module gives the lists and says what copying, substituting and retagging do to
them: a copy has the leaves of its original and the same callees, and a substitution adds
nothing but the parts of its replacements.

`Value.Meets` puts a condition on every leaf and one on what every call calls.  The condition
on calls sees the callee and whether the call is a clause, and not the call's number, because
numbers are what a copy changes.
-/
import HaloScript.Program.Basic
import HaloScript.Program.Copy

namespace HaloScript

open List

/-! ## 1. Leaves and calls -/

def Leaf.target? : Leaf → Option DeclId
  | .global g => some (.global g)
  | .script s => some (.script s)
  | _ => none

def Callee.target? : Callee → Option DeclId
  | .word _ _ => none
  | .script s => some (.script s)

namespace Value

variable {vs : List Value}

mutual

def leaves : Value → List Leaf
  | .leaf _ l => [l]
  | .call _ _ args => leavesAll args

def leavesAll : List Value → List Leaf
  | [] => []
  | v :: rest => leaves v ++ leavesAll rest

end

mutual

/-- The heads of the calls of a value, a call before those among its arguments. -/
def calls : Value → List Head
  | .leaf _ _ => []
  | .call _ h args => h :: callsAll args

def callsAll : List Value → List Head
  | [] => []
  | v :: rest => calls v ++ callsAll rest

end

mutual

/-- The value and all values inside it, a call before its arguments. -/
def parts : Value → List Value
  | .leaf t l => [.leaf t l]
  | .call t h args => .call t h args :: partsAll args

def partsAll : List Value → List Value
  | [] => []
  | v :: rest => parts v ++ partsAll rest

end

theorem mem_parts_self (v : Value) : v ∈ v.parts := by
  cases v <;> exact mem_cons_self

theorem mem_partsAll {w : Value} : w ∈ partsAll vs ↔ ∃ v ∈ vs, w ∈ v.parts := by
  induction vs with
  | nil => simp [partsAll]
  | cons v rest ih => simp [partsAll, ih]

mutual

theorem parts_trans {w x : Value} (hx : x ∈ w.parts) (v : Value) (hw : w ∈ v.parts) :
    x ∈ v.parts := by
  match v with
  | .leaf t l =>
    obtain rfl := mem_singleton.mp hw
    exact hx
  | .call t h args =>
    rcases mem_cons.mp hw with rfl | hw
    · exact hx
    · exact mem_cons_of_mem _ (partsAll_trans hx args hw)

theorem partsAll_trans {w x : Value} (hx : x ∈ w.parts) (vs : List Value) (hw : w ∈ partsAll vs) :
    x ∈ partsAll vs := by
  match vs with
  | v :: rest =>
    rw [partsAll, mem_append] at hw ⊢
    exact hw.imp (parts_trans hx v) (partsAll_trans hx rest)

end

mutual

theorem mem_leaves_parts {l : Leaf} (v : Value) : l ∈ v.leaves ↔ ∃ t, .leaf t l ∈ v.parts := by
  match v with
  | .leaf t l' => simp [leaves, parts]
  | .call t h args => simp [leaves, parts, mem_leavesAll_parts args]

theorem mem_leavesAll_parts {l : Leaf} (vs : List Value) :
    l ∈ leavesAll vs ↔ ∃ t, .leaf t l ∈ partsAll vs := by
  match vs with
  | [] => simp [leavesAll, partsAll]
  | v :: rest =>
    simp [leavesAll, partsAll, mem_leaves_parts v, mem_leavesAll_parts rest, exists_or]

end

theorem mem_leavesAll {l : Leaf} : l ∈ leavesAll vs ↔ ∃ v ∈ vs, l ∈ v.leaves := by
  induction vs with
  | nil => simp [leavesAll]
  | cons v rest ih => simp [leavesAll, ih]

theorem mem_callsAll {h : Head} : h ∈ callsAll vs ↔ ∃ v ∈ vs, h ∈ v.calls := by
  induction vs with
  | nil => simp [callsAll]
  | cons v rest ih => simp [callsAll, ih]

end Value

namespace Declaration

def values : Declaration → List Value
  | .global g => [g.value]
  | .script s => s.body

/-- The heads of all calls of a declaration, at any depth. -/
def calls (d : Declaration) : List Head := Value.callsAll d.values

end Declaration

/-! ## 2. Conditions on all parts -/

/-- A condition on calls, by what is called and whether the call is a clause. -/
abbrev CallCondition := Callee → Bool → Prop

namespace Value

/-- Every leaf and every call of a value meets its condition. -/
def Meets (leafOk : Leaf → Prop) (callOk : CallCondition) (v : Value) : Prop :=
  (∀ l ∈ v.leaves, leafOk l) ∧ ∀ h ∈ v.calls, callOk h.callee h.clause

variable {leafOk leafOk' : Leaf → Prop} {callOk callOk' : CallCondition}

@[simp] theorem meets_leaf (t : Tag) (l : Leaf) :
    (Value.leaf t l).Meets leafOk callOk ↔ leafOk l := by
  simp [Meets, leaves, calls]

@[simp] theorem meets_call (t : Tag) (h : Head) (args : List Value) :
    (Value.call t h args).Meets leafOk callOk ↔
      callOk h.callee h.clause ∧ ∀ v ∈ args, v.Meets leafOk callOk := by
  simp only [Meets, leaves, calls, mem_leavesAll, mem_cons, mem_callsAll]
  constructor
  · rintro ⟨hl, hc⟩
    exact ⟨hc h (.inl rfl), fun v hv =>
      ⟨fun l hm => hl l ⟨v, hv, hm⟩, fun k hm => hc k (.inr ⟨v, hv, hm⟩)⟩⟩
  · rintro ⟨hh, hargs⟩
    refine ⟨fun l ⟨v, hv, hm⟩ => (hargs v hv).1 l hm, ?_⟩
    rintro k (rfl | ⟨v, hv, hm⟩)
    · exact hh
    · exact (hargs v hv).2 k hm

theorem Meets.mono {v : Value} (h : v.Meets leafOk callOk) (hl : ∀ l, leafOk l → leafOk' l)
    (hc : ∀ c b, callOk c b → callOk' c b) : v.Meets leafOk' callOk' :=
  ⟨fun l hm => hl l (h.1 l hm), fun k hm => hc _ _ (h.2 k hm)⟩

@[simp] theorem meets_withTag (t : Tag) (v : Value) :
    (v.withTag t).Meets leafOk callOk ↔ v.Meets leafOk callOk := by
  cases v <;> simp [withTag]

/-! ## 3. Copies and substitutions -/

theorem copy_leaf_run (t : Tag) (l : Leaf) (n : NodeId) :
    copy (.leaf t l) n = (.leaf { t with id := n } l, n + 1) := rfl

theorem copy_call_run (t : Tag) (h : Head) (args : List Value) (n : NodeId) :
    copy (.call t h args) n =
      (.call { t with id := n } { h with id := n + 1 } (copyAll args (n + 1 + 1)).1,
        (copyAll args (n + 1 + 1)).2) := rfl

theorem copyAll_cons_run (v : Value) (rest : List Value) (n : NodeId) :
    copyAll (v :: rest) n =
      ((v.copy n).1 :: (copyAll rest (v.copy n).2).1, (copyAll rest (v.copy n).2).2) := rfl

mutual

theorem copy_meets (v : Value) (n : NodeId) (hv : v.Meets leafOk callOk) :
    (v.copy n).1.Meets leafOk callOk := by
  match v with
  | .leaf t l => simpa [copy_leaf_run] using hv
  | .call t h args =>
    rw [meets_call] at hv
    rw [copy_call_run, meets_call]
    exact ⟨hv.1, copyAll_meets args _ hv.2⟩

theorem copyAll_meets (vs : List Value) (n : NodeId) (hvs : ∀ v ∈ vs, v.Meets leafOk callOk) :
    ∀ v ∈ (copyAll vs n).1, v.Meets leafOk callOk := by
  match vs with
  | [] => exact fun v hv => absurd hv not_mem_nil
  | v :: rest =>
    rw [copyAll_cons_run, forall_mem_cons]
    rw [forall_mem_cons] at hvs
    exact ⟨copy_meets v n hvs.1, copyAll_meets rest _ hvs.2⟩

end

theorem copyAt_meets (id : NodeId) (v : Value) (n : NodeId) (hv : v.Meets leafOk callOk) :
    (v.copyAt id n).1.Meets leafOk callOk := by
  cases v with
  | leaf t l => exact (meets_leaf _ _).mpr ((meets_leaf t l).mp hv)
  | call t h args =>
    rw [meets_call] at hv
    exact (meets_call _ _ _).mpr ⟨hv.1, copyAll_meets args _ hv.2⟩

end Value

def Substitution.Meets (leafOk : Leaf → Prop) (callOk : CallCondition) (m : Substitution) : Prop :=
  ∀ l v, m.find? l = some v → v.Meets leafOk callOk

namespace Value

variable {leafOk : Leaf → Prop} {callOk : CallCondition} {m : Substitution}

theorem substitute_leaf_run (t : Tag) (l : Leaf) (n : NodeId) :
    substitute m (.leaf t l) n =
      match m.find? l with
      | none => (.leaf t l, n)
      | some new => new.copyAt t.id n := by
  simp only [substitute]
  cases m.find? l <;> rfl

theorem substitute_call_run (t : Tag) (h : Head) (args : List Value) (n : NodeId) :
    substitute m (.call t h args) n =
      (.call t h (substituteAll m args n).1, (substituteAll m args n).2) := rfl

theorem substituteAll_cons_run (v : Value) (rest : List Value) (n : NodeId) :
    substituteAll m (v :: rest) n =
      ((v.substitute m n).1 :: (substituteAll m rest (v.substitute m n).2).1,
        (substituteAll m rest (v.substitute m n).2).2) := rfl

theorem instantiateAll_run (vs : List Value) (n : NodeId) :
    instantiateAll m vs n = substituteAll m (copyAll vs n).1 (copyAll vs n).2 := rfl

mutual

theorem substitute_meets (hm : m.Meets leafOk callOk) (v : Value) (n : NodeId)
    (hv : v.Meets leafOk callOk) : (v.substitute m n).1.Meets leafOk callOk := by
  match v with
  | .leaf t l =>
    rw [substitute_leaf_run]
    split
    · exact hv
    · next new hnew => exact copyAt_meets t.id new n (hm l new hnew)
  | .call t h args =>
    rw [meets_call] at hv
    rw [substitute_call_run, meets_call]
    exact ⟨hv.1, substituteAll_meets hm args n hv.2⟩

theorem substituteAll_meets (hm : m.Meets leafOk callOk) (vs : List Value) (n : NodeId)
    (hvs : ∀ v ∈ vs, v.Meets leafOk callOk) :
    ∀ v ∈ (substituteAll m vs n).1, v.Meets leafOk callOk := by
  match vs with
  | [] => exact fun v hv => absurd hv not_mem_nil
  | v :: rest =>
    rw [substituteAll_cons_run, forall_mem_cons]
    rw [forall_mem_cons] at hvs
    exact ⟨substitute_meets hm v n hvs.1, substituteAll_meets hm rest _ hvs.2⟩

end

theorem instantiateAll_meets (hm : m.Meets leafOk callOk) (vs : List Value) (n : NodeId)
    (hvs : ∀ v ∈ vs, v.Meets leafOk callOk) :
    ∀ v ∈ (instantiateAll m vs n).1, v.Meets leafOk callOk := by
  rw [instantiateAll_run]
  exact substituteAll_meets hm _ _ (copyAll_meets vs n hvs)

end Value

end HaloScript
