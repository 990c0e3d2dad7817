/-
# Traced walks

A walk that records the stations it comes by.  It can also be told to edit by name: to take
declarations off the table, to drop calls, to insert a value after the first call of a
function, and to put other content in the place of calls.

Content that is put in may itself contain calls to be replaced.  As long as no replacement
leads back to itself the number of replacements is bounded by `Trace.allowance`; a walk that
reaches the bound makes no more of them.
-/
import HaloScript.Program.Sketch
import HaloScript.Walk.Machine

namespace HaloScript

/-- A station of a walk. -/
inductive Station where
  | global (name : Text)
  | script (name : Text)
  /-- An element of the body of a script. -/
  | statement (script : Text) (value : Value)
  /-- An argument of a call. -/
  | argument (function : Text) (value : Value)
  /-- A value, before it is replaced. -/
  | value (value : Value)
  | call (function : Text)

/-- Edits by name. -/
structure NamedEdits where
  /-- Declarations to take off the table. -/
  drop : List Text := []
  /-- Functions whose calls are dropped where they stand in a list. -/
  dropCalls : List Text := []
  /-- Values to insert after the first call of a function that stands in a list. -/
  insert : List (Text × Sketch) := []
  /-- Content for calls of a function. -/
  replace : List (Text × Sketch) := []

/-- The state of a traced walk. -/
structure Trace where
  /-- The stations, the last one first. -/
  stations : List Station
  /-- What is still to be inserted. -/
  pending : List (Text × Sketch)
  /-- How many replacements may still be made. -/
  allowance : Nat
  nextNode : NodeId

namespace Trace

def record (t : Trace) (s : Station) : Trace := { t with stations := s :: t.stations }

def function? : Value → Option Text
  | .leaf _ _ => none
  | .call _ head _ => some head.callee.name

def build (t : Trace) (table : Table) (s : Sketch) : Value × Trace :=
  let (v, nextNode) := (s.build table).run t.nextNode
  (v, { t with nextNode })

def element (owner : Owner) (v : Value) : Station :=
  match owner with
  | .global id => .statement id.name v
  | .script id => .statement id.name v
  | .call _ head => .argument head.callee.name v

/-- Takes what is to be inserted after a call of `function`. -/
def takePending (t : Trace) (function : Option Text) : Option (Sketch × Trace) :=
  match t.pending.find? (some ·.1 == function) with
  | none => none
  | some entry =>
    some (entry.2, { t with pending := t.pending.eraseP (some ·.1 == function) })

def offer (edits : NamedEdits) (table : Table) (owner : Owner) (v : Value) (t : Trace) :
    Offer × Trace :=
  let t := t.record (element owner v)
  let dropped := edits.dropCalls.any (some · == function? v)
  match t.takePending (function? v) with
  | none => (if dropped then .drop [] else .keep v [], t)
  | some (sketch, t) =>
    let (inserted, t) := t.build table sketch
    (if dropped then .drop [inserted] else .keep v [inserted], t)

def exchange (edits : NamedEdits) (table : Table) (v : Value) (t : Trace) : Value × Trace :=
  let t := t.record (.value v)
  match edits.replace.find? (some ·.1 == function? v), t.allowance with
  | some entry, allowance + 1 =>
    let (new, t) := ({ t with allowance }).build table entry.2
    (new.withTag v.tag, t)
  | _, _ => (v, t)

/-- What a traced walk may still do. -/
def potential (t : Trace) : Nat := t.pending.length + t.allowance

theorem potential_record (t : Trace) (s : Station) : (t.record s).potential = t.potential := rfl

theorem potential_build (t : Trace) (table : Table) (s : Sketch) :
    (t.build table s).2.potential = t.potential := rfl

theorem takePending_lt {t t' : Trace} {function : Option Text} {s : Sketch}
    (h : t.takePending function = some (s, t')) : t'.potential < t.potential := by
  unfold takePending at h
  split at h
  · exact absurd h (by simp)
  · next entry hfound =>
    injection h with h
    injection h with _ h
    subst h
    have hmem := List.mem_of_find?_eq_some hfound
    have hlen := List.length_eraseP_of_mem hmem (List.find?_some hfound)
    have hpos := List.length_pos_of_mem hmem
    simp only [potential, hlen]
    omega

theorem offer_lt (edits : NamedEdits) (table : Table) (owner : Owner) (v : Value) (t : Trace) :
    (offer edits table owner v t).2.potential < t.potential ∨
      ((offer edits table owner v t).2.potential ≤ t.potential ∧
        (offer edits table owner v t).1.size ≤ v.nodeCount) := by
  unfold offer
  dsimp only
  split
  · refine .inr ⟨Nat.le_refl _, ?_⟩
    dsimp only
    have := Nat.succ_le_of_lt (Machine.nodeCount_pos v)
    split <;> simp [Offer.size, Value.nodeCountAll, this]
  · next sketch t' h =>
    refine .inl ?_
    have := takePending_lt h
    rwa [potential_record] at this

theorem exchange_lt (edits : NamedEdits) (table : Table) (v : Value) (t : Trace) :
    (exchange edits table v t).2.potential < t.potential ∨
      ((exchange edits table v t).2.potential ≤ t.potential ∧
        (exchange edits table v t).1.nodeCount ≤ v.nodeCount) := by
  unfold exchange
  dsimp only
  split
  · next ha =>
    refine .inl ?_
    have : t.allowance = _ := ha
    rw [potential_build]
    simp only [potential, record, this]
    omega
  · exact .inr ⟨Nat.le_refl _, Nat.le_refl _⟩

def hooks (edits : NamedEdits) (table : Table) : Hooks Trace where
  onGlobal _ g t := (⟨edits.drop.contains g.id.name, g.isConst⟩, t.record (.global g.id.name))
  onScript s t := (edits.drop.contains s.id.name, t.record (.script s.id.name))
  onElement _ place v t := offer edits table place.owner v t
  onValue _ v t := exchange edits table v t
  onCall head t := t.record (.call head.callee.name)
  potential := potential
  onGlobal_le _ _ _ := Nat.le_refl _
  onScript_le _ _ := Nat.le_refl _
  onCall_le _ _ := Nat.le_refl _
  onElement_lt _ place v t := offer_lt edits table place.owner v t
  onValue_lt _ v t := exchange_lt edits table v t

end Trace

/-- Walks a program by name, and lists the stations in order. -/
def Program.trace (p : Program) (edits : NamedEdits) (references : Bool) :
    Program × List Station :=
  let declared := p.globals.toList.foldr (fun g n => g.nodeCount + n) 0 +
    p.scripts.toList.foldr (fun s n => s.nodeCount + n) 0
  let inserted := Sketch.sizeAll (edits.insert.map Prod.snd)
  let growth := Sketch.sizeAll (edits.replace.map Prod.snd) + 1
  let allowance := (declared + inserted) * Nat.pow growth (edits.replace.length + 1)
  let (p, t) := p.walk (Trace.hooks edits p.table) references
    ⟨[], edits.insert, allowance, p.nextNode⟩
  ({ p with nextNode := t.nextNode }, t.stations.reverse)

end HaloScript
