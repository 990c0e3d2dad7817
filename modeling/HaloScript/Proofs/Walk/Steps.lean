/-
# Small facts about the steps of a walk

What a walk does at its end is to take names off the table, and this changes nothing but the
table.  The steps before leave alone what is not theirs: going into a declaration does not look at
the entries still to come, and ending a list does not touch the state of the hooks.
-/
import HaloScript.Proofs.Signature
import HaloScript.Walk.Machine

namespace HaloScript

open List

variable {σ : Type}

/-! ## 1. Steps -/

def Offer.values : Offer → List Value
  | .keep v inserted => v :: inserted
  | .drop inserted => inserted

/-- The declaration whose list this is, if it is not a list of arguments. -/
def Owner.decl? : Owner → Option DeclId
  | .global id => some (.global id)
  | .script id => some (.script id)
  | .call _ _ => none

/-- The list of values that a declaration is. -/
def DeclId.owner : DeclId → Owner
  | .global id => .global id
  | .script id => .script id

theorem Owner.decl_or_call (o : Owner) : (∃ d : DeclId, o = d.owner) ∨ ∃ t h, o = .call t h := by
  cases o with
  | global id => exact .inl ⟨.global id, rfl⟩
  | script id => exact .inl ⟨.script id, rfl⟩
  | call t h => exact .inr ⟨t, h, rfl⟩

/-- The declaration that a walk enters after a value. -/
def Value.lead? (references : Bool) : Value → Option DeclId
  | .leaf _ l => if references then l.target? else none
  | .call _ head _ => head.callee.target?

namespace Edits

/-- What edits make of a declaration that is entered: whether it is removed, the program and the
state. -/
def allow (h : Edits σ) (view : View) (p : Program) (s : σ) : Declaration → Bool × Program × σ
  | .global g => ((h.onGlobal view g s).1.remove,
      p.setGlobal { g with isConst := (h.onGlobal view g s).1.isConst }, (h.onGlobal view g s).2)
  | .script a => ((h.onScript a s).1, p, (h.onScript a s).2)

/-- The state after a value was answered, which is told to the hook for calls if it is one. -/
def told (h : Edits σ) : Value → σ → σ
  | .leaf _ _, s => s
  | .call _ head _, s => h.onCall head s

end Edits

namespace Machine

/-- The stack after a value was answered: a leaf is done with, a call is walked next. -/
def answered (owner : Owner) (done : List Value) (rest : List Value) (below : List Frame) :
    Value → List Frame
  | .leaf t l => ⟨owner, .leaf t l :: done, rest⟩ :: below
  | .call t head args => ⟨.call t head, [], args⟩ :: ⟨owner, done, rest⟩ :: below

/-- The machine after a declaration with these values was entered. -/
def allow (m : Machine σ) (d : DeclId) (vs : List Value) (r : Bool × Program × σ) : Machine σ where
  program := r.2.1
  unseen := m.unseen.erase d
  entries := m.entries
  frames := if r.1 then m.frames else ⟨d.owner, [], vs⟩ :: m.frames
  removals := if r.1 then d.name :: m.removals else m.removals
  state := r.2.2

variable {m : Machine σ} {h : Edits σ} {d : DeclId} {references : Bool}

theorem close_keeps (m : Machine σ) (f : Frame) (below : List Frame) :
    (m.close f below).state = m.state ∧ (m.close f below).entries = m.entries := by
  obtain ⟨program, unseen, entries, frames, removals, state⟩ := m
  obtain ⟨owner, done, todo⟩ := f
  cases owner with
  | global => exact ⟨rfl, rfl⟩
  | script => exact ⟨rfl, rfl⟩
  | call => cases below <;> exact ⟨rfl, rfl⟩

theorem enter_of_not_mem (hd : d ∉ m.unseen) : m.enter h d = m := by
  obtain ⟨program, unseen, entries, frames, removals, state⟩ := m
  cases d <;> exact if_neg hd

theorem enter_of_none (hd : d ∈ m.unseen) (ha : m.program.declaration? d = none) :
    m.enter h d = { m with unseen := m.unseen.erase d } := by
  obtain ⟨program, unseen, entries, frames, removals, state⟩ := m
  cases d with
  | global id =>
    have hg : program.global? id = none := Option.map_eq_none_iff.mp ha
    exact (if_pos hd).trans (by rw [hg])
  | script id =>
    have hs : program.script? id = none := Option.map_eq_none_iff.mp ha
    exact (if_pos hd).trans (by rw [hs])

theorem enter_of_some (hd : d ∈ m.unseen) {a : Declaration}
    (ha : m.program.declaration? d = some a) : m.enter h d =
      m.allow d a.values (h.allow (.during m.program m.frames) m.program m.state a) := by
  obtain ⟨program, unseen, entries, frames, removals, state⟩ := m
  cases d with
  | global =>
    obtain ⟨g, hg, rfl⟩ := Option.map_eq_some_iff.mp ha
    cases hremove : (h.onGlobal (.during program frames) g state).1.remove <;>
      simp [enter, enterGlobal, hd, hg, allow, Edits.allow, hremove, DeclId.owner, DeclId.name,
        Declaration.values]
  | script =>
    obtain ⟨a, hs, rfl⟩ := Option.map_eq_some_iff.mp ha
    cases hremove : (h.onScript a state).1 <;>
      simp [enter, enterScript, hd, hs, allow, Edits.allow, hremove, DeclId.owner, DeclId.name,
        Declaration.values]

/-- **All that going into a declaration can do.** -/
theorem enter_cases (h : Edits σ) (d : DeclId) (m : Machine σ) : m.enter h d = m ∨
    m.enter h d = { m with unseen := m.unseen.erase d } ∨
    ∃ a : Declaration, m.enter h d =
      m.allow d a.values (h.allow (.during m.program m.frames) m.program m.state a) := by
  by_cases hd : d ∈ m.unseen
  · cases ha : m.program.declaration? d with
    | none => exact .inr (.inl (enter_of_none hd ha))
    | some a => exact .inr (.inr ⟨a, enter_of_some hd ha⟩)
  · exact .inl (enter_of_not_mem hd)

/-- **All that visiting a value does.** -/
theorem visit_eq (owner : Owner) (done : List Value) (v : Value) (rest : List Value)
    (below : List Frame) (m : Machine σ) : m.visit h references owner done v rest below =
      let r := h.onValue (.during m.program (⟨owner, done, v :: rest⟩ :: below)) v m.state
      let next := { m with frames := answered owner done rest below r.1, state := h.told r.1 r.2 }
      (r.1.lead? references).elim next fun d => next.enter h d := by
  obtain ⟨program, unseen, entries, frames, removals, state⟩ := m
  unfold visit
  dsimp only
  generalize h.onValue (.during program (⟨owner, done, v :: rest⟩ :: below)) v state = r
  obtain ⟨w, s⟩ := r
  cases w with
  | leaf t l => cases l <;> cases references <;> rfl
  | call t head =>
    obtain ⟨id, span, callee, clause⟩ := head
    cases callee <;> rfl

/-- Going into a declaration does not depend on the entries still to come. -/
theorem enter_with_entries (d : DeclId) (rest : List DeclId) :
    Machine.enter h d { m with entries := rest } = { m.enter h d with entries := rest } := by
  by_cases hd : d ∈ m.unseen
  · cases ha : m.program.declaration? d with
    | none => rw [enter_of_none hd ha, enter_of_none (m := { m with entries := rest }) hd ha]
    | some =>
      rw [enter_of_some hd ha, enter_of_some (m := { m with entries := rest }) hd ha]
      rfl
  · rw [enter_of_not_mem hd, enter_of_not_mem (m := { m with entries := rest }) hd]

theorem enter_entries (d : DeclId) : (m.enter h d).entries = m.entries := by
  have := congrArg Machine.entries (enter_with_entries (h := h) (m := m) d m.entries)
  exact this

section

variable (hglobal : ∀ view g s, (h.onGlobal view g s).2 = s)
  (hscript : ∀ a s, (h.onScript a s).2 = s)

include hglobal hscript

theorem enter_state (d : DeclId) (m : Machine σ) : (m.enter h d).state = m.state := by
  rcases enter_cases h d m with heq | heq | ⟨a, heq⟩
  · rw [heq]
  · rw [heq]
  · rw [heq]
    cases a with
    | global g => exact hglobal _ g m.state
    | script a => exact hscript a m.state

theorem visit_state (hcall : ∀ head s, h.onCall head s = s) (owner : Owner) (done : List Value)
    (v : Value) (rest : List Value) (below : List Frame) (m : Machine σ) :
    (m.visit h references owner done v rest below).state =
      (h.onValue (.during m.program (⟨owner, done, v :: rest⟩ :: below)) v m.state).2 := by
  have htold : ∀ v s, h.told v s = s := by
    intro v s
    cases v with
    | leaf => rfl
    | call t head => exact hcall head s
  rw [visit_eq]
  dsimp only
  generalize h.onValue (.during m.program (⟨owner, done, v :: rest⟩ :: below)) v m.state = r
  cases r.1.lead? references with
  | none => exact htold r.1 r.2
  | some d => exact (enter_state hglobal hscript d _).trans (htold r.1 r.2)

end

end Machine

/-! ## 2. Taking names off the table -/

theorem Table.remove_sublist (t : Table) (name : Text) :
    (t.remove name).entries.Sublist t.entries := eraseP_sublist

/-- A name that has been taken off the table is gone. -/
theorem Table.name_ne_of_mem_remove {name : Text} {d : DeclId} :
    ∀ {entries : List DeclId}, (entries.map DeclId.name).Nodup →
      d ∈ (Table.remove ⟨entries⟩ name).entries → d.name ≠ name
  | [], _, hd => by simp [Table.remove] at hd
  | e :: rest, hnodup, hd => by
    obtain ⟨hnot, hrest⟩ := nodup_cons.mp hnodup
    simp only [Table.remove, eraseP_cons] at hd
    cases he : e.name == name with
    | true =>
      rw [he, cond_true] at hd
      rintro rfl
      exact hnot (eq_of_beq he ▸ mem_map_of_mem hd)
    | false =>
      rw [he, cond_false] at hd
      rcases mem_cons.mp hd with rfl | hd
      · exact ne_of_beq_false he
      · exact name_ne_of_mem_remove hrest hd

theorem Table.remove_eq_self {t : Table} {name : Text} (h : name ∉ t.names) :
    t.remove name = t := by
  have hnot : ∀ d ∈ t.entries, ¬ (d.name == name) = true := by
    intro d hd heq
    exact h (mem_map.mpr ⟨d, hd, eq_of_beq heq⟩)
  rw [Table.remove, eraseP_of_forall_not hnot]

namespace Program

variable {names : List Text}

theorem foldl_remove (names : List Text) : ∀ p : Program,
    (names.foldl remove p).globals = p.globals ∧ (names.foldl remove p).scripts = p.scripts ∧
      (names.foldl remove p).table.entries.Sublist p.table.entries := by
  induction names with
  | nil => exact fun p => ⟨rfl, rfl, Sublist.refl _⟩
  | cons n rest ih =>
    intro p
    obtain ⟨hg, hs, ht⟩ := ih (p.remove n)
    exact ⟨hg, hs, ht.trans (Table.remove_sublist p.table n)⟩

/-- What is left in the table has none of the names. -/
theorem name_not_mem_of_foldl_remove {d : DeclId} : ∀ {p : Program},
    p.table.names.Nodup → d ∈ (names.foldl remove p).table.entries → d.name ∉ names := by
  induction names with
  | nil => exact fun _ _ => not_mem_nil
  | cons n rest ih =>
    intro p hp hd hmem
    have hsub := Table.remove_sublist p.table n
    have hp' : (p.remove n).table.names.Nodup := hp.sublist (hsub.map _)
    rcases mem_cons.mp hmem with rfl | hmem
    · have hd' := (foldl_remove rest (p.remove d.name)).2.2.subset hd
      exact Table.name_ne_of_mem_remove hp hd' rfl
    · exact ih hp' hd hmem

theorem foldl_remove_eq_self {p : Program} (h : ∀ name ∈ names, name ∉ p.table.names) :
    names.foldl remove p = p := by
  induction names with
  | nil => rfl
  | cons name rest ih =>
    rw [forall_mem_cons] at h
    rw [foldl_cons, remove, Table.remove_eq_self h.1]
    exact ih h.2

theorem mem_foldl_remove {d : DeclId} : ∀ {p : Program},
    d ∈ p.table.entries → d.name ∉ names → d ∈ (names.foldl remove p).table.entries := by
  induction names with
  | nil => exact fun hd _ => hd
  | cons name rest ih =>
    intro p hd hnot
    rw [mem_cons, not_or] at hnot
    refine ih ?_ hnot.2
    rw [remove, Table.remove, mem_eraseP_of_neg (by simpa using hnot.1)]
    exact hd

end Program

end HaloScript
