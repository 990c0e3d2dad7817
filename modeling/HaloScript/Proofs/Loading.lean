/-
# Loaded programs

Loading declares, one after another, what the forms of a source say, and then links the names
in what was declared.  Every step keeps a program tidy (`Program.load_tidy`).
-/
import HaloScript.Build.Import
import HaloScript.Proofs.Building
import HaloScript.Proofs.Signature

namespace HaloScript

open List

/-! ## 1. The table -/

/-- Adds an element, in the place of the first with the same name if there is one. -/
def insertNamed {α : Type} (name : α → Text) (new : α) : List α → List α
  | [] => [new]
  | x :: rest => if name x == name new then new :: rest else x :: insertNamed name new rest

section InsertNamed

variable {α β : Type} {name : α → Text} {name' : β → Text} {xs : List α}

theorem insertNamed_map (f : α → β) (hf : ∀ x, name' (f x) = name x) (new : α) (xs : List α) :
    (insertNamed name new xs).map f = insertNamed name' (f new) (xs.map f) := by
  induction xs with
  | nil => rfl
  | cons x rest ih =>
    rw [insertNamed, map_cons, insertNamed, hf, hf]
    split
    · rfl
    · rw [map_cons, ih]

theorem mem_insertNamed {new x : α} (h : x ∈ insertNamed name new xs) : x = new ∨ x ∈ xs := by
  induction xs with
  | nil => exact .inl (by simpa [insertNamed] using h)
  | cons y rest ih =>
    rw [insertNamed] at h
    split at h
    · rcases mem_cons.mp h with rfl | h
      · exact .inl rfl
      · exact .inr (mem_cons_of_mem _ h)
    · rcases mem_cons.mp h with rfl | h
      · exact .inr mem_cons_self
      · exact (ih h).imp_right (mem_cons_of_mem _)

theorem insertNamed_of_new {new : α} (h : ∀ x ∈ xs, name x ≠ name new) :
    insertNamed name new xs = xs ++ [new] := by
  induction xs with
  | nil => rfl
  | cons x rest ih =>
    rw [forall_mem_cons] at h
    rw [insertNamed, if_neg (by simpa using h.1), ih h.2, cons_append]

/-- A name that is known keeps its place, and a new one comes last. -/
theorem map_name_insertNamed (name : α → Text) (new : α) (xs : List α) :
    (insertNamed name new xs).map name =
      if name new ∈ xs.map name then xs.map name else xs.map name ++ [name new] := by
  induction xs with
  | nil => simp [insertNamed]
  | cons x rest ih =>
    rw [insertNamed]
    by_cases hx : name x == name new
    · simp [eq_of_beq hx]
    · have hne : ¬ name new = name x := fun h => hx (by simp [h])
      by_cases hmem : name new ∈ rest.map name
      · rw [if_pos hmem] at ih
        simp [hx, ih, hmem]
      · rw [if_neg hmem] at ih
        simp [hx, ih, hmem, hne]

theorem find?_insertNamed (name : α → Text) (new : α) (xs : List α) (n : Text) :
    (insertNamed name new xs).find? (name · == n) =
      if name new = n then some new else xs.find? (name · == n) := by
  induction xs with
  | nil => by_cases hn : name new = n <;> simp [insertNamed, hn]
  | cons x rest ih =>
    rw [insertNamed]
    by_cases hx : name x = name new
    · by_cases hn : name new = n <;> simp [hx, hn]
    · rw [if_neg (by simpa using hx), find?_cons, find?_cons, ih]
      by_cases hn : name new = n
      · have hxn : (name x == n) = false := beq_eq_false_iff_ne.mpr (hn ▸ hx)
        simp [hxn, hn]
      · simp [hn]

theorem nodup_insertNamed {new : α} (h : (xs.map name).Nodup) :
    ((insertNamed name new xs).map name).Nodup := by
  rw [map_name_insertNamed]
  split
  · exact h
  · next hmem =>
    refine Nodup.append h (nodup_singleton _) ?_
    exact disjoint_singleton.mpr hmem

/-- Where names are distinct, a new element takes the place of the one with its name. -/
theorem mem_insertNamed_iff {new x : α} (h : (xs.map name).Nodup) :
    x ∈ insertNamed name new xs ↔ x = new ∨ (x ∈ xs ∧ name x ≠ name new) := by
  induction xs with
  | nil => simp [insertNamed]
  | cons y rest ih =>
    rw [map_cons, nodup_cons] at h
    rw [insertNamed]
    by_cases hy : name y == name new
    · have hy' := eq_of_beq hy
      have hrest : ∀ z ∈ rest, name z ≠ name new := fun z hz heq =>
        h.1 (hy' ▸ heq ▸ mem_map_of_mem hz)
      rw [if_pos hy, mem_cons, mem_cons]
      constructor
      · rintro (rfl | hx)
        · exact .inl rfl
        · exact .inr ⟨.inr hx, hrest x hx⟩
      · rintro (rfl | ⟨rfl | hx, hne⟩)
        · exact .inl rfl
        · exact absurd hy' hne
        · exact .inr hx
    · have hy' : name y ≠ name new := fun heq => hy (by simp [heq])
      rw [if_neg hy, mem_cons, mem_cons, ih h.2]
      constructor
      · rintro (rfl | rfl | ⟨hx, hne⟩)
        · exact .inr ⟨.inl rfl, hy'⟩
        · exact .inl rfl
        · exact .inr ⟨.inr hx, hne⟩
      · rintro (rfl | ⟨rfl | hx, hne⟩)
        · exact .inr (.inl rfl)
        · exact .inl rfl
        · exact .inr (.inr ⟨hx, hne⟩)

/-- Where names are distinct, a name leads to the element that has it. -/
theorem find?_name_iff (h : (xs.map name).Nodup) {n : Text} {x : α} :
    xs.find? (name · == n) = some x ↔ x ∈ xs ∧ name x = n := by
  constructor
  · intro hfind
    exact ⟨mem_of_find?_eq_some hfind, by simpa using find?_some hfind⟩
  · rintro ⟨hx, rfl⟩
    cases hfind : xs.find? (name · == name x) with
    | none => simpa using find?_eq_none.mp hfind x hx
    | some y =>
      have hname : name y = name x := by simpa using find?_some hfind
      rw [inj_on_of_nodup_map h (mem_of_find?_eq_some hfind) hx hname]

end InsertNamed

theorem Table.insert_eq (d : DeclId) (entries : List DeclId) :
    Table.insert d entries = insertNamed DeclId.name d entries := by
  induction entries with
  | nil => rfl
  | cons e rest ih => rw [Table.insert, insertNamed, ih]

namespace Table

theorem mem_add {t : Table} {d e : DeclId} (h : e ∈ (t.add d).entries) :
    e = d ∨ e ∈ t.entries := by
  rw [add, insert_eq] at h
  exact mem_insertNamed h

theorem nodup_names_add (t : Table) (d : DeclId) (h : t.names.Nodup) : (t.add d).names.Nodup := by
  unfold names add
  rw [insert_eq]
  exact nodup_insertNamed h

end Table

namespace Program

/-! ## 2. Declaring -/

theorem tidy_empty : Program.Tidy {} where
  globalSerial i g h := by simp at h
  scriptSerial i s h := by simp at h
  known d h := by simp at h
  names := by simp [Table.names]

theorem Tidy.declare_global {p : Program} (hp : p.Tidy) {g : Global}
    (hid : g.id.serial = p.globals.size) : (p.declare (.global g)).Tidy where
  globalSerial i g' h := by
    simp only [declare, Array.getElem?_push] at h
    split at h
    · next hi => rw [← Option.some.inj h, hid, hi]
    · exact hp.globalSerial i g' h
  scriptSerial := hp.scriptSerial
  known d h := by
    simp only [allIds, declare, Array.toList_push, map_append, mem_append]
    rcases Table.mem_add h with rfl | h
    · simp
    · rcases mem_append.mp (hp.known d h) with h | h
      · exact .inl (.inl h)
      · exact .inr h
  names := Table.nodup_names_add _ _ hp.names

theorem Tidy.declare_script {p : Program} (hp : p.Tidy) {s : Script}
    (hid : s.id.serial = p.scripts.size) : (p.declare (.script s)).Tidy where
  globalSerial := hp.globalSerial
  scriptSerial i s' h := by
    simp only [declare, Array.getElem?_push] at h
    split at h
    · next hi => rw [← Option.some.inj h, hid, hi]
    · exact hp.scriptSerial i s' h
  known d h := by
    simp only [allIds, declare, Array.toList_push, map_append, mem_append]
    rcases Table.mem_add h with rfl | h
    · simp
    · rcases mem_append.mp (hp.known d h) with h | h
      · exact .inl h
      · exact .inr (.inl h)
  names := Table.nodup_names_add _ _ hp.names

end Program

namespace Drafting

/-- **What declaring keeps, reading forms keeps.**  A form leaves a program as it is, or it uses up
numbers of nodes and may declare something. -/
theorem forms_keep {P : Program → Prop}
    (hform : ∀ {p : Program} {f : Form} {new : Declaration} {next : NodeId}, P p →
      (Build.declaration p f).run p.nextNode = .ok (some new, next) →
      P { p with nextNode := next } ∧ P ({ p with nextNode := next }.declare new))
    (fs : List Form) {d : Drafting} (hd : P d.program) : P (d.forms fs).1.program := by
  induction fs generalizing d with
  | nil => exact hd
  | cons f rest ih =>
    unfold forms
    split
    · next d' h =>
      refine ih ?_
      unfold form at h
      split at h
      · cases h
      · exact Except.ok.inj h ▸ hd
      · next new next hnew =>
        obtain ⟨hmoved, hdeclared⟩ := hform hd hnew
        unfold enter? at h
        split at h
        · exact Except.ok.inj h ▸ hdeclared
        · split at h
          · exact Except.ok.inj h ▸ hdeclared
          · exact Except.ok.inj h ▸ hmoved
          · cases h
    · exact hd

theorem forms_tidy (fs : List Form) {d : Drafting} (hd : d.program.Tidy) :
    (d.forms fs).1.program.Tidy := by
  refine forms_keep (fun {p f new next} hp hnew => ?_) fs hd
  have hmoved : Program.Tidy { p with nextNode := next } := { hp with }
  refine ⟨hmoved, ?_⟩
  rcases Build.declaration_id hnew with ⟨g, name, rfl, hid⟩ | ⟨s, name, rfl, hid⟩
  · exact hmoved.declare_global (by rw [hid]; rfl)
  · exact hmoved.declare_script (by rw [hid]; rfl)

end Drafting

namespace Program

/-! ## 3. Linking -/

/-- Linking a declaration keeps signatures and the table. -/
theorem resolve_alike {p : Program} (hp : p.Tidy) (d : DeclId) (r : Report) :
    Alike p (p.resolve d r).1 ∧ (p.resolve d r).1.table = p.table := by
  unfold resolve
  cases d with
  | global id =>
    cases hg : p.global? id with
    | none => simpa [declaration?, hg] using ⟨Alike.refl p, rfl⟩
    | some g =>
      simp only [declaration?, hg, Option.map_some]
      exact ⟨alike_setGlobal hg (hp.globalSerial _ g hg) rfl, rfl⟩
  | script id =>
    cases hs : p.script? id with
    | none => simpa [declaration?, hs] using ⟨Alike.refl p, rfl⟩
    | some s =>
      simp only [declaration?, hs, Option.map_some]
      exact ⟨alike_setScript hs (hp.scriptSerial _ s hs) rfl, rfl⟩

theorem resolveAll_alike (ds : List DeclId) : ∀ {p : Program}, p.Tidy → ∀ r : Report,
    Alike p (p.resolveAll ds r).1 ∧ (p.resolveAll ds r).1.table = p.table := by
  induction ds with
  | nil => exact fun {p} _ r => ⟨Alike.refl p, rfl⟩
  | cons d rest ih =>
    intro p hp r
    obtain ⟨halike, htable⟩ := resolve_alike hp d r
    have hp' := hp.of_alike halike (by rw [htable])
    obtain ⟨halike', htable'⟩ := ih hp' (p.resolve d r).2
    exact ⟨halike.trans halike', htable'.trans htable⟩

/-! ## 4. Loading -/

/-- **Loading keeps a program tidy**, whether it fails or not. -/
theorem load_tidy {p : Program} (hp : p.Tidy) (report : Report) (lib : Library) (entry : Entry) :
    (p.load report lib entry).program.Tidy := by
  unfold load declareAll
  dsimp only
  split
  · exact hp
  · generalize (gather _ lib entry).2 = pool
    have hd := Drafting.forms_tidy pool (d := { program := p }) hp
    split
    · exact hd
    · obtain ⟨halike, htable⟩ := resolveAll_alike _ hd _
      have htidy := hd.of_alike halike (by rw [htable])
      exact htidy

end Program

end HaloScript
