/-
# What a walk leaves alone

A walk edits the values of globals, the bodies of scripts and whether globals are constant.
Everything else about a declaration is its signature, and signatures are kept, declaration by
declaration.

A program is tidy if its declarations stand at their serial numbers, and its table names known
declarations, each name once.  Building makes a program tidy (`Proofs/Loading`); everything
that keeps signatures and only shortens the table keeps it tidy.
-/
import HaloScript.Proofs.Collections
import HaloScript.Proofs.Parts
import Mathlib.Data.List.Nodup

namespace HaloScript

open List

/-! ## 1. Signatures -/

def DeclId.serial : DeclId → Nat
  | .global g => g.serial
  | .script s => s.serial

def Global.signature (g : Global) : Global :=
  { g with isConst := false, value := default }

def Script.signature (s : Script) : Script := { s with body := [] }

theorem Global.id_eq_of_signature {g g' : Global} (h : g.signature = g'.signature) :
    g.id = g'.id := by
  have := congrArg Global.id h
  exact this

theorem Script.id_eq_of_signature {s s' : Script} (h : s.signature = s'.signature) :
    s.id = s'.id := by
  have := congrArg Script.id h
  exact this

theorem Script.kind_eq_of_signature {s s' : Script} (h : s.signature = s'.signature) :
    s.kind = s'.kind := by
  have := congrArg Script.kind h
  exact this

namespace Program

variable {p : Program}

def all (p : Program) : List Declaration :=
  p.globals.toList.map .global ++ p.scripts.toList.map .script

theorem mem_all_global {g : Global} : Declaration.global g ∈ p.all ↔ g ∈ p.globals := by
  simp [all]

theorem mem_all_script {s : Script} : Declaration.script s ∈ p.all ↔ s ∈ p.scripts := by
  simp [all]

theorem allIds_eq_map (p : Program) : p.allIds = p.all.map Declaration.id := by
  rw [allIds, all, map_append, map_map, map_map]
  rfl

/-- Two programs with the same declarations, up to what a walk may change. -/
structure Alike (p p' : Program) : Prop where
  globals : p.globals.map Global.signature = p'.globals.map Global.signature
  scripts : p.scripts.map Script.signature = p'.scripts.map Script.signature

namespace Alike

variable {p p' : Program}

theorem refl (p : Program) : Alike p p := ⟨rfl, rfl⟩

theorem symm (h : Alike p p') : Alike p' p := ⟨h.globals.symm, h.scripts.symm⟩

theorem trans {p p' p'' : Program} (h : Alike p p') (h' : Alike p' p'') : Alike p p'' :=
  ⟨h.globals.trans h'.globals, h.scripts.trans h'.scripts⟩

theorem getElem?_globals (h : Alike p p') {i : Nat} {g : Global} (hg : p.globals[i]? = some g) :
    ∃ g', p'.globals[i]? = some g' ∧ g.signature = g'.signature := by
  have hi := congrArg (·[i]?) h.globals
  simp only [Array.getElem?_map, hg, Option.map_some] at hi
  obtain ⟨g', hg', hs⟩ := Option.map_eq_some_iff.mp hi.symm
  exact ⟨g', hg', hs.symm⟩

theorem getElem?_scripts (h : Alike p p') {i : Nat} {s : Script} (hs : p.scripts[i]? = some s) :
    ∃ s', p'.scripts[i]? = some s' ∧ s.signature = s'.signature := by
  have hi := congrArg (·[i]?) h.scripts
  simp only [Array.getElem?_map, hs, Option.map_some] at hi
  obtain ⟨s', hs', hsig⟩ := Option.map_eq_some_iff.mp hi.symm
  exact ⟨s', hs', hsig.symm⟩

theorem allIds_eq (h : Alike p p') : p.allIds = p'.allIds := by
  have hg : ∀ q : Program, q.globals.toList.map (DeclId.global ·.id) =
      (q.globals.map Global.signature).toList.map (DeclId.global ·.id) := by
    intro q
    simp [Global.signature]
  have hs : ∀ q : Program, q.scripts.toList.map (DeclId.script ·.id) =
      (q.scripts.map Script.signature).toList.map (DeclId.script ·.id) := by
    intro q
    simp [Script.signature]
  rw [allIds, allIds, hg p, hg p', hs p, hs p', h.globals, h.scripts]

end Alike

/-! ## 2. Replacing a declaration by one of the same signature -/

theorem alike_setGlobal {id : GlobalId} {g g' : Global} (hg : p.global? id = some g)
    (hserial : g'.id.serial = id.serial) (hs : g'.signature = g.signature) :
    Alike p (p.setGlobal g') := by
  refine ⟨?_, rfl⟩
  rw [setGlobal, hserial]
  exact (map_setIfInBounds_self _ _ _ g g' hg hs).symm

theorem alike_setScript {id : ScriptId} {s s' : Script} (hs : p.script? id = some s)
    (hserial : s'.id.serial = id.serial) (hsig : s'.signature = s.signature) :
    Alike p (p.setScript s') := by
  refine ⟨rfl, ?_⟩
  rw [setScript, hserial]
  exact (map_setIfInBounds_self _ _ _ s s' hs hsig).symm

@[simp] theorem table_setGlobal (p : Program) (g : Global) : (p.setGlobal g).table = p.table := rfl

@[simp] theorem table_setScript (p : Program) (s : Script) : (p.setScript s).table = p.table := rfl

/-! ## 3. Tidy programs -/

/-- Declarations stand at their serial numbers, and the table lists known declarations under
distinct names. -/
structure Tidy (p : Program) : Prop where
  globalSerial : ∀ (i : Nat) (g : Global), p.globals[i]? = some g → g.id.serial = i
  scriptSerial : ∀ (i : Nat) (s : Script), p.scripts[i]? = some s → s.id.serial = i
  known : ∀ d ∈ p.table.entries, d ∈ p.allIds
  names : p.table.names.Nodup

namespace Tidy

variable {p p' : Program} {d : Declaration}

section

variable (hp : p.Tidy)

include hp

/-- Tidiness is a matter of signatures and of the table. -/
theorem of_alike (h : Alike p p') (ht : p'.table.entries.Sublist p.table.entries) : p'.Tidy where
  globalSerial i g hg := by
    obtain ⟨g', hg', hs⟩ := h.symm.getElem?_globals hg
    rw [Global.id_eq_of_signature hs]
    exact hp.globalSerial i g' hg'
  scriptSerial i s hs := by
    obtain ⟨s', hs', hsig⟩ := h.symm.getElem?_scripts hs
    rw [Script.id_eq_of_signature hsig]
    exact hp.scriptSerial i s' hs'
  known d hd := h.allIds_eq ▸ hp.known d (ht.subset hd)
  names := hp.names.sublist (ht.map _)

theorem global?_id {g : Global} (hg : g ∈ p.globals) : p.global? g.id = some g := by
  obtain ⟨i, hi⟩ := Array.mem_iff_getElem?.mp hg
  rw [global?, hp.globalSerial i g hi, hi]

theorem script?_id {s : Script} (hs : s ∈ p.scripts) : p.script? s.id = some s := by
  obtain ⟨i, hi⟩ := Array.mem_iff_getElem?.mp hs
  rw [script?, hp.scriptSerial i s hi, hi]

theorem declaration?_id (hd : d ∈ p.all) : p.declaration? d.id = some d := by
  cases d with
  | global => simp [declaration?, Declaration.id, hp.global?_id (mem_all_global.mp hd)]
  | script => simp [declaration?, Declaration.id, hp.script?_id (mem_all_script.mp hd)]

theorem global?_of_mem_allIds {id : GlobalId} (h : .global id ∈ p.allIds) :
    ∃ g ∈ p.globals, p.global? id = some g ∧ g.id = id := by
  rw [allIds_eq_map, mem_map] at h
  obtain ⟨d, hd, hid⟩ := h
  cases d with
  | script => simp [Declaration.id] at hid
  | global g =>
    simp only [Declaration.id, DeclId.global.injEq] at hid
    have hg := mem_all_global.mp hd
    exact ⟨g, hg, hid ▸ hp.global?_id hg, hid⟩

theorem script?_of_mem_allIds {id : ScriptId} (h : .script id ∈ p.allIds) :
    ∃ s ∈ p.scripts, p.script? id = some s ∧ s.id = id := by
  rw [allIds_eq_map, mem_map] at h
  obtain ⟨d, hd, hid⟩ := h
  cases d with
  | global => simp [Declaration.id] at hid
  | script s =>
    simp only [Declaration.id, DeclId.script.injEq] at hid
    have hs := mem_all_script.mp hd
    exact ⟨s, hs, hid ▸ hp.script?_id hs, hid⟩

/-- After a global has been replaced, every other declaration is as it was. -/
theorem mem_all_setGlobal {g : Global} (h : d ∈ (p.setGlobal g).all) :
    d = .global g ∨ (d ∈ p.all ∧ d.id ≠ .global g.id) := by
  cases d with
  | script s =>
    have hs : s ∈ (p.setGlobal g).scripts := mem_all_script.mp h
    exact .inr ⟨mem_all_script.mpr hs, by simp [Declaration.id]⟩
  | global g' =>
    obtain ⟨i, hi⟩ := Array.mem_iff_getElem?.mp (mem_all_global.mp h)
    rw [setGlobal, Array.getElem?_setIfInBounds] at hi
    split at hi
    · split at hi
      · exact .inl (by injection hi with hi; rw [hi])
      · exact absurd hi (by simp)
    · next hne =>
      refine .inr ⟨mem_all_global.mpr (Array.mem_of_getElem? hi), fun hid => hne ?_⟩
      rw [← hp.globalSerial i g' hi]
      injection hid with hid
      rw [hid]

/-- After a script has been replaced, every other declaration is as it was. -/
theorem mem_all_setScript {s : Script} (h : d ∈ (p.setScript s).all) :
    d = .script s ∨ (d ∈ p.all ∧ d.id ≠ .script s.id) := by
  cases d with
  | global g =>
    have hg : g ∈ (p.setScript s).globals := mem_all_global.mp h
    exact .inr ⟨mem_all_global.mpr hg, by simp [Declaration.id]⟩
  | script s' =>
    obtain ⟨i, hi⟩ := Array.mem_iff_getElem?.mp (mem_all_script.mp h)
    rw [setScript, Array.getElem?_setIfInBounds] at hi
    split at hi
    · split at hi
      · exact .inl (by injection hi with hi; rw [hi])
      · exact absurd hi (by simp)
    · next hne =>
      refine .inr ⟨mem_all_script.mpr (Array.mem_of_getElem? hi), fun hid => hne ?_⟩
      rw [← hp.scriptSerial i s' hi]
      injection hid with hid
      rw [hid]

theorem allIds_nodup : p.allIds.Nodup := by
  rw [allIds, nodup_append]
  refine ⟨?_, ?_, ?_⟩
  · refine Nodup.of_map DeclId.serial ?_
    rw [map_map]
    exact nodup_serials p.globals _ hp.globalSerial
  · refine Nodup.of_map DeclId.serial ?_
    rw [map_map]
    exact nodup_serials p.scripts _ hp.scriptSerial
  · intro a ha b hb hab
    obtain ⟨g, -, rfl⟩ := mem_map.mp ha
    obtain ⟨s, -, rfl⟩ := mem_map.mp hb
    exact absurd hab (by simp)

theorem mem_declarations : d ∈ p.declarations ↔ d ∈ p.all ∧ d.id ∈ p.table.entries := by
  rw [declarations, mem_filterMap]
  constructor
  · rintro ⟨e, he, hd⟩
    have hknown := hp.known e he
    rw [allIds_eq_map, mem_map] at hknown
    obtain ⟨d', hd', rfl⟩ := hknown
    rw [hp.declaration?_id hd'] at hd
    cases hd
    exact ⟨hd', he⟩
  · rintro ⟨hd, he⟩
    exact ⟨d.id, he, hp.declaration?_id hd⟩

theorem map_id_declarations : p.declarations.map Declaration.id = p.table.entries := by
  unfold declarations
  have hknown := hp.known
  generalize p.table.entries = entries at hknown
  induction entries with
  | nil => rfl
  | cons d rest ih =>
    rw [forall_mem_cons] at hknown
    obtain ⟨d', hd', rfl⟩ := mem_map.mp (allIds_eq_map p ▸ hknown.1)
    rw [filterMap_cons_some (hp.declaration?_id hd'), map_cons, ih hknown.2]

theorem declarations_eq {ds : List Declaration} (hids : ds.map Declaration.id = p.table.entries)
    (hds : ∀ d ∈ ds, d ∈ p.all) : p.declarations = ds := by
  rw [declarations, ← hids]
  clear hids
  induction ds with
  | nil => rfl
  | cons d rest ih =>
    rw [forall_mem_cons] at hds
    rw [map_cons, filterMap_cons_some (hp.declaration?_id hds.1), ih hds.2]

end

end Tidy

end Program

end HaloScript
