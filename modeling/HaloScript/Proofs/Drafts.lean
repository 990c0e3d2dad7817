/-
# Drafts

Loading turns top-level forms into declarations one after another, and links them at the end.
A draft is what has been declared so far, as outlines: those the table lists, and all that were
ever entered, because a stub that has been replaced is linked as well.

Declaring follows the draft (`Drafting.forms_drawn`), and linking links the outlines in the
directory of the draft and reports an error exactly if a global is called
(`Program.resolveAll_drawn`).
-/
import HaloScript.Proofs.Collections
import HaloScript.Proofs.Grammar
import HaloScript.Proofs.Loading

namespace HaloScript

open List Option Program

/-! ## 1. Declaring, on outlines -/

namespace DeclOutline

/-- Whether a new declaration may stand beside the one its name has. -/
def admit? : DeclOutline → DeclOutline → Option Admission
  | .script oldKind oldType _ _ _, .script kind type _ _ _ =>
    if oldType ≠ type then none
    else if kind = .stub ∧ oldKind = .static then some .ignore
    else if kind = .static ∧ oldKind = .stub then some .enter
    else none
  | _, _ => none

theorem admit?_outline (place : DeclId → Option Nat) (old new : Declaration) :
    admit? (old.outline place) (new.outline place) = (Admission.decide old new).toOption := by
  cases old <;> cases new <;> try rfl
  next o n =>
    rw [Declaration.outline, Declaration.outline, admit?, Admission.decide]
    split
    · rfl
    · split
      · rfl
      · split <;> rfl

end DeclOutline

/-- What has been declared. -/
structure Draft where
  /-- The declarations the table lists, in its order. -/
  listed : List DeclOutline := []
  /-- The declarations that were entered, the last one first. -/
  entered : List DeclOutline := []

namespace Draft

def enter (d : Draft) (new : DeclOutline) : Draft :=
  ⟨insertNamed DeclOutline.name new d.listed, new :: d.entered⟩

def enter? (d : Draft) (new : DeclOutline) : Option Draft :=
  match d.listed.find? (·.name == new.name) with
  | none => some (d.enter new)
  | some old => (old.admit? new).map fun
    | .enter => d.enter new
    | .ignore => d

def form? (d : Draft) (items : List Shape) : Option Draft :=
  (Shape.declaration? items).bind fun
    | none => some d
    | some new => d.enter? new

def forms? (d : Draft) : List (List Shape) → Option Draft
  | [] => some d
  | items :: rest => (d.form? items).bind fun d' => d'.forms? rest

/-- What the names of the draft mean. -/
def directory (d : Draft) : Directory := DeclOutline.directory d.listed

end Draft

/-! ## 2. Declaring follows the draft -/

namespace Program

variable {p : Program} {new : Declaration}

def outlineOf (p : Program) (place : DeclId → Option Nat) (e : DeclId) : Option DeclOutline :=
  (p.declaration? e).map (Declaration.outline place)

theorem map_outline_declarations (p : Program) (place : DeclId → Option Nat) :
    p.declarations.map (Declaration.outline place) =
      p.table.entries.filterMap (p.outlineOf place) := by
  rw [declarations, map_filterMap]
  rfl

theorem Tidy.find?_eq (hp : p.Tidy) (name : Text) :
    p.find? name = p.declarations.find? (·.id.name == name) := by
  rw [find?, Table.get?, ← hp.map_id_declarations, find?_map]
  cases hfind : p.declarations.find? ((fun d => d.name == name) ∘ Declaration.id) with
  | none => exact hfind.symm
  | some =>
    have hd := (hp.mem_declarations.mp (mem_of_find?_eq_some hfind)).1
    rw [map_some, bind_some, hp.declaration?_id hd]
    exact hfind.symm

theorem mem_all_declare {new d : Declaration} : d ∈ (p.declare new).all ↔ d = new ∨ d ∈ p.all := by
  cases new with
  | global => cases d <;> simp [declare, all, or_comm]
  | script => cases d <;> simp [declare, all, or_comm]

theorem Tidy.declarations_declare (hp : p.Tidy) (hp' : (p.declare new).Tidy) :
    (p.declare new).declarations = insertNamed (·.id.name) new p.declarations := by
  refine hp'.declarations_eq ?_ fun d hd => ?_
  · have htable : (p.declare new).table.entries = Table.insert new.id p.table.entries := by
      cases new <;> rfl
    rw [htable, Table.insert_eq, ← hp.map_id_declarations]
    exact insertNamed_map _ (fun _ => rfl) _ _
  · rcases mem_insertNamed hd with rfl | hd
    · exact mem_all_declare.mpr (.inl rfl)
    · exact mem_all_declare.mpr (.inr (hp.mem_declarations.mp hd).1)

theorem Tidy.declaration?_declare (hp : p.Tidy) (hp' : (p.declare new).Tidy) {e : DeclId}
    (he : e ∈ p.allIds) : (p.declare new).declaration? e = p.declaration? e := by
  rw [allIds_eq_map, List.mem_map] at he
  obtain ⟨d, hd, rfl⟩ := he
  rw [hp.declaration?_id hd, hp'.declaration?_id (mem_all_declare.mpr (.inr hd))]

/-- A new declaration has a reference of its own. -/
theorem Tidy.id_not_mem (hp' : (p.declare new).Tidy) : new.id ∉ p.allIds := by
  have hnodup := hp'.allIds_nodup
  intro hmem
  cases new with
  | global g =>
    have hids : (p.declare (.global g)).allIds.Perm (.global g.id :: p.allIds) := by
      simp only [allIds, declare, Array.toList_push, map_append, map_cons, map_nil]
      simp
    exact (nodup_cons.mp (hids.nodup_iff.mp hnodup)).1 hmem
  | script s =>
    have hids : (p.declare (.script s)).allIds.Perm (.script s.id :: p.allIds) := by
      simp only [allIds, declare, Array.toList_push, map_append, map_cons, map_nil,
        ← append_assoc]
      exact perm_append_singleton _ _
    exact (nodup_cons.mp (hids.nodup_iff.mp hnodup)).1 hmem

end Program

namespace Drafting

/-- A program whose declarations, not linked yet, are those of a draft. -/
structure Drawn (d : Drafting) (ds : Draft) : Prop where
  tidy : d.program.Tidy
  listed : ∀ place, d.program.declarations.map (Declaration.outline place) = ds.listed
  entered : ∀ place, d.added.filterMap (d.program.outlineOf place) = ds.entered
  known : ∀ e ∈ d.added, e ∈ d.program.allIds
  nodup : d.added.Nodup
  covers : ∀ e ∈ d.program.allIds, e ∈ d.added

theorem drawn_empty : Drawn { program := {} } {} where
  tidy := tidy_empty
  listed _ := rfl
  entered _ := rfl
  known _ h := absurd h not_mem_nil
  nodup := nodup_nil
  covers _ h := absurd h not_mem_nil

variable {d : Drafting} {ds : Draft} {new : Declaration} {o : DeclOutline}

theorem Drawn.withNext (h : d.Drawn ds) (next : NodeId) :
    Drawn { d with program := { d.program with nextNode := next } } ds :=
  ⟨⟨h.tidy.globalSerial, h.tidy.scriptSerial, h.tidy.known, h.tidy.names⟩, h.listed, h.entered,
    h.known, h.nodup, h.covers⟩

section

variable (h : d.Drawn ds) (hnew : (d.program.declare new).Tidy)
  (ho : ∀ place, new.outline place = o)

include h hnew ho

/-- Declaring something keeps program and draft in step.  It has to come with the next serial
number, or the program would not be tidy (`hnew`). -/
theorem Drawn.enter : Drawn ⟨d.program.declare new, new.id :: d.added⟩ (ds.enter o) where
  tidy := hnew
  listed place := by
    dsimp only [Draft.enter]
    rw [h.tidy.declarations_declare hnew, ← h.listed place, ← ho place]
    exact insertNamed_map _ (fun x => by cases x <;> rfl) _ _
  entered place := by
    have hself : (d.program.declare new).outlineOf place new.id = some o := by
      rw [outlineOf, hnew.declaration?_id (mem_all_declare.mpr (.inl rfl)),
        map_some, ho place]
    dsimp only [Draft.enter]
    rw [filterMap_cons_some hself, ← h.entered place]
    refine congrArg _ (filterMap_congr fun e he => ?_)
    rw [outlineOf, h.tidy.declaration?_declare hnew (h.known e he)]
    rfl
  known e he := by
    rw [allIds_eq_map, List.mem_map]
    rcases mem_cons.mp he with rfl | he
    · exact ⟨new, mem_all_declare.mpr (.inl rfl), rfl⟩
    · have hmem := h.known e he
      rw [allIds_eq_map, List.mem_map] at hmem
      obtain ⟨d', hd', rfl⟩ := hmem
      exact ⟨d', mem_all_declare.mpr (.inr hd'), rfl⟩
  nodup := nodup_cons.mpr
    ⟨fun hmem => Tidy.id_not_mem hnew (h.known _ hmem), h.nodup⟩
  covers e he := by
    rw [allIds_eq_map, List.mem_map] at he
    obtain ⟨d', hd', rfl⟩ := he
    rcases mem_all_declare.mp hd' with rfl | hd'
    · exact mem_cons_self
    · refine mem_cons_of_mem _ (h.covers _ ?_)
      rw [allIds_eq_map]
      exact List.mem_map_of_mem hd'

/-- The outcome of declaring beside the outcome on outlines. -/
inductive Outcome : Except SourceError Drafting → Option Draft → Prop
  | stopped (e : SourceError) : Outcome (.error e) none
  | drawn {d : Drafting} {ds : Draft} (h : d.Drawn ds) : Outcome (.ok d) (some ds)

/-- Program and draft agree on whether a declaration is admitted, and stay in step if it is. -/
theorem enter?_drawn : Outcome (d.enter? new) (ds.enter? o) := by
  have hname : ∀ d' : Declaration, (d'.outline fun _ => none).name = d'.id.name := by
    intro d'
    cases d' <;> rfl
  have hfind : ds.listed.find? (·.name == o.name) =
      (d.program.find? new.id.name).map (Declaration.outline fun _ => none) := by
    rw [h.tidy.find?_eq, ← h.listed fun _ => none, find?_map, ← ho fun _ => none, hname]
    refine congrArg _ (congrArg (List.find? · _) (funext fun d' => ?_))
    rw [Function.comp, hname]
  unfold enter? Draft.enter?
  rw [hfind]
  cases d.program.find? new.id.name with
  | none => exact .drawn (h.enter hnew ho)
  | some old =>
    have hadmit := DeclOutline.admit?_outline (fun _ => none) old new
    rw [ho] at hadmit
    simp only [map_some, hadmit]
    cases Admission.decide old new with
    | error => exact .stopped _
    | ok a =>
      cases a with
      | enter => exact .drawn (h.enter hnew ho)
      | ignore => exact .drawn h

end

/-- **Declaring a form** follows the draft. -/
theorem form_drawn (h : d.Drawn ds) (f : Form) :
    Outcome (d.form f) (ds.form? (Form.shapes f.items)) := by
  have hbuilt := Build.declaration_refines d.program f d.program.nextNode
  unfold form Draft.form? StateT.run
  cases hrun : Build.declaration d.program f d.program.nextNode with
  | error e =>
    rw [hrun] at hbuilt
    generalize Shape.declaration? (Form.shapes f.items) = reading at hbuilt
    cases hbuilt
    exact .stopped e
  | ok r =>
    obtain ⟨decl, next⟩ := r
    rw [hrun] at hbuilt
    generalize Shape.declaration? (Form.shapes f.items) = reading at hbuilt
    cases hbuilt with
    | given _ ho =>
      rename_i o
      cases decl with
      | none =>
        have hnone : o = none := (ho fun _ => none).symm
        subst hnone
        exact .drawn h
      | some new =>
        have hsome : o = some (new.outline fun _ => none) := (ho fun _ => none).symm
        subst hsome
        refine enter?_drawn (h.withNext next) ?_ fun place => some.inj (ho place)
        have htidy := (h.withNext next).tidy
        rcases Build.declaration_id hrun with ⟨g, name, rfl, hid⟩ | ⟨s, name, rfl, hid⟩
        · exact htidy.declare_global (by rw [hid]; rfl)
        · exact htidy.declare_script (by rw [hid]; rfl)

/-- **Declaring the forms of a source** follows the draft. -/
theorem forms_drawn (fs : List Form) : ∀ {d : Drafting} {ds : Draft}, d.Drawn ds →
    match ds.forms? (fs.map fun f => Form.shapes f.items) with
    | none => (d.forms fs).2.isSome = true
    | some ds' => (d.forms fs).2 = none ∧ (d.forms fs).1.Drawn ds' := by
  induction fs with
  | nil => exact fun h => ⟨rfl, h⟩
  | cons f rest ih =>
    intro d ds h
    have hform := form_drawn h f
    unfold forms
    rw [map_cons, Draft.forms?]
    generalize d.form f = out at hform
    generalize ds.form? (Form.shapes f.items) = reading at hform
    cases hform with
    | stopped => rfl
    | drawn h' => exact ih h'

end Drafting

/-! ## 3. Linking a draft -/

/-- The first element with a name is found where it stands first. -/
theorem idxOf?_of_find? {es : List DeclId} {name : Text} {e : DeclId}
    (h : es.find? (·.name == name) = some e) :
    ∃ k, es.findIdx? (·.name == name) = some k ∧ es[k]? = some e ∧ es.idxOf? e = some k := by
  have hname : e.name = name := by simpa using find?_some h
  cases hidx : es.findIdx? (·.name == name) with
  | none =>
    rw [findIdx?_eq_none_iff] at hidx
    exact absurd hname (by simpa using hidx e (mem_of_find?_eq_some h))
  | some k =>
    have hat : es[k]? = some e := by rw [← h, find?_eq_bind_findIdx?_getElem?, hidx]; rfl
    refine ⟨k, rfl, hat, ?_⟩
    obtain ⟨hk, -, hbefore⟩ := findIdx?_eq_some_iff_getElem.mp hidx
    rw [List.idxOf?, findIdx?_eq_some_iff_getElem]
    refine ⟨hk, ?_, fun j hj => ?_⟩
    · rw [getElem?_eq_getElem hk, some_inj] at hat
      simp [hat]
    · have hne := hbefore j hj
      intro heq
      rw [eq_of_beq heq] at hne
      exact hne (by simp [hname])

namespace Program

variable {p : Program}

/-- **The names of the table** mean what the directory of its outlines says. -/
theorem Tidy.charted (hp : p.Tidy) {place : DeclId → Option Nat} {os : List DeclOutline}
    (hos : p.declarations.map (Declaration.outline place) = os) :
    (p.table.scope []).Charted p.place (DeclOutline.directory os) := by
  have hscope : ∀ name, p.table.scope [] name = p.table.entries.find? (·.name == name) :=
    fun name => rfl
  have hname : ∀ name, ((fun o : DeclOutline => o.name == name) ∘ Declaration.outline place) =
      (fun e : DeclId => e.name == name) ∘ Declaration.id := by
    intro name
    funext d
    cases d <;> rfl
  have hidx : ∀ name, os.findIdx? (·.name == name) = p.table.entries.findIdx? (·.name == name) := by
    intro name
    rw [← hos, ← hp.map_id_declarations, findIdx?_map, findIdx?_map, hname]
  constructor
  · intro name h
    rw [hscope, find?_eq_none] at h
    rw [DeclOutline.directory, hidx, findIdx?_eq_none_iff.mpr fun e he => by simpa using h e he]
    rfl
  · intro name e h
    rw [hscope] at h
    obtain ⟨k, hk, hat, hplace⟩ := idxOf?_of_find? h
    refine ⟨by simpa using find?_some h, k, hplace, ?_⟩
    rw [← hp.map_id_declarations, getElem?_map] at hat
    obtain ⟨d, hd, rfl⟩ := map_eq_some_iff.mp hat
    rw [DeclOutline.directory, hidx, hk, bind_some, ← hos, getElem?_map, hd]
    cases d <;> rfl

/-- Linking a declaration links its outline and changes no other; there is an error exactly if a
global is called. -/
theorem Tidy.resolve_drawn (hp : p.Tidy) {dir : Directory}
    (hc : (p.table.scope []).Charted p.place dir) {d : Declaration} (hd : d ∈ p.all) (r : Report) :
    (∀ d' ∈ (p.resolve d.id r).1.all,
        (d'.id = d.id ∧ d'.outline p.place = (d.outline p.place).link dir) ∨
          (d' ∈ p.all ∧ d'.id ≠ d.id)) ∧
      (p.resolve d.id r).2.hasErrors =
        (r.hasErrors || (d.outline p.place).callsGlobal dir) := by
  cases d with
  | global g =>
    have hg : p.declaration? (.global g.id) = some (.global g) := hp.declaration?_id hd
    have hcg := Table.charted_without hc []
    obtain ⟨hv, herr⟩ := Value.outline_resolve hcg g.value r
    have hrun : p.resolve (Declaration.global g).id r =
        (p.setGlobal { g with value := (g.value.resolve (p.table.scope []) r).1 },
          (g.value.resolve (p.table.scope []) r).2) := by
      rw [Declaration.id, resolve, hg]
      rfl
    rw [hrun]
    refine ⟨fun d' hd' => ?_, ?_⟩
    · rcases hp.mem_all_setGlobal hd' with rfl | h
      · refine .inl ⟨rfl, ?_⟩
        rw [Declaration.outline, Declaration.outline, hv]
        rfl
      · exact .inr h
    · simp [herr, DeclOutline.callsGlobal, Declaration.outline, DeclOutline.values,
        DeclOutline.hidden, Outline.callsGlobalAll]
  | script s =>
    have hs : p.declaration? (.script s.id) = some (.script s) := hp.declaration?_id hd
    have hcs := Table.charted_without hc (if s.isMacro then s.params else [])
    obtain ⟨hv, herr⟩ := Value.outlineAll_resolveAll hcs s.body r
    have hrun : p.resolve (Declaration.script s).id r =
        (p.setScript { s with body := (Value.resolveAll
            (p.table.scope (if s.isMacro then s.params else [])) s.body r).1 },
          (Value.resolveAll (p.table.scope (if s.isMacro then s.params else [])) s.body r).2) := by
      rw [Declaration.id, resolve, hs]
      rfl
    rw [hrun]
    refine ⟨fun d' hd' => ?_, ?_⟩
    · rcases hp.mem_all_setScript hd' with rfl | h
      · refine .inl ⟨rfl, ?_⟩
        rw [Declaration.outline, Declaration.outline, hv]
        rfl
      · exact .inr h
    · exact herr

/-- Linking one declaration changes its own outline and no other, and it fails exactly if the
declaration calls a global. -/
theorem Tidy.outlineOf_resolve (hp : p.Tidy) {dir : Directory}
    (hc : (p.table.scope []).Charted p.place dir) {e : DeclId} (he : e ∈ p.allIds) (r : Report) :
    (∀ e' ∈ p.allIds, (p.resolve e r).1.outlineOf p.place e' =
        if e' = e then (p.outlineOf p.place e').map (DeclOutline.link dir)
        else p.outlineOf p.place e') ∧
      (p.resolve e r).2.hasErrors =
        (r.hasErrors || (p.outlineOf p.place e).any (DeclOutline.callsGlobal dir)) := by
  rw [allIds_eq_map, List.mem_map] at he
  obtain ⟨d, hd, rfl⟩ := he
  obtain ⟨hall, herr⟩ := hp.resolve_drawn hc hd r
  obtain ⟨halike, htable⟩ := resolve_alike hp d.id r
  have hp' := hp.of_alike halike (by rw [htable])
  have hself : p.outlineOf p.place d.id = some (d.outline p.place) := by
    rw [outlineOf, hp.declaration?_id hd, map_some]
  refine ⟨fun e' he' => ?_, by rw [herr, hself, any_some]⟩
  rw [halike.allIds_eq, allIds_eq_map, List.mem_map] at he'
  obtain ⟨d', hd', rfl⟩ := he'
  rw [outlineOf, hp'.declaration?_id hd', map_some]
  rcases hall d' hd' with ⟨hid, hlinked⟩ | ⟨hmem, hne⟩
  · rw [if_pos hid, hid, hself, hlinked, map_some]
  · rw [if_neg hne, outlineOf, hp.declaration?_id hmem, map_some]

/-- **Linking several declarations** links their outlines; there is an error exactly if a global is
called in one of them. -/
theorem Tidy.resolveAll_drawn (es : List DeclId) : ∀ {p : Program}, p.Tidy → ∀ {dir : Directory},
    (p.table.scope []).Charted p.place dir → (∀ e ∈ es, e ∈ p.allIds) → es.Nodup → ∀ r : Report,
    (∀ e' ∈ p.allIds, (p.resolveAll es r).1.outlineOf p.place e' =
        if e' ∈ es then (p.outlineOf p.place e').map (DeclOutline.link dir)
        else p.outlineOf p.place e') ∧
      (p.resolveAll es r).2.hasErrors =
        (r.hasErrors ||
          (es.filterMap (p.outlineOf p.place)).any (DeclOutline.callsGlobal dir)) := by
  induction es with
  | nil =>
    intro p _ dir _ _ _ r
    have hrun : p.resolveAll [] r = (p, r) := rfl
    rw [hrun]
    exact ⟨fun e' _ => rfl, by simp⟩
  | cons e rest ih =>
    intro p hp dir hc hes hnodup r
    rw [forall_mem_cons] at hes
    rw [nodup_cons] at hnodup
    obtain ⟨hstep, herr⟩ := hp.outlineOf_resolve hc hes.1 r
    obtain ⟨halike, htable⟩ := resolve_alike hp e r
    have hp' := hp.of_alike halike (by rw [htable])
    have hplace : (p.resolve e r).1.place = p.place := by
      funext e'
      rw [place, place, htable]
    have hc' : ((p.resolve e r).1.table.scope []).Charted (p.resolve e r).1.place dir := by
      rw [htable, hplace]
      exact hc
    obtain ⟨hrest, herrs⟩ := ih hp' hc' (fun e' he' => halike.allIds_eq ▸ hes.2 e' he') hnodup.2
      (p.resolve e r).2
    rw [hplace] at hrest herrs
    have hrun :
        p.resolveAll (e :: rest) r = (p.resolve e r).1.resolveAll rest (p.resolve e r).2 := rfl
    -- the declarations still to be linked are as they were
    have hsame : rest.filterMap ((p.resolve e r).1.outlineOf p.place) =
        rest.filterMap (p.outlineOf p.place) :=
      filterMap_congr fun e' he' => by
        have hne : e' ≠ e := fun h => hnodup.1 (h ▸ he')
        rw [hstep e' (hes.2 e' he'), if_neg hne]
    rw [hrun]
    refine ⟨fun e' he' => ?_, ?_⟩
    · rw [hrest e' (halike.allIds_eq ▸ he'), hstep e' he']
      by_cases heq : e' = e
      · subst heq
        simp [hnodup.1]
      · simp [heq]
    · rw [herrs, herr, hsame, Bool.or_assoc]
      refine congrArg _ ?_
      cases hout : p.outlineOf p.place e with
      | none => rw [filterMap_cons_none hout, any_none, Bool.false_or]
      | some => rw [filterMap_cons_some hout, any_some, any_cons]

end Program

/-- **Linking what has been declared** gives the outlines of the draft, linked in its directory. -/
theorem Drafting.Drawn.resolveAll {d : Drafting} {ds : Draft} (h : d.Drawn ds) (r : Report) :
    (d.program.resolveAll d.added.reverse r).1.outline =
      ds.listed.map (DeclOutline.link ds.directory) ∧
      (∀ d' ∈ (d.program.resolveAll d.added.reverse r).1.all,
        ∃ o ∈ ds.entered, d'.outline d.program.place = o.link ds.directory) ∧
      (d.program.resolveAll d.added.reverse r).2.hasErrors =
        (r.hasErrors || ds.entered.any (DeclOutline.callsGlobal ds.directory)) := by
  have hlisted := h.listed d.program.place
  have hcharted := h.tidy.charted hlisted
  obtain ⟨hout, herr⟩ := Tidy.resolveAll_drawn d.added.reverse h.tidy hcharted
    (fun e he => h.known e (mem_reverse.mp he)) (nodup_reverse.mpr h.nodup) r
  obtain ⟨halike, htable⟩ := resolveAll_alike d.added.reverse h.tidy r
  have hlinked : ∀ e ∈ d.program.allIds,
      (d.program.resolveAll d.added.reverse r).1.outlineOf d.program.place e =
        (d.program.outlineOf d.program.place e).map (DeclOutline.link ds.directory) := by
    intro e he
    rw [hout e he, if_pos (mem_reverse.mpr (h.covers e he))]
    rfl
  refine ⟨?_, fun d' hd' => ?_, ?_⟩
  · have hplace : (d.program.resolveAll d.added.reverse r).1.place = d.program.place := by
      funext e
      rw [place, place, htable]
    rw [outline, hplace, map_outline_declarations, htable, ← hlisted,
      map_outline_declarations, map_filterMap]
    exact filterMap_congr fun e he => hlinked e (h.tidy.known e he)
  · have hid : d'.id ∈ d.program.allIds := by
      rw [halike.allIds_eq, allIds_eq_map]
      exact List.mem_map_of_mem hd'
    have htidy := h.tidy.of_alike halike (by rw [htable])
    have hd'' := hlinked d'.id hid
    rw [outlineOf, htidy.declaration?_id hd', map_some] at hd''
    obtain ⟨o, ho, hlink⟩ := map_eq_some_iff.mp hd''.symm
    refine ⟨o, ?_, hlink.symm⟩
    rw [← h.entered d.program.place, mem_filterMap]
    exact ⟨d'.id, h.covers _ hid, ho⟩
  · rw [herr, filterMap_reverse, any_reverse, h.entered]
    rfl

end HaloScript
