/-
# Links are entries of the table

Linking reads the table once everything has been declared.  So what a name is linked to can be
read off the finished program: it is the entry under that name, unless the name is a parameter of
the macro it stands in (`Program.load_links`).

Links are compared through outlines.  The outline of a linked declaration is its bare outline,
linked (`Value.outline_resolve`), and a value with such an outline has its links where the scope
has them (`Value.linked_of_outline`), because different entries stand at different places.

The order of declarations and of imports decides about the places in the table and about nothing
else.  Which declarations stay is said without it: all but the stubs for which there is a static
script (`Draft.forms?_listed`).
-/
import HaloScript.Proofs.RoundTrip

namespace HaloScript

open List Option Outline Declaration

/-! ## 1. What names are linked to -/

/-- The function name of a call.  That of a clause stands in no source. -/
def Head.name? (h : Head) : Option Text := if h.clause then none else some h.callee.name

namespace Declaration

def leaves (d : Declaration) : List Leaf := Value.leavesAll d.values

def hides (d : Declaration) (name : Text) : Bool :=
  match d with
  | .global _ => false
  | .script s => s.isMacro && s.isParam name

/-- The declaration as it is written: without links, places and numbers. -/
def bare (d : Declaration) : DeclOutline := (d.outline fun _ => none).strip

end Declaration

/-- What a name means inside a declaration: the entry of the table, unless it is a parameter. -/
def Program.meant? (p : Program) (d : Declaration) (name : Text) : Option DeclId :=
  if d.hides name then none else p.table.get? name

/-- A declaration as it is written, with what the names of its leaves and of its calls are linked
to, as that is written. -/
def Program.reading (p : Program) (d : Declaration) :
    DeclOutline × List (Option DeclOutline) × List (Option DeclOutline) :=
  (d.bare,
    d.leaves.map fun l => (l.target?.bind p.declaration?).map bare,
    d.calls.map fun h => (h.callee.target?.bind p.declaration?).map bare)

section Linked

variable {scope : Scope} {place : DeclId → Option Nat} {dir : Directory}

/-- Different references stand at different places. -/
def Apart (place : DeclId → Option Nat) : Prop :=
  ∀ d e k, place d = some k → place e = some k → d = e

theorem Program.place_apart (p : Program) : Apart p.place := by
  intro d e k hd he
  obtain ⟨_, hd, -⟩ := idxOf?_eq_some_iff.mp hd
  obtain ⟨_, he, -⟩ := idxOf?_eq_some_iff.mp he
  exact hd.symm.trans he

section

variable (hc : scope.Charted place dir)

include hc

/-- A name at a place that the directory has for it is what the scope knows. -/
theorem Scope.Charted.eq_some (hapart : Apart place) {name : Text} {b : Bool} {k : Nat} {d : DeclId}
    (hdir : dir name = some (b, k)) (hplace : place d = some k) : scope name = some d := by
  cases hscope : scope name with
  | none => simp [hc.unknown name hscope] at hdir
  | some e =>
    obtain ⟨-, k', hk', hdir'⟩ := hc.known name e hscope
    obtain ⟨-, rfl⟩ : _ ∧ k' = k := by simpa using hdir'.symm.trans hdir
    rw [hapart e d k' hk' hplace]

/-- A name the directory does not have is not known to the scope. -/
theorem Scope.Charted.eq_none {name : Text} (hdir : dir name = none) : scope name = none := by
  cases hscope : scope name with
  | none => rfl
  | some e =>
    obtain ⟨-, k, -, hdir'⟩ := hc.known name e hscope
    simp [hdir'] at hdir

/-- A leaf whose outline is the linked one has the target that its text has in scope.  Places have
to tell references apart, or an outline would not show which one is meant. -/
theorem Leaf.linked_of_outline (hapart : Apart place) {l : Leaf}
    (h : l.outline place = (l.outline place).strip.link dir) : l.target? = l.text?.bind scope := by
  have hdeclared : ∀ d : DeclId, d.leaf = l → l.target? = l.text?.bind scope := by
    rintro d rfl
    have hlink : Link.ofLeaf dir d.name = .declared (place d) := by
      cases d <;> simpa [DeclId.leaf, DeclId.name, outline, strip, link] using h.symm
    unfold Link.ofLeaf at hlink
    split at hlink
    · next k hdir =>
      have hscope := hc.eq_some hapart hdir (Link.declared.inj hlink).symm
      cases d <;> exact hscope.symm
    · exact Link.noConfusion hlink
  cases l with
  | blank => rfl
  | global g => exact hdeclared (.global g) rfl
  | script s => exact hdeclared (.script s) rfl
  | atom t =>
    have hlink : Link.word = Link.ofLeaf dir t := by
      simpa [outline, strip, link] using h
    unfold Link.ofLeaf at hlink
    split at hlink
    · exact Link.noConfusion hlink
    · next hdir => exact (hc.eq_none hdir).symm

/-- The head of a call whose outline is linked, if it calls no global. -/
theorem Callee.linked_of_outline (hapart : Apart place) {c : Callee}
    (h : c.link place = Link.ofCall dir c.name) (hglobal : (dir c.name).any (!·.1) = false) :
    c.target? = scope c.name := by
  unfold Link.ofCall at h
  cases c with
  | word t =>
    have hdir : dir t = none := by
      cases hdir : dir t with
      | none => rfl
      | some x =>
        obtain ⟨isScript, k⟩ := x
        obtain rfl : isScript = true := by simpa [Callee.name, hdir] using hglobal
        simp [Callee.link, Callee.name, hdir] at h
    exact (hc.eq_none hdir).symm
  | script =>
    split at h
    · next k hdir => exact (hc.eq_some hapart hdir (Link.declared.inj h)).symm
    · exact Link.noConfusion h

end

namespace Value

mutual

/-- **A value with a linked outline** has its links where the scope has them. -/
theorem linked_of_outline (hc : scope.Charted place dir) (hapart : Apart place) (v : Value)
    (h : v.outline place = (v.outline place).strip.link dir)
    (hglobal : (v.outline place).strip.callsGlobal dir = false) :
    v.Meets (fun l => l.target? = l.text?.bind scope)
      (fun c clause => c.target? = if clause then none else scope c.name) := by
  match v with
  | .leaf t l => exact (meets_leaf t l).mpr (Leaf.linked_of_outline hc hapart h)
  | .call t ⟨id, span, callee, clause⟩ args =>
    rw [outline, strip, callsGlobal, Bool.or_eq_false_iff] at hglobal
    rw [meets_call]
    have hparts : callee.link place = (if clause then .word else Link.ofCall dir callee.name) ∧
        outlineAll place args = linkAll dir (stripAll (outlineAll place args)) := by
      cases clause <;> simpa [outline, strip, link] using h
    refine ⟨?_, linkedAll_of_outline hc hapart args hparts.2 hglobal.2⟩
    cases clause with
    | true =>
      have hword : callee.link place = .word := hparts.1
      cases callee with
      | word => rfl
      | script => simp [Callee.link] at hword
    | false => exact Callee.linked_of_outline hc hapart hparts.1 (by simpa using hglobal.1)

/-- The same for several values. -/
theorem linkedAll_of_outline (hc : scope.Charted place dir) (hapart : Apart place) (vs : List Value)
    (h : outlineAll place vs = linkAll dir (stripAll (outlineAll place vs)))
    (hglobal : callsGlobalAll dir (stripAll (outlineAll place vs)) = false) :
    ∀ v ∈ vs, v.Meets (fun l => l.target? = l.text?.bind scope)
      (fun c clause => c.target? = if clause then none else scope c.name) := by
  match vs with
  | [] => exact fun v hv => absurd hv not_mem_nil
  | v :: rest =>
    rw [outlineAll, stripAll, linkAll, cons_eq_cons] at h
    rw [outlineAll, stripAll, callsGlobalAll, Bool.or_eq_false_iff] at hglobal
    rw [forall_mem_cons]
    exact ⟨linked_of_outline hc hapart v h.1 hglobal.1,
      linkedAll_of_outline hc hapart rest h.2 hglobal.2⟩

end

end Value

end Linked

/-! ## 2. What a declaration is written as -/

namespace Value

mutual

theorem strip_outline (place place' : DeclId → Option Nat) (v : Value) :
    (v.outline place).strip = (v.outline place').strip := by
  match v with
  | .leaf t l => cases l <;> rfl
  | .call t h args =>
    rw [outline, outline, strip, strip, stripAll_outlineAll place place' args]

theorem stripAll_outlineAll (place place' : DeclId → Option Nat) (vs : List Value) :
    stripAll (outlineAll place vs) = stripAll (outlineAll place' vs) := by
  match vs with
  | [] => rfl
  | v :: rest =>
    rw [outlineAll, outlineAll, stripAll, stripAll, strip_outline place place' v,
      stripAll_outlineAll place place' rest]

end

end Value

theorem Declaration.strip_outline (place : DeclId → Option Nat) (d : Declaration) :
    (d.outline place).strip = d.bare := by
  cases d with
  | global g =>
    have hvalue := Value.strip_outline place (fun _ => none) g.value
    simp [bare, outline, DeclOutline.strip, hvalue]
  | script s =>
    have hbody := Value.stripAll_outlineAll place (fun _ => none) s.body
    simp [bare, outline, DeclOutline.strip, hbody]

@[simp] theorem Declaration.name_bare (d : Declaration) : d.bare.name = d.id.name := by
  cases d <;> rfl

theorem Declaration.hides_eq (d : Declaration) (name : Text) :
    d.hides name = d.bare.hidden.any (·.name == name) := by
  cases d with
  | global => rfl
  | script s =>
    cases hm : s.isMacro with
    | true =>
      have hkind : (s.kind == .macroScript) = true := hm
      simp [hides, hm, Script.isParam, bare, outline, DeclOutline.strip, DeclOutline.hidden, hkind]
    | false =>
      have hkind : (s.kind == .macroScript) = false := hm
      simp [hides, hm, bare, outline, DeclOutline.strip, DeclOutline.hidden, hkind]

namespace Outline

mutual

def leafTexts : Outline → List (Option Text)
  | .leaf text _ => [text]
  | .call _ _ _ args => leafTextsAll args

def leafTextsAll : List Outline → List (Option Text)
  | [] => []
  | o :: rest => leafTexts o ++ leafTextsAll rest

end

mutual

/-- The function names of the calls of an outline, a call before those among its arguments. -/
def callNames : Outline → List (Option Text)
  | .leaf _ _ => []
  | .call function _ clause args => (if clause then none else some function) :: callNamesAll args

def callNamesAll : List Outline → List (Option Text)
  | [] => []
  | o :: rest => callNames o ++ callNamesAll rest

end

end Outline

namespace Value

mutual

theorem names_outline (v : Value) :
    (v.outline fun _ => none).strip.leafTexts = v.leaves.map Leaf.text? ∧
      (v.outline fun _ => none).strip.callNames = v.calls.map Head.name? := by
  match v with
  | .leaf t l =>
    cases l <;> exact ⟨rfl, rfl⟩
  | .call t h args =>
    obtain ⟨hleaves, hcalls⟩ := namesAll_outline args
    rw [outline, strip]
    exact ⟨hleaves, by rw [callNames, hcalls]; rfl⟩

theorem namesAll_outline (vs : List Value) :
    leafTextsAll (stripAll (outlineAll (fun _ => none) vs)) =
        (leavesAll vs).map Leaf.text? ∧
      callNamesAll (stripAll (outlineAll (fun _ => none) vs)) =
        (callsAll vs).map Head.name? := by
  match vs with
  | [] => exact ⟨rfl, rfl⟩
  | v :: rest =>
    obtain ⟨hleaves, hcalls⟩ := names_outline v
    obtain ⟨hleaves', hcalls'⟩ := namesAll_outline rest
    rw [outlineAll, stripAll, leafTextsAll, callNamesAll, hleaves, hleaves',
      hcalls, hcalls', leavesAll, callsAll, map_append, map_append]
    exact ⟨rfl, rfl⟩

end

end Value

theorem Declaration.names_bare (d : Declaration) :
    leafTextsAll d.bare.values = d.leaves.map Leaf.text? ∧
      callNamesAll d.bare.values = d.calls.map Head.name? := by
  have hvalues : d.bare.values =
      stripAll (Value.outlineAll (fun _ => none) d.values) := by
    cases d <;> rfl
  rw [hvalues]
  exact Value.namesAll_outline d.values

/-- The declaration of a name among declarations, unless it is hidden. -/
def DeclOutline.meant? (os : List DeclOutline) (o : DeclOutline) (name : Text) :
    Option DeclOutline :=
  if o.hidden.any (·.name == name) then none else os.find? (·.name == name)

/-- A declaration with what its names mean among declarations. -/
def DeclOutline.reading (os : List DeclOutline) (o : DeclOutline) :
    DeclOutline × List (Option DeclOutline) × List (Option DeclOutline) :=
  (o, (leafTextsAll o.values).map (·.bind (o.meant? os)),
    (callNamesAll o.values).map (·.bind (o.meant? os)))

/-! ## 3. Which declarations are listed -/

namespace DeclOutline

/-- A stub for which there is a static script. -/
def Replaced (os : List DeclOutline) (o : DeclOutline) : Prop :=
  o.kind? = some .stub ∧ ∃ o' ∈ os, o'.kind? = some .static ∧ o'.name = o.name

/-- Another declaration changes nothing for those it does not replace. -/
theorem replaced_concat {os : List DeclOutline} {new o : DeclOutline}
    (h : new.kind? ≠ some .static ∨ new.name ≠ o.name) :
    o.Replaced (os ++ [new]) ↔ o.Replaced os := by
  simp only [Replaced, mem_append, mem_singleton]
  refine and_congr_right fun _ => ⟨?_, fun ⟨o', ho', hrest⟩ => ⟨o', .inl ho', hrest⟩⟩
  rintro ⟨o', ho' | rfl, hstatic, hname⟩
  · exact ⟨o', ho', hstatic, hname⟩
  · exact absurd hname (h.resolve_left (fun hne => hne hstatic))

end DeclOutline

def Shape.declared (fs : List (List Shape)) : List DeclOutline :=
  fs.filterMap fun items => (Shape.declaration? items).join

theorem Shape.declared_cons {items : List Shape} {reading : Option DeclOutline}
    (h : Shape.declaration? items = some reading) (rest : List (List Shape)) :
    Shape.declared (items :: rest) = reading.toList ++ Shape.declared rest := by
  rw [declared, filterMap_cons, h]
  cases reading <;> rfl

namespace Draft

/-- A draft of some declarations: it lists those that have not been replaced. -/
structure Keeps (d : Draft) (os : List DeclOutline) : Prop where
  names : (d.listed.map DeclOutline.name).Nodup
  listed : ∀ o, o ∈ d.listed ↔ o ∈ os ∧ ¬ o.Replaced os

variable {d d' : Draft} {os : List DeclOutline} {new : DeclOutline}

section

variable (h : d.Keeps os)

include h

theorem Keeps.exists_listed {o : DeclOutline} (ho : o ∈ os) :
    ∃ o' ∈ d.listed, o'.name = o.name ∧ (o' = o ∨ o.kind? = some .stub) := by
  by_cases hr : o.Replaced os
  · obtain ⟨hstub, o', ho', hstatic, hname⟩ := hr
    refine ⟨o', (h.listed o').mpr ⟨ho', fun hr' => ?_⟩, hname, .inr hstub⟩
    exact absurd (hr'.1.symm.trans hstatic) (by decide)
  · exact ⟨o, (h.listed o).mpr ⟨ho, hr⟩, rfl, .inl rfl⟩

/-- Among the declarations that are listed, the name decides. -/
theorem Keeps.eq_of_name {o o' : DeclOutline} (ho : o ∈ d.listed) (ho' : o' ∈ d.listed)
    (hname : o.name = o'.name) : o = o' :=
  inj_on_of_nodup_map h.names ho ho' hname

/-- A declaration with a new name. -/
theorem Keeps.enter_new (hnew : ∀ o ∈ d.listed, o.name ≠ new.name) :
    (d.enter new).Keeps (os ++ [new]) := by
  have hos : ∀ o ∈ os, o.name ≠ new.name := by
    intro o ho heq
    obtain ⟨o', ho', hname, -⟩ := h.exists_listed ho
    exact hnew o' ho' (hname.trans heq)
  refine ⟨nodup_insertNamed h.names, fun o => ?_⟩
  rw [enter, mem_insertNamed_iff h.names, mem_append, mem_singleton]
  constructor
  · rintro (rfl | ⟨ho, hne⟩)
    · refine ⟨.inr rfl, fun hr => ?_⟩
      obtain ⟨hstub, o', ho', hstatic, hname⟩ := hr
      rcases mem_append.mp ho' with ho' | ho'
      · exact hos o' ho' hname
      · obtain rfl := mem_singleton.mp ho'
        exact absurd (hstub.symm.trans hstatic) (by decide)
    · obtain ⟨ho, hr⟩ := (h.listed o).mp ho
      exact ⟨.inl ho, (DeclOutline.replaced_concat (.inr hne.symm)).not.mpr hr⟩
  · rintro ⟨ho | rfl, hr⟩
    · have hne := hos o ho
      refine .inr ⟨(h.listed o).mpr ⟨ho, ?_⟩, hne⟩
      exact (DeclOutline.replaced_concat (.inr hne.symm)).not.mp hr
    · exact .inl rfl

/-- A static script in the place of a stub. -/
theorem Keeps.enter_static {old : DeclOutline} (hold : old ∈ d.listed) (hname : old.name = new.name)
    (hstub : old.kind? = some .stub) (hstatic : new.kind? = some .static) :
    (d.enter new).Keeps (os ++ [new]) := by
  refine ⟨nodup_insertNamed h.names, fun o => ?_⟩
  rw [enter, mem_insertNamed_iff h.names, mem_append, mem_singleton]
  constructor
  · rintro (rfl | ⟨ho, hne⟩)
    · exact ⟨.inr rfl, fun hr => absurd (hr.1.symm.trans hstatic) (by decide)⟩
    · obtain ⟨ho, hr⟩ := (h.listed o).mp ho
      exact ⟨.inl ho, (DeclOutline.replaced_concat (.inr hne.symm)).not.mpr hr⟩
  · rintro ⟨ho | rfl, hr⟩
    · by_cases hne : o.name = new.name
      · -- whatever had the name was a stub
        refine absurd ⟨?_, new, by simp, hstatic, hne.symm⟩ hr
        obtain ⟨o', ho', hname', rfl | hstub'⟩ := h.exists_listed ho
        · rw [h.eq_of_name ho' hold (hne.trans hname.symm)]
          exact hstub
        · exact hstub'
      · refine .inr ⟨(h.listed o).mpr ⟨ho, ?_⟩, hne⟩
        exact (DeclOutline.replaced_concat (.inr (Ne.symm hne))).not.mp hr
    · exact .inl rfl

/-- A stub behind its static script. -/
theorem Keeps.ignore_stub {old : DeclOutline} (hold : old ∈ d.listed) (hname : old.name = new.name)
    (hstatic : old.kind? = some .static) (hstub : new.kind? = some .stub) :
    d.Keeps (os ++ [new]) := by
  refine ⟨h.names, fun o => ?_⟩
  have hkind : new.kind? ≠ some .static := by rw [hstub]; decide
  rw [mem_append, mem_singleton, DeclOutline.replaced_concat (.inl hkind), h.listed]
  constructor
  · exact fun ⟨ho, hr⟩ => ⟨.inl ho, hr⟩
  · rintro ⟨ho | rfl, hr⟩
    · exact ⟨ho, hr⟩
    · exact absurd ⟨hstub, old, ((h.listed old).mp hold).1, hstatic, hname⟩ hr

/-- **One more declaration.** -/
theorem Keeps.enter? (hd : d.enter? new = some d') : d'.Keeps (os ++ [new]) := by
  unfold Draft.enter? at hd
  split at hd
  · next hfind =>
    obtain rfl := some.inj hd
    refine h.enter_new fun o ho => ?_
    simpa using find?_eq_none.mp hfind o ho
  · next old hfind =>
    have hold := mem_of_find?_eq_some hfind
    have hname : old.name = new.name := by simpa using find?_some hfind
    obtain ⟨a, ha, rfl⟩ := map_eq_some_iff.mp hd
    rcases DeclOutline.kind?_of_admit? ha with ⟨rfl, hstub, hstatic⟩ | ⟨rfl, hstatic, hstub⟩
    · exact h.enter_static hold hname hstub hstatic
    · exact h.ignore_stub hold hname hstatic hstub

end

/-- **All declarations of some forms.** -/
theorem Keeps.forms? {fs : List (List Shape)} : ∀ {d d' : Draft} {os : List DeclOutline},
    d.Keeps os → d.forms? fs = some d' → d'.Keeps (os ++ Shape.declared fs) := by
  induction fs with
  | nil =>
    intro d d' os h hd
    obtain rfl := some.inj hd
    rw [Shape.declared, filterMap_nil, append_nil]
    exact h
  | cons items rest ih =>
    intro d d' os h hd
    rw [Draft.forms?] at hd
    obtain ⟨d₁, hform, hrest⟩ := bind_eq_some_iff.mp hd
    rw [Draft.form?] at hform
    obtain ⟨reading, hreading, hform⟩ := bind_eq_some_iff.mp hform
    rw [Shape.declared_cons hreading, ← append_assoc]
    refine ih ?_ hrest
    cases reading with
    | none =>
      obtain rfl := some.inj hform
      rw [toList_none, append_nil]
      exact h
    | some => exact h.enter? hform

/-- **What a draft of forms lists.**  All declarations but the stubs for which there is a static
script, in whatever order they come. -/
theorem forms?_listed {fs : List (List Shape)} {ds : Draft} (h : Draft.forms? {} fs = some ds) :
    ds.Keeps (Shape.declared fs) := by
  have hempty : Draft.Keeps {} [] := ⟨nodup_nil, fun o => by simp⟩
  simpa using hempty.forms? h

end Draft

/-! ## 4. Programs as they are loaded -/

namespace DeclOutline

/-- Linking changes no names, so it does not change a directory. -/
theorem directory_map_link (dir : Directory) (os : List DeclOutline) :
    directory (os.map (link dir)) = directory os := by
  have hscript : ∀ o : DeclOutline, (o.link dir).isScript = o.isScript := by
    intro o
    cases o <;> rfl
  funext name
  have hidx : (os.map (link dir)).findIdx? (·.name == name) = os.findIdx? (·.name == name) := by
    rw [findIdx?_map]
    refine congrArg (List.findIdx? · os) (funext fun o => ?_)
    rw [Function.comp_apply, name_link]
  rw [directory, directory, hidx]
  refine congrArg _ (funext fun k => ?_)
  rw [getElem?_map, Option.map_map]
  refine congrArg (Option.map · os[k]?) (funext fun o => ?_)
  rw [Function.comp_apply, hscript]

/-- What names mean does not depend on the order. -/
theorem reading_of_perm {os os' : List DeclOutline} (hp : os.Perm os') (h : (os.map name).Nodup)
    (o : DeclOutline) : o.reading os = o.reading os' := by
  have hfind : ∀ n, os.find? (·.name == n) = os'.find? (·.name == n) := by
    intro n
    refine Option.ext fun o => ?_
    rw [find?_name_iff h, find?_name_iff ((hp.map name).nodup_iff.mp h), hp.mem_iff]
  have hmeant : o.meant? os = o.meant? os' := by
    funext n
    rw [meant?, meant?, hfind]
  rw [reading, reading, hmeant]

end DeclOutline

namespace Program

variable {p : Program} {d : Declaration}

theorem Tidy.find?_bare (hp : p.Tidy) (name : Text) :
    ((p.table.get? name).bind p.declaration?).map bare =
      (p.declarations.map bare).find? (·.name == name) := by
  have hfind := hp.find?_eq name
  rw [find?] at hfind
  rw [hfind, find?_map]
  refine congrArg _ (congrArg (List.find? · p.declarations) (funext fun d => ?_))
  rw [Function.comp_apply, Declaration.name_bare]

theorem Tidy.get?_eq_some_iff (hp : p.Tidy) (name : Text) (e : DeclId) :
    p.table.get? name = some e ↔ ∃ d ∈ p.declarations, d.id = e ∧ e.name = name := by
  rw [Table.get?, find?_name_iff hp.names, ← hp.map_id_declarations, List.mem_map]
  constructor
  · rintro ⟨⟨d, hd, rfl⟩, hname⟩
    exact ⟨d, hd, rfl, hname⟩
  · rintro ⟨d, hd, rfl, hname⟩
    exact ⟨⟨d, hd, rfl⟩, hname⟩

/-- The links of a declaration are what its names mean in the program. -/
structure Linked (p : Program) (d : Declaration) : Prop where
  leaves : ∀ l ∈ d.leaves, l.target? = l.text?.bind (p.meant? d)
  calls : ∀ h ∈ d.calls, h.callee.target? = h.name?.bind (p.meant? d)

theorem Linked.not_global (h : p.Linked d) {c : Head} (hc : c ∈ d.calls) {name : Text}
    (hname : c.name? = some name) (g : GlobalId) : p.meant? d name ≠ some (.global g) := by
  have hcall := h.calls c hc
  rw [hname, bind_some] at hcall
  rw [← hcall]
  cases c.callee <;> simp [Callee.target?]

theorem Linked.of_meets (scope : Scope) (hscope : ∀ name, scope name = p.meant? d name)
    (h : ∀ v ∈ d.values, v.Meets (fun l => l.target? = l.text?.bind scope)
      (fun c clause => c.target? = if clause then none else scope c.name)) :
    p.Linked d := by
  obtain rfl : scope = p.meant? d := funext hscope
  constructor
  · intro l hl
    obtain ⟨v, hv, hl⟩ := Value.mem_leavesAll.mp hl
    exact (h v hv).1 l hl
  · intro c hc
    obtain ⟨v, hv, hc⟩ := Value.mem_callsAll.mp hc
    rw [(h v hv).2 c hc, Head.name?]
    cases c.clause <;> rfl

/-- A declaration whose outline is linked in the directory of the table is linked. -/
theorem linked_of_outline {dir : Directory} (hc : (p.table.scope []).Charted p.place dir)
    (h : d.outline p.place = d.bare.link dir) (hglobal : d.bare.callsGlobal dir = false) :
    p.Linked d := by
  rw [← d.strip_outline p.place] at h hglobal
  cases d with
  | global g =>
    have hvalue : g.value.outline p.place =
        (g.value.outline p.place).strip.link (dir.without []) := by
      simpa [Declaration.outline, DeclOutline.strip, DeclOutline.link, DeclOutline.hidden] using h
    have hcalls : (g.value.outline p.place).strip.callsGlobal (dir.without []) = false := by
      simpa [Declaration.outline, DeclOutline.strip, DeclOutline.callsGlobal, DeclOutline.hidden,
        DeclOutline.values, callsGlobalAll] using hglobal
    refine .of_meets (p.table.scope []) (fun name => ?_) (forall_mem_singleton.mpr ?_)
    · simp [Table.scope, meant?, hides]
    · exact Value.linked_of_outline (Table.charted_without hc []) p.place_apart g.value hvalue
        hcalls
  | script s =>
    have hbody : Value.outlineAll p.place s.body = linkAll
        (dir.without (if s.isMacro then s.params else []))
        (stripAll (Value.outlineAll p.place s.body)) := by
      simpa [Declaration.outline, DeclOutline.strip, DeclOutline.link, DeclOutline.hidden,
        Script.isMacro] using h
    have hcalls : callsGlobalAll (dir.without (if s.isMacro then s.params else []))
        (stripAll (Value.outlineAll p.place s.body)) = false := by
      simpa [Declaration.outline, DeclOutline.strip, DeclOutline.callsGlobal, DeclOutline.hidden,
        DeclOutline.values, Script.isMacro] using hglobal
    refine .of_meets (p.table.scope (if s.isMacro then s.params else [])) (fun name => ?_) ?_
    · cases hm : s.isMacro <;>
        simp [Table.scope, meant?, hides, hm, Script.isParam]
    · exact Value.linkedAll_of_outline (Table.charted_without hc _) p.place_apart s.body hbody
        hcalls

/-- What links mean, as it is written, depends on what is written only. -/
theorem Linked.reading_eq (hp : p.Tidy) (h : p.Linked d) :
    p.reading d = d.bare.reading (p.declarations.map bare) := by
  have hmeant : ∀ name : Text, ((p.meant? d name).bind p.declaration?).map bare =
      d.bare.meant? (p.declarations.map bare) name := by
    intro name
    rw [meant?, DeclOutline.meant?, d.hides_eq]
    split
    · rfl
    · exact hp.find?_bare name
  obtain ⟨hleaves, hcalls⟩ := d.names_bare
  rw [reading, DeclOutline.reading, hleaves, hcalls, List.map_map, List.map_map, Prod.mk.injEq,
    Prod.mk.injEq]
  refine ⟨rfl, map_congr_left fun l hl => ?_, map_congr_left fun c hc => ?_⟩
  · rw [h.leaves l hl, Function.comp_apply]
    cases l.text? with
    | none => rfl
    | some name => exact hmeant name
  · rw [h.calls c hc, Function.comp_apply]
    cases c.name? with
    | none => rfl
    | some name => exact hmeant name

/-- **A program that was loaded without an error** holds what its forms declare, less the stubs
that were replaced, and all of it is linked. -/
theorem load_linked {lib : Library} {entry : Entry} (hok : (load {} {} lib entry).ok = true) :
    let p := (load {} {} lib entry).program
    ∃ ds : Draft, ds.Keeps (Shape.declared (formShapes (gather {} lib entry).2)) ∧
      p.declarations.map bare = ds.listed ∧ ∀ d ∈ p.declarations, p.Linked d := by
  intro p
  have hp : p.Tidy := load_tidy tidy_empty {} lib entry
  obtain ⟨-, ds, hforms, houtline, -, hcalls⟩ := load_drafted hok
  have hkeeps := Draft.forms?_listed hforms
  have hstrip : ∀ o ∈ ds.listed, o.strip = o := by
    intro o ho
    obtain ⟨items, -, hitems⟩ := mem_filterMap.mp ((hkeeps.listed o).mp ho).1
    exact DeclOutline.strip_eq (Shape.declaration?_strip (join_eq_some_iff.mp hitems))
  have hbare : p.declarations.map bare = ds.listed := by
    rw [← DeclOutline.map_strip_link ds.directory hstrip, ← houtline, outline, List.map_map]
    exact map_congr_left fun d _ => (d.strip_outline p.place).symm
  refine ⟨ds, hkeeps, hbare, fun d hd => ?_⟩
  have hmem : d.outline p.place ∈ ds.listed.map (DeclOutline.link ds.directory) := by
    rw [← houtline]
    exact List.mem_map_of_mem hd
  obtain ⟨o, ho, hlink⟩ := List.mem_map.mp hmem
  obtain rfl : d.bare = o := by
    rw [← d.strip_outline p.place, ← hlink, DeclOutline.strip_link, hstrip o ho]
  have hcharted : (p.table.scope []).Charted p.place ds.directory := by
    rw [Draft.directory, ← DeclOutline.directory_map_link ds.directory]
    exact hp.charted houtline
  have hentered := (Draft.forms?_origin (fun o ho => absurd ho not_mem_nil) hforms).1 _ ho
  rw [List.any_eq_false] at hcalls
  exact linked_of_outline hcharted hlink.symm (Bool.eq_false_iff.mpr (hcalls _ hentered))

end Program

/-! ## 5. The order of declarations and imports -/

/-- Two starting sources with the same files, but for the order of the forms in each file. -/
structure Entry.Reordered (lib lib' : Library) (entry entry' : Entry) : Prop where
  path : entry.path = entry'.path
  files : ∀ path, Option.Rel
    (fun f f' => (Program.formShapes f.read.forms).Perm (Program.formShapes f'.read.forms))
    (entry.file? lib path) (entry'.file? lib' path)

namespace Entry.Reordered

variable {lib lib' : Library} {entry entry' : Entry}

section

variable (h : entry.Reordered lib lib' entry')

include h

theorem file?_cases (path : Text) :
    (entry.file? lib path = none ∧ entry'.file? lib' path = none) ∨
      ∃ f f', entry.file? lib path = some f ∧ entry'.file? lib' path = some f' ∧
        (Program.formShapes f.read.forms).Perm (Program.formShapes f'.read.forms) := by
  have hrel := h.files path
  generalize entry.file? lib path = x, entry'.file? lib' path = x' at hrel
  cases hrel with
  | some hperm => exact .inr ⟨_, _, rfl, rfl, hperm⟩
  | none => exact .inl ⟨rfl, rfl⟩

theorem symm : entry'.Reordered lib' lib entry where
  path := h.path.symm
  files path := by
    rcases h.file?_cases path with ⟨hf, hf'⟩ | ⟨f, f', hf, hf', hperm⟩
    · rw [hf, hf']
      exact .none
    · rw [hf, hf']
      exact .some hperm.symm

theorem has_eq (path : Text) : entry.has lib path = entry'.has lib' path := by
  unfold Entry.has
  rcases h.file?_cases path with ⟨hf, hf'⟩ | ⟨f, f', hf, hf', -⟩
  · rw [hf, hf']
  · rw [hf, hf']
    rfl

/-- The same sets of paths are closed under imports. -/
theorem closed {s : Set Text} (hs : entry.Closed lib s) : entry'.Closed lib' s where
  start hhas := by
    rw [← h.path, ← h.has_eq] at hhas
    exact h.path ▸ hs.start hhas
  imports path hpath file' hfile' f' hf' target htarget hhas := by
    rcases h.file?_cases path with ⟨-, hnone⟩ | ⟨file, file'', hfile, hsome, hperm⟩
    · exact absurd (hnone.symm.trans hfile') (by simp)
    · obtain rfl := some.inj (hsome.symm.trans hfile')
      obtain ⟨f, hf, hshapes⟩ := List.mem_map.mp (hperm.mem_iff.mpr (List.mem_map_of_mem hf'))
      refine hs.imports path hpath file hfile f hf target ?_ (h.has_eq target ▸ hhas)
      rw [← htarget, Form.import?, Form.import?, hshapes]

theorem paths_perm {i i' : Intake} {pool pool' : List Form}
    (hi : Intake.Gathered lib entry i pool.reverse [])
    (hi' : Intake.Gathered lib' entry' i' pool'.reverse []) : i.paths.Perm i'.paths := by
  refine (perm_ext_iff_of_nodup hi.nodup hi'.nodup).mpr fun path =>
    ⟨fun hpath => ?_, fun hpath => ?_⟩
  · exact hi.isLeast.2 (h.symm.closed hi'.isLeast.1) hpath
  · exact hi'.isLeast.2 (h.closed hi.isLeast.1) hpath

end

end Entry.Reordered

theorem Intake.Gathered.formShapes_eq {lib : Library} {entry : Entry} {i : Intake}
    {pool : List Form}
    (h : Gathered lib entry i pool.reverse []) :
    Program.formShapes pool = i.paths.flatMap fun path =>
      ((entry.file? lib path).map fun f => Program.formShapes f.read.forms).getD [] := by
  have hpool : pool = i.files.reverse.flatMap (·.2.read.forms) := by simpa using h.forms
  rw [hpool, paths, flatMap_map, Program.formShapes, map_flatMap]
  refine flatMap_congr fun x hx => ?_
  rw [h.files x (mem_reverse.mp hx)]
  rfl

theorem Program.gather_perm {lib lib' : Library} {entry entry' : Entry}
    (h : entry.Reordered lib lib' entry') (report report' : Report) :
    (formShapes (gather report lib entry).2).Perm
      (formShapes (gather report' lib' entry').2) := by
  have hi := gather_gathered report lib entry
  have hi' := gather_gathered report' lib' entry'
  rw [hi.formShapes_eq, hi'.formShapes_eq]
  refine (h.paths_perm hi hi').flatMap fun path _ => ?_
  rcases h.file?_cases path with ⟨hf, hf'⟩ | ⟨f, f', hf, hf', hperm⟩
  · rw [hf, hf']
  · rw [hf, hf']
    exact hperm

theorem Draft.Keeps.perm {d d' : Draft} {os os' : List DeclOutline} (h : d.Keeps os)
    (h' : d'.Keeps os') (hos : os.Perm os') : d.listed.Perm d'.listed := by
  refine (perm_ext_iff_of_nodup h.names.of_map h'.names.of_map).mpr fun o => ?_
  have hreplaced : o.Replaced os ↔ o.Replaced os' := by
    simp only [DeclOutline.Replaced, hos.mem_iff]
  rw [h.listed, h'.listed, hos.mem_iff, hreplaced]

namespace Program

/-- **Links are entries of the table.**  In every program that is loaded without an error, each
declaration is what some form of the sources declares.  A name in value position or in front of a
call is linked exactly if the table has an entry under it and it is no parameter of the macro it
stands in, and then to that entry; no such entry of a function name is a global.  The entry under a
name is the declaration that has it.  And if the forms of the files come in another order, and the
program is loaded without an error as well, the declarations are the same, with the same links. -/
theorem load_links (lib : Library) (entry : Entry) (hok : (load {} {} lib entry).ok = true) :
    let p := (load {} {} lib entry).program
    (∀ d ∈ p.declarations,
      (∃ f ∈ (gather {} lib entry).2,
        Shape.declaration? (Form.shapes f.items) = some (some d.bare)) ∧
      (∀ l ∈ d.leaves, l.target? = l.text?.bind (p.meant? d)) ∧
      (∀ h ∈ d.calls, h.callee.target? = h.name?.bind (p.meant? d)) ∧
      ∀ h ∈ d.calls, ∀ name, h.name? = some name → ∀ g, p.meant? d name ≠ some (.global g)) ∧
    (∀ name e, p.table.get? name = some e ↔ ∃ d ∈ p.declarations, d.id = e ∧ e.name = name) ∧
    ∀ lib' entry', entry.Reordered lib lib' entry' → (load {} {} lib' entry').ok = true →
      let p' := (load {} {} lib' entry').program
      (p.declarations.map p.reading).Perm (p'.declarations.map p'.reading) := by
  intro p
  have hp : p.Tidy := load_tidy tidy_empty {} lib entry
  obtain ⟨ds, hkeeps, hbare, hlinked⟩ := load_linked hok
  refine ⟨fun d hd => ⟨?_, (hlinked d hd).leaves, (hlinked d hd).calls,
    fun h hh name hname => (hlinked d hd).not_global hh hname⟩, hp.get?_eq_some_iff, ?_⟩
  · have hmem : d.bare ∈ ds.listed := hbare ▸ List.mem_map_of_mem hd
    obtain ⟨items, hitems, hread⟩ := mem_filterMap.mp ((hkeeps.listed _).mp hmem).1
    obtain ⟨f, hf, rfl⟩ := List.mem_map.mp hitems
    exact ⟨f, hf, join_eq_some_iff.mp hread⟩
  · intro lib' entry' hre hok' p'
    have hp' : p'.Tidy := load_tidy tidy_empty {} lib' entry'
    obtain ⟨ds', hkeeps', hbare', hlinked'⟩ := load_linked hok'
    have hperm : ds.listed.Perm ds'.listed :=
      hkeeps.perm hkeeps' ((gather_perm hre {} {}).filterMap _)
    have hreading : p.declarations.map p.reading =
        ds.listed.map (DeclOutline.reading ds.listed) := by
      rw [← hbare, List.map_map]
      exact map_congr_left fun d hd => (hlinked d hd).reading_eq hp
    have hreading' : p'.declarations.map p'.reading =
        ds'.listed.map (DeclOutline.reading ds.listed) := by
      rw [← hbare', List.map_map]
      refine map_congr_left fun d hd => ((hlinked' d hd).reading_eq hp').trans ?_
      rw [Function.comp_apply, DeclOutline.reading_of_perm hperm hkeeps.names, ← hbare']
    rw [hreading, hreading']
    exact hperm.map _

/-- A global, a macro with a parameter of its name, and the import of a stub and its script. -/
def orderSample : SourceFile := ⟨"a", "(import b)(global s g(f))(script macro s m(s g)(p g))"⟩

def stubSample : SourceFile := ⟨"b", "(script stub s f)(script static s f 1)"⟩

/-- The same forms the other way round. -/
def turnedSample : SourceFile := ⟨"a", "(script macro s m(s g)(p g))(global s g(f))(import b)"⟩

def turnedStubSample : SourceFile := ⟨"b", "(script static s f 1)(script stub s f)"⟩

def onlyFile (file : SourceFile) : Library := { files := [(file.name, file.text)] }

/-- The samples differ in the order of forms and files only, as the theorem asks. -/
theorem reordered_samples : (Entry.source orderSample).Reordered (onlyFile stubSample)
    (onlyFile turnedStubSample) (.source turnedSample) := by
  have hclean : Path.clean ("a" : Text) = ("a" : Text) := by cbv
  have hturned : formShapes turnedSample.read.forms = (formShapes orderSample.read.forms).reverse ∧
      formShapes turnedStubSample.read.forms = (formShapes stubSample.read.forms).reverse := by
    constructor <;> cbv
  refine ⟨rfl, fun path => ?_⟩
  by_cases ha : path = ("a" : Text)
  · subst ha
    have hfile : ∀ file : SourceFile, file.name = ("a" : Text) → ∀ lib,
        (Entry.source file).file? lib "a" = some file := by
      intro file hname lib
      simp [Entry.file?, Entry.given?, hname, hclean]
    rw [hfile orderSample rfl, hfile turnedSample rfl]
    refine .some ?_
    rw [hturned.1]
    exact (reverse_perm _).symm
  · have hfile : ∀ file other : SourceFile, file.name = ("a" : Text) → other.name = ("b" : Text) →
        (Entry.source file).file? (onlyFile other) path =
          if path = ("b" : Text) then some other else none := by
      rintro file ⟨_, text⟩ hname rfl
      by_cases hb : path = ("b" : Text)
      · subst hb
        simp [Entry.file?, Entry.given?, hname, hclean, ha, Library.file?, onlyFile]
      · have hbeq : (path == ("b" : Text)) = false := by simpa using hb
        simp [Entry.file?, Entry.given?, hname, hclean, ha, Library.file?, onlyFile, hb,
          lookup_cons, hbeq]
    rw [hfile orderSample stubSample rfl rfl, hfile turnedSample turnedStubSample rfl rfl]
    split
    · refine .some ?_
      rw [hturned.2]
      exact (reverse_perm _).symm
    · exact .none

set_option maxRecDepth 20000 in
theorem load_links_samples :
    let p := (load {} {} (onlyFile stubSample) (.source orderSample)).program
    let p' := (load {} {} (onlyFile turnedStubSample) (.source turnedSample)).program
    (∀ d ∈ p.declarations, ∀ l ∈ d.leaves, l.target? = l.text?.bind (p.meant? d)) ∧
      (p.declarations.map p.reading).Perm (p'.declarations.map p'.reading) := by
  have hok : (load {} {} (onlyFile stubSample) (.source orderSample)).ok = true := by cbv
  have hok' : (load {} {} (onlyFile turnedStubSample) (.source turnedSample)).ok = true := by cbv
  have h := load_links (onlyFile stubSample) (.source orderSample) hok
  exact ⟨fun d hd => (h.1 d hd).2.1, h.2.2 _ _ reordered_samples hok'⟩

end Program

end HaloScript
