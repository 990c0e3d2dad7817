/-
# Redeclaration

Whether a declaration is admitted is decided against what its name stands for at that moment.  Over
a whole sequence of declarations this comes to a rule for each name alone, whatever other names come
between (`Drafting.registerAll_rule`): a name is declared once, or it belongs to a static script
that has at most one stub before it and any number of stubs after it, all of one return type.  The
table then lists the names in the order in which they were first declared, each with its static
script if there is one.

The rule is carried through the sequence by what the table holds of the declarations so far
(`Drafting.Holds`); one more declaration of a name keeps the rule for this name exactly if it is
admitted (`Declaration.Compatible.allow`).
-/
import HaloScript.Proofs.Drafts
import Mathlib.Data.List.Induction

namespace HaloScript

open List Option

namespace Declaration

/-! ## 1. The declarations of one name -/

/-- Those of the declarations that have a name. -/
def named (name : Text) (ds : List Declaration) : List Declaration := ds.filter (·.id.name == name)

/-- A static script, at most one stub in front of it and any number of stubs behind it, all of the
same return type. -/
def OverloadedBy (static : Script) (ds : List Declaration) : Prop :=
  ∃ before after : List Script, ds = (before ++ static :: after).map .script ∧ before.length ≤ 1 ∧
    static.kind = .static ∧
    ∀ s ∈ before ++ after, s.kind = .stub ∧ s.returnType = static.returnType

/-- What the declarations of one name may be. -/
def Compatible (ds : List Declaration) : Prop :=
  ds.length = 1 ∨ ∃ static, OverloadedBy static ds

def isStatic : Declaration → Bool
  | .global _ => false
  | .script s => s.kind == .static

/-- What a name stands for: its static script, or else its first declaration. -/
def holder? (ds : List Declaration) : Option Declaration := (ds.find? isStatic).or ds.head?

variable {static : Script} {ds : List Declaration} {new : Declaration}

theorem named_append (name : Text) (ds es : List Declaration) :
    named name (ds ++ es) = named name ds ++ named name es := filter_append ..

theorem named_singleton (name : Text) (new : Declaration) :
    named name [new] = if new.id.name = name then [new] else [] := by
  by_cases h : new.id.name = name <;> simp [named, h]

theorem named_of_not_mem {name : Text} (h : name ∉ ds.map (·.id.name)) : named name ds = [] :=
  filter_eq_nil_iff.mpr fun _ hx heq => h (eq_of_beq heq ▸ List.mem_map_of_mem hx)

theorem holder?_eq_none : holder? ds = none ↔ ds = [] := by
  cases ds <;> simp [holder?]

theorem holder?_singleton (x : Declaration) : holder? [x] = some x := by
  cases hx : isStatic x <;> simp [holder?, hx]

theorem OverloadedBy.holder?_eq (h : OverloadedBy static ds) :
    holder? ds = some (.script static) := by
  obtain ⟨before, after, rfl, -, hstatic, hstubs⟩ := h
  have hbefore : (before.map Declaration.script).find? isStatic = none := by
    refine find?_eq_none.mpr fun x hx => ?_
    obtain ⟨s, hs, rfl⟩ := List.mem_map.mp hx
    simp [isStatic, (hstubs s (mem_append_left _ hs)).1]
  have hfind : ((before ++ static :: after).map Declaration.script).find? isStatic =
      some (.script static) := by
    rw [map_append, find?_append, hbefore, none_or, map_cons,
      find?_cons_of_pos (by simp [isStatic, hstatic])]
  rw [holder?, hfind, some_or]

theorem OverloadedBy.concat {s : Script} (h : OverloadedBy static ds) (hkind : s.kind = .stub)
    (htype : s.returnType = static.returnType) : OverloadedBy static (ds ++ [.script s]) := by
  obtain ⟨before, after, rfl, hlength, hstatic, hstubs⟩ := h
  refine ⟨before, after ++ [s], by simp, hlength, hstatic, ?_⟩
  rw [← append_assoc]
  intro s' hs'
  rcases mem_append.mp hs' with hs' | hs'
  · exact hstubs s' hs'
  · rw [mem_singleton.mp hs']
    exact ⟨hkind, htype⟩

/-- **The last of several declarations of a name** is the static script itself, behind one stub at
most, or it is a stub behind the static script. -/
theorem OverloadedBy.of_concat (h : OverloadedBy static (ds ++ [new])) :
    (new = .script static ∧ static.kind = .static ∧ (ds = [] ∨
      ∃ s, ds = [.script s] ∧ s.kind = .stub ∧ s.returnType = static.returnType)) ∨
    (OverloadedBy static ds ∧
      ∃ s, new = .script s ∧ s.kind = .stub ∧ s.returnType = static.returnType) := by
  obtain ⟨before, after, heq, hlength, hstatic, hstubs⟩ := h
  rcases eq_nil_or_concat after with rfl | ⟨after, s, rfl⟩
  · rw [map_append, map_cons, map_nil] at heq
    obtain ⟨rfl, hnew⟩ := append_inj' heq rfl
    refine .inl ⟨List.cons.inj hnew |>.1, hstatic, ?_⟩
    cases before with
    | nil => exact .inl rfl
    | cons s rest =>
      obtain rfl : rest = [] := by
        simpa using hlength
      exact .inr ⟨s, rfl, hstubs s (by simp)⟩
  · rw [concat_eq_append] at heq hstubs
    have hparts : ds ++ [new] = (before ++ static :: after).map .script ++ [.script s] := by
      simp [heq]
    obtain ⟨rfl, hnew⟩ := append_inj' hparts rfl
    refine .inr ⟨⟨before, after, rfl, hlength, hstatic, fun s' hs' => hstubs s' ?_⟩, s,
      (List.cons.inj hnew).1, hstubs s (by simp)⟩
    rw [← append_assoc]
    exact mem_append_left _ hs'

/-- A name that keeps the rule kept it before. -/
theorem Compatible.of_append {es : List Declaration} (h : Compatible (ds ++ es)) (hds : ds ≠ []) :
    Compatible ds := by
  induction es using List.reverseRecOn with
  | nil => rwa [append_nil] at h
  | append_singleton es e ih =>
    rw [← append_assoc] at h
    rcases h with hone | ⟨static, h⟩
    · cases ds with
      | nil => exact absurd rfl hds
      | cons => simp at hone
    · rcases h.of_concat with ⟨-, -, hnil | ⟨s, hsingle, -⟩⟩ | ⟨hbefore, -⟩
      · exact absurd (append_eq_nil_iff.mp hnil).1 hds
      · exact ih (.inl (by rw [hsingle]; rfl))
      · exact ih (.inr ⟨static, hbefore⟩)

end Declaration

/-! ## 2. One more declaration of a name -/

namespace Admission

open Declaration

/-- Scripts that may share a name, the static one coming last or first. -/
inductive Pair : Declaration → Declaration → Admission → Prop
  | enter {o n : Script} (ho : o.kind = .stub) (hn : n.kind = .static)
    (htype : o.returnType = n.returnType) : Pair (.script o) (.script n) .enter
  | ignore {o n : Script} (ho : o.kind = .static) (hn : n.kind = .stub)
    (htype : o.returnType = n.returnType) : Pair (.script o) (.script n) .ignore

/-- **A declaration is admitted** exactly beside one that it may share its name with. -/
theorem decide_eq_ok_iff {old new : Declaration} {a : Admission} :
    Admission.decide old new = .ok a ↔ Pair old new a := by
  constructor
  · intro h
    cases old with
    | global => cases h
    | script =>
      cases new with
      | global => cases h
      | script =>
        rw [Admission.decide] at h
        split at h
        · cases h
        · next htype =>
          rw [not_not] at htype
          split at h
          · next hkinds =>
            cases h
            exact .ignore hkinds.2 hkinds.1 htype
          · split at h
            · next hkinds =>
              cases h
              exact .enter hkinds.2 hkinds.1 htype
            · cases h
  · rintro (⟨ho, hn, htype⟩ | ⟨ho, hn, htype⟩) <;> simp [Admission.decide, ho, hn, htype]

end Admission

namespace Declaration

variable {ds : List Declaration} {y new : Declaration}

/-- **One more declaration of a name.**  It is admitted exactly if the declarations of the name keep
the rule, and then it is known what the name stands for. -/
theorem Compatible.allow (h : Compatible ds) (hy : holder? ds = some y) (new : Declaration) :
    (Admission.decide y new = .ok .enter ∧ Compatible (ds ++ [new]) ∧
      holder? (ds ++ [new]) = some new) ∨
    (Admission.decide y new = .ok .ignore ∧ Compatible (ds ++ [new]) ∧
      holder? (ds ++ [new]) = some y) ∨
    ((∃ f, Admission.decide y new = .error f) ∧ ¬ Compatible (ds ++ [new])) := by
  -- what follows the static script is a stub, or the static script follows a single stub
  have hpair : Compatible (ds ++ [new]) → ∃ a, Admission.Pair y new a := by
    rintro (hone | ⟨static, hnew⟩)
    · cases ds with
      | nil => simp [holder?] at hy
      | cons => simp at hone
    · rcases hnew.of_concat with ⟨rfl, hstatic, rfl | ⟨s, rfl, hkind, htype⟩⟩ |
        ⟨hbefore, s, rfl, hkind, htype⟩
      · simp [holder?] at hy
      · obtain rfl : .script s = y := by simpa [holder?, isStatic, hkind] using hy
        exact ⟨.enter, .enter hkind hstatic htype⟩
      · rw [hbefore.holder?_eq] at hy
        obtain rfl := some.inj hy
        obtain ⟨_, _, -, -, hstatic, -⟩ := hbefore
        exact ⟨.ignore, .ignore hstatic hkind htype.symm⟩
  cases hdecide : Admission.decide y new with
  | error f =>
    refine .inr (.inr ⟨⟨f, rfl⟩, fun hnew => ?_⟩)
    obtain ⟨a, ha⟩ := hpair hnew
    rw [Admission.decide_eq_ok_iff.mpr ha] at hdecide
    cases hdecide
  | ok =>
    cases Admission.decide_eq_ok_iff.mp hdecide with
    | @enter o n ho hn htype =>
      have hds : ds = [.script o] := by
        rcases h with hone | ⟨static, h⟩
        · obtain ⟨x, rfl⟩ := length_eq_one_iff.mp hone
          rw [some.inj ((holder?_singleton x).symm.trans hy)]
        · rw [h.holder?_eq] at hy
          obtain ⟨_, _, -, -, hstatic, -⟩ := h
          cases hy
          rw [hstatic] at ho
          cases ho
      subst hds
      have hover : OverloadedBy n ([.script o] ++ [.script n]) :=
        ⟨[o], [], rfl, Nat.le_refl _, hn, by simp [ho, htype]⟩
      exact .inl ⟨rfl, .inr ⟨n, hover⟩, hover.holder?_eq⟩
    | @ignore o n ho hn htype =>
      have hbefore : OverloadedBy o ds := by
        rcases h with hone | ⟨static, h⟩
        · obtain ⟨x, rfl⟩ := length_eq_one_iff.mp hone
          rw [some.inj ((holder?_singleton x).symm.trans hy)]
          exact ⟨[], [], rfl, Nat.zero_le _, ho, by simp⟩
        · rw [h.holder?_eq] at hy
          cases hy
          exact h
      have hover := hbefore.concat hn htype.symm
      exact .inr (.inl ⟨rfl, .inr ⟨o, hover⟩, hover.holder?_eq⟩)

/-! ## 3. Serial numbers -/

def unnumbered : Declaration → Declaration
  | .global g => .global { g with id := ⟨g.id.name, 0⟩ }
  | .script s => .script { s with id := ⟨s.id.name, 0⟩ }

end Declaration

theorem Admission.decide_unnumbered (old new : Declaration) :
    Admission.decide old.unnumbered new.unnumbered = Admission.decide old new := by
  cases old <;> cases new <;> rfl

namespace Program

/-- The declaration with the serial number that the program gives it. -/
def numbered (p : Program) : Declaration → Declaration
  | .global g => .global { g with id := p.newGlobalId g.id.name }
  | .script s => .script { s with id := p.newScriptId s.id.name }

variable {p : Program} {new : Declaration}

@[simp] theorem name_numbered (p : Program) (new : Declaration) :
    (p.numbered new).id.name = new.id.name := by cases new <;> rfl

@[simp] theorem unnumbered_numbered (p : Program) (new : Declaration) :
    (p.numbered new).unnumbered = new.unnumbered := by cases new <;> rfl

theorem Tidy.declare_numbered (hp : p.Tidy) (new : Declaration) :
    (p.declare (p.numbered new)).Tidy := by
  cases new with
  | global => exact hp.declare_global rfl
  | script => exact hp.declare_script rfl

theorem Tidy.find?_declare (hp : p.Tidy) (hp' : (p.declare new).Tidy) (name : Text) :
    (p.declare new).find? name = if new.id.name = name then some new else p.find? name := by
  rw [hp'.find?_eq, hp.declarations_declare hp', hp.find?_eq]
  exact find?_insertNamed _ _ _ _

end Program

/-! ## 4. Sequences of declarations -/

namespace Drafting

open Declaration

variable {d : Drafting}

def register (d : Drafting) (new : Declaration) : Except SourceError Drafting :=
  d.enter? (d.program.numbered new)

/-- Enters declarations, up to the first that is refused. -/
def registerAll (d : Drafting) : List Declaration → Except SourceError Drafting
  | [] => .ok d
  | new :: rest =>
    match d.register new with
    | .ok d' => d'.registerAll rest
    | .error e => .error e

/-- **A top-level form registers what it declares.** -/
theorem form_eq_register {f : Form} {new : Declaration} {next : NodeId}
    (h : (Build.declaration d.program f).run d.program.nextNode = .ok (some new, next)) :
    d.form f = register { d with program := { d.program with nextNode := next } } new := by
  have hsame : d.program.numbered new = new := by
    rcases Build.declaration_id h with ⟨g, name, rfl, hid⟩ | ⟨s, name, rfl, hid⟩
    · have hagain : d.program.newGlobalId g.id.name = g.id := by rw [hid]; rfl
      rw [Program.numbered, hagain]
    · have hagain : d.program.newScriptId s.id.name = s.id := by rw [hid]; rfl
      rw [Program.numbered, hagain]
  have hnew : Program.numbered { d.program with nextNode := next } new = new := by
    rw [← hsame]
    cases new <;> rfl
  rw [form, h, register, hnew]

/-- What the table holds of the declarations that were registered. -/
structure Holds (ds : List Declaration) (d : Drafting) : Prop where
  tidy : d.program.Tidy
  names : d.program.declarations.map (·.id.name) = (ds.map (·.id.name)).eraseDups
  held : ∀ name, (d.program.find? name).map unnumbered = (holder? (named name ds)).map unnumbered
  compatible : ∀ x ∈ ds, Compatible (named x.id.name ds)

theorem holds_empty : Holds [] { program := {} } where
  tidy := Program.tidy_empty
  names := rfl
  held _ := rfl
  compatible _ hx := absurd hx not_mem_nil

section Step

variable {ds : List Declaration} {d d' : Drafting} {new : Declaration}

section

variable (h : d.Holds ds) (hnew : Compatible (named new.id.name (ds ++ [new])))

include h hnew

theorem Holds.compatible_concat :
    ∀ x ∈ ds ++ [new], Compatible (named x.id.name (ds ++ [new])) := by
  intro x hx
  by_cases hname : new.id.name = x.id.name
  · rwa [← hname]
  · rw [named_append, named_singleton, if_neg hname, append_nil]
    rcases mem_append.mp hx with hx | hx
    · exact h.compatible x hx
    · exact absurd (congrArg (·.id.name) (mem_singleton.mp hx).symm) hname

/-- The declaration is entered. -/
theorem Holds.entered (hholder : holder? (named new.id.name (ds ++ [new])) = some new) :
    Holds (ds ++ [new]) ⟨d.program.declare (d.program.numbered new),
      (d.program.numbered new).id :: d.added⟩ where
  tidy := h.tidy.declare_numbered new
  names := by
    have hdeclare := h.tidy.declarations_declare (h.tidy.declare_numbered new)
    rw [hdeclare, map_name_insertNamed, h.names, map_append, map_singleton,
      eraseDups_concat, Program.name_numbered]
    simp only [mem_eraseDups]
  held name := by
    rw [h.tidy.find?_declare (h.tidy.declare_numbered new), Program.name_numbered]
    by_cases hname : new.id.name = name
    · rw [if_pos hname, ← hname, hholder, map_some, map_some,
        Program.unnumbered_numbered]
    · rw [if_neg hname, h.held, named_append, named_singleton, if_neg hname, append_nil]
  compatible := h.compatible_concat hnew

theorem Holds.ignored (hmem : new.id.name ∈ ds.map (·.id.name))
    (hholder : holder? (named new.id.name (ds ++ [new])) = holder? (named new.id.name ds)) :
    Holds (ds ++ [new]) d where
  tidy := h.tidy
  names := by rw [h.names, map_append, map_singleton, eraseDups_concat, if_pos hmem]
  held name := by
    rw [h.held]
    by_cases hname : new.id.name = name
    · rw [← hname, hholder]
    · rw [named_append, named_singleton, if_neg hname, append_nil]
  compatible := h.compatible_concat hnew

end

/-- **One declaration** is registered exactly if its name keeps the rule. -/
theorem Holds.register (h : d.Holds ds) (new : Declaration) :
    (∃ d', d.register new = .ok d' ∧ d'.Holds (ds ++ [new])) ∨
    ((∃ e, d.register new = .error e) ∧ ¬ Compatible (named new.id.name (ds ++ [new]))) := by
  have hheld := h.held new.id.name
  have hnamed : named new.id.name (ds ++ [new]) = named new.id.name ds ++ [new] := by
    rw [named_append, named_singleton, if_pos rfl]
  unfold Drafting.register enter?
  rw [Program.name_numbered]
  cases hfind : d.program.find? new.id.name with
  | none =>
    rw [hfind, map_none, eq_comm, map_eq_none_iff, holder?_eq_none] at hheld
    refine .inl ⟨_, rfl, h.entered ?_ ?_⟩
    · exact .inl (by rw [hnamed, hheld]; rfl)
    · rw [hnamed, hheld, nil_append, holder?_singleton]
  | some old =>
    rw [hfind, map_some, eq_comm, map_eq_some_iff] at hheld
    obtain ⟨y, hy, hold⟩ := hheld
    have hmem : new.id.name ∈ ds.map (·.id.name) := by
      by_contra hnot
      rw [named_of_not_mem hnot] at hy
      cases hy
    obtain ⟨x, hx, hname⟩ := List.mem_map.mp hmem
    have hds : Compatible (named new.id.name ds) := by
      rw [← hname]
      exact h.compatible x hx
    have hdecide : Admission.decide old (d.program.numbered new) = Admission.decide y new := by
      rw [← Admission.decide_unnumbered, ← hold, Program.unnumbered_numbered,
        Admission.decide_unnumbered]
    dsimp only
    rw [hdecide]
    rcases hds.allow hy new with ⟨hok, hnew, hholder⟩ | ⟨hok, hnew, hholder⟩ | ⟨⟨f, hf⟩, hnew⟩
    · rw [hok]
      exact .inl ⟨_, rfl, h.entered (hnamed ▸ hnew) (hnamed ▸ hholder)⟩
    · rw [hok]
      exact .inl ⟨_, rfl, h.ignored (hnamed ▸ hnew) hmem (by rw [hnamed, hholder, hy])⟩
    · rw [hf]
      exact .inr ⟨⟨_, rfl⟩, hnamed ▸ hnew⟩

end Step

/-- **A sequence of declarations**, by induction on those that are still to come. -/
theorem Holds.registerAll {ds : List Declaration} (h : d.Holds ds) (rest : List Declaration) :
    (∃ d', d.registerAll rest = .ok d' ∧ d'.Holds (ds ++ rest)) ∨
    ((∃ e, d.registerAll rest = .error e) ∧
      ∃ x ∈ ds ++ rest, ¬ Compatible (named x.id.name (ds ++ rest))) := by
  induction rest generalizing ds d with
  | nil => exact .inl ⟨d, rfl, by rwa [append_nil]⟩
  | cons new rest ih =>
    have hparts : ds ++ new :: rest = (ds ++ [new]) ++ rest := by simp
    rw [hparts]
    unfold Drafting.registerAll
    rcases h.register new with ⟨d', hok, h'⟩ | ⟨⟨e, he⟩, hnew⟩
    · rw [hok]
      exact ih h'
    · rw [he]
      refine .inr ⟨⟨e, rfl⟩, new, by simp, fun hall => hnew ?_⟩
      rw [named_append new.id.name (ds ++ [new])] at hall
      refine hall.of_append ?_
      rw [named_append, named_singleton, if_pos rfl]
      simp

/-- What the table lists, in its order. -/
theorem Holds.declarations_eq {ds : List Declaration} (h : d.Holds ds) :
    d.program.declarations.map unnumbered =
      (ds.map (·.id.name)).eraseDups.filterMap fun name =>
        (holder? (named name ds)).map unnumbered := by
  rw [← h.names, filterMap_map, ← filterMap_eq_map]
  refine filterMap_congr fun x hx => ?_
  have hnodup : (d.program.declarations.map (·.id.name)).Nodup := by
    have hnames := h.tidy.names
    rwa [Table.names, ← h.tidy.map_id_declarations, List.map_map] at hnames
  have hfind : d.program.find? x.id.name = some x := by
    rw [h.tidy.find?_eq]
    exact (find?_name_iff hnodup).mpr ⟨hx, rfl⟩
  have hheld := h.held x.id.name
  rw [hfind] at hheld
  exact hheld

/-- **The redeclaration rule.**  A sequence of declarations is registered without a fault exactly if
every name is declared once, or by a static script with at most one stub before it and any number of
stubs after it, all of one return type.  The table then lists the names in the order in which they
were first declared, each with its static script, or else its only declaration. -/
theorem registerAll_rule (ds : List Declaration) :
    ((∃ d, registerAll { program := {} } ds = .ok d) ↔
      ∀ x ∈ ds, (named x.id.name ds).length = 1 ∨
        ∃ static, OverloadedBy static (named x.id.name ds)) ∧
    ∀ d, registerAll { program := {} } ds = .ok d →
      d.program.declarations.map unnumbered =
        (ds.map (·.id.name)).eraseDups.filterMap fun name =>
          (holder? (named name ds)).map unnumbered := by
  rcases holds_empty.registerAll ds with ⟨d, hok, hd⟩ | ⟨⟨e, he⟩, x, hx, hnot⟩
  · refine ⟨⟨fun _ => hd.compatible, fun _ => ⟨d, hok⟩⟩, fun d' hok' => ?_⟩
    obtain rfl := Except.ok.inj (hok.symm.trans hok')
    exact hd.declarations_eq
  · refine ⟨⟨?_, fun hall => absurd (hall x hx) hnot⟩, ?_⟩
    · rintro ⟨d, hd⟩
      rw [he] at hd
      cases hd
    · intro d hd
      rw [he] at hd
      cases hd

def sampleScript (kind : ScriptKind) : Script :=
  { id := ⟨"f", 0⟩, kind, returnType := "void", body := [] }

/-- A stub, a global of another name, the static script of the stub, and the stub again. -/
def redeclared : List Declaration :=
  [.script (sampleScript .stub), .global { id := ⟨"g", 0⟩, type := "short", value := default },
    .script (sampleScript .static), .script (sampleScript .stub)]

/-- A stub, its static script and another stub around a global: the script counts, and it is listed
where the first stub stood. -/
theorem registerAll_rule_redeclared : ∃ d, registerAll { program := {} } redeclared = .ok d ∧
    d.program.declarations.map unnumbered = [.script (sampleScript .static),
      .global { id := ⟨"g", 0⟩, type := "short", value := default }] := by
  have hscripts : named "f" redeclared = [sampleScript .stub, sampleScript .static,
      sampleScript .stub].map Declaration.script := rfl
  have hover : OverloadedBy (sampleScript .static) (named "f" redeclared) :=
    ⟨[sampleScript .stub], [sampleScript .stub], hscripts, Nat.le_refl _, rfl,
      by simp [sampleScript]⟩
  obtain ⟨hiff, htable⟩ := registerAll_rule redeclared
  obtain ⟨d, hd⟩ := hiff.mpr fun x hx => by
    simp only [redeclared, mem_cons, not_mem_nil, or_false] at hx
    rcases hx with rfl | rfl | rfl | rfl
    · exact .inr ⟨_, hover⟩
    · exact .inl rfl
    · exact .inr ⟨_, hover⟩
    · exact .inr ⟨_, hover⟩
  exact ⟨d, hd, htable d hd⟩

end Drafting

end HaloScript
