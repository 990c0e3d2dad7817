/-
# What lowering takes off the table

A walk collects the names of the declarations that are to go, wherever references have led it to
them, and deletes the entries of these names at its end.  This would delete the wrong entry if a
reference could lead to a declaration of the same name that has been replaced.  It cannot: in a
loaded program references lead to what the table lists, and every step keeps it so, whether it
fails or not (`Pass.run_sheds`).

So the table of the lowered program is that of the loaded one less the macros, if macro expansion
ran, and the constant globals for which a literal was found, if they were folded
(`Program.lower_keeps_names`).
-/
import HaloScript.Proofs.Links
import HaloScript.Proofs.Lowering.Again

namespace HaloScript

open List

/-! ## 1. One walk -/

/-- The program `q` is what is left of `p` when some declarations have been taken off the table. -/
structure Program.Sheds (p q : Program) (gone : DeclId → Bool) : Prop where
  alike : p.Alike q
  table : q.table.entries = p.table.entries.filter fun d => !gone d

theorem Program.Sheds.congr {p q : Program} {gone gone' : DeclId → Bool} (h : p.Sheds q gone)
    (hsame : ∀ d, gone d = gone' d) : p.Sheds q gone' := funext hsame ▸ h

theorem Program.Sheds.trans {p q r : Program} {gone gone' : DeclId → Bool} (h : p.Sheds q gone)
    (h' : q.Sheds r gone') : p.Sheds r fun d => gone d || gone' d where
  alike := h.alike.trans h'.alike
  table := by
    rw [h'.table, h.table, filter_filter]
    exact filter_congr fun d _ => by rw [Bool.not_or, Bool.and_comm]

namespace Standing

variable {σ : Type} {p q : Program} {s s' : Standing σ} {e : σ} {h : Hooks σ}

/-- **Names stand for declarations.**  If no other declaration has the name of one that was
removed, then exactly those that were removed have left. -/
theorem Final.sheds (hf : s.Final p q e) (hp : p.Tidy) {gone : DeclId → Bool}
    (hnames : ∀ d ∈ s.removed, ∀ d' ∈ p.table.entries, d.name = d'.name → d = d')
    (hgone : ∀ d ∈ p.table.entries, d ∈ s.removed ↔ gone d = true) : p.Sheds q gone where
  alike := hf.alike
  table := by
    refine eq_filter_of_sublist hf.order (Nodup.of_map _ hp.names) fun d hd => ?_
    rw [hf.table, Bool.not_eq_true', ← Bool.not_eq_true, ← hgone d hd]
    refine ⟨fun h hmem => h.2 (mem_map_of_mem hmem), fun hnot => ⟨hd, fun hmem => hnot ?_⟩⟩
    obtain ⟨d', hd', hname⟩ := mem_map.mp hmem
    exact hnames d' hd' d hd hname ▸ hd'

/-- Hooks that want nothing removed get nothing removed. -/
theorem removed_eq_nil_move (hglobal : ∀ view g e, (h.onGlobal view g e).1.remove = false)
    (hscript : ∀ a e, (h.onScript a e).1 = false) (hnone : s.removed = []) (hmove : Move h s s') :
    s'.removed = [] := by
  cases hmove with
  | global => simp [enterGlobal, hglobal, hnone]
  | script => simp [enterScript, hscript, hnone]
  | element | value | call | skip => exact hnone

end Standing

/-! ## 2. One step -/

/-- A step that was run: the program it was run on, and the state it ended in. -/
structure Stage where
  pass : Pass
  before : Program
  after : Env

namespace Stage

/-- The step has found a literal for a constant global. -/
def folds (st : Stage) (id : GlobalId) : Bool :=
  st.pass == .constGlobals && st.before.isConst id && (st.after.recorded? id).any Option.isSome

def drops (st : Stage) : DeclId → Bool
  | .script id => st.pass == .macros && st.before.isMacro (.script id)
  | .global id => st.folds id

end Stage

namespace Program.Anchors

variable {inside : DeclId → Prop} {p q : Program} {e : Env} {s : Standing Env}

/-- Nothing but members was removed, so exactly the removed ones have left. -/
theorem sheds (h : p.Anchors inside) (hf : s.Final p q e) (hinside : ∀ d ∈ s.removed, inside d)
    {gone : DeclId → Bool} (hgone : ∀ d ∈ p.table.entries, d ∈ s.removed ↔ gone d = true) :
    p.Sheds q gone :=
  hf.sheds h.tidy (fun d hd d' hd' => h.names d d' (hinside d hd) (h.bounds.table d' hd')) hgone

variable (report : Report) (limit : Int64)

theorem after (h : p.Anchors inside) {pass : Pass}
    (hbounds : (pass.run p (.fresh p.nextNode report limit)).1.Bounds inside) :
    (pass.run p (.fresh p.nextNode report limit)).1.Anchors inside :=
  ⟨pass.run_tidy h.tidy report limit, pass.run_numbered h.tidy h.numbered report limit, hbounds,
    h.names⟩

theorem after_mild (h : p.Anchors inside) {pass : Pass} (hpass : pass.Mild) :
    (pass.run p (.fresh p.nextNode report limit)).1.Anchors inside :=
  h.after report limit (h.bounds.run h.tidy
    (hpass Leaf.refersIn_atom (Callee.refersIn_word _ _ _)) report limit)

/-- A step whose hooks want nothing removed takes nothing off the table. -/
theorem sheds_nothing (h : p.Anchors inside) (pass : Pass)
    (hglobal : ∀ view g e, (pass.hooks.onGlobal view g e).1.remove = false)
    (hscript : ∀ a e, (pass.hooks.onScript a e).1 = false) :
    p.Sheds (pass.run p (.fresh p.nextNode report limit)).1 fun _ => false := by
  obtain ⟨s, hnone, hf⟩ := pass.run_final h.tidy report limit (Q := fun s => s.removed = []) rfl
    fun s s' _ hq hmove => Standing.removed_eq_nil_move hglobal hscript hq hmove
  refine h.sheds hf ?_ ?_
  · rw [hnone]
    exact fun d hd => absurd hd not_mem_nil
  · rw [hnone]
    exact fun d _ => by simp

end Program.Anchors

namespace Macros

variable {inside : DeclId → Prop} {p : Program}

/-- **Macro expansion takes the macros off the table**, all of them and nothing else, and makes no
reference lead astray. -/
theorem run_sheds (h : p.Anchors inside) (report : Report) (limit : Int64) :
    p.Sheds (Pass.macros.run p (.fresh p.nextNode report limit)).1 p.isMacro ∧
      (Pass.macros.run p (.fresh p.nextNode report limit)).1.Anchors inside := by
  obtain ⟨s, htemplates, hconfined, hf⟩ := run_confined h.tidy h.bounds (closes_refersIn inside)
    (Callee.refersIn_word _ _ _) report limit
  refine ⟨h.sheds hf hconfined.removed fun d hd => ⟨htemplates.removed d, fun hkind => ?_⟩,
    h.after report limit (hf.encloses hconfined.encloses)⟩
  -- whatever the table lists has been entered, and a macro has not been opened
  have hseen := hf.covered.seen d (h.tidy.known d hd) (hf.ended.entered d hd)
  refine hseen.resolve_left fun hopen => ?_
  rw [htemplates.opened d hopen] at hkind
  cases hkind

end Macros

namespace ConstGlobals

variable {inside : DeclId → Prop} {p : Program}

/-- **Folding constant globals takes those off the table that a literal was found for.** -/
theorem run_sheds (h : p.Anchors inside) (report : Report) (limit : Int64) :
    p.Sheds (Pass.constGlobals.run p (.fresh p.nextNode report limit)).1
      (Stage.drops ⟨.constGlobals, p,
        (Pass.constGlobals.run p (.fresh p.nextNode report limit)).2⟩) := by
  obtain ⟨s, -, hends⟩ := run_ends h.tidy h.numbered h.bounds report limit
    (Q := fun _ => True) trivial fun _ _ _ _ _ _ _ => trivial
  refine h.sheds hends.final hends.confined.removed fun d hd => ⟨fun hmem => ?_, fun hgone => ?_⟩
  · obtain ⟨id, t, rfl, hconst, hrecorded⟩ := hends.decides.removed d hmem
    rw [Stage.drops, Stage.folds, hends.final.state, hrecorded, hconst]
    rfl
  · refine (hends.final.covered.seen d (h.tidy.known d hd)
      (hends.final.ended.entered d hd)).resolve_left fun hopen => ?_
    cases d with
    | script => cases hgone
    | global id =>
      -- what has been opened was found to have no literal
      simp only [Stage.drops, Stage.folds, Bool.and_eq_true] at hgone
      rw [hends.final.state, hends.decides.opened id hopen hgone.1.2] at hgone
      cases hgone.2

end ConstGlobals

/-- **A step takes off the table what it is to take off**, and makes no reference lead astray. -/
theorem Pass.run_sheds (pass : Pass) {inside : DeclId → Prop} {p : Program} (h : p.Anchors inside)
    (report : Report) (limit : Int64) :
    p.Sheds (pass.run p (.fresh p.nextNode report limit)).1
        (Stage.drops ⟨pass, p, (pass.run p (.fresh p.nextNode report limit)).2⟩) ∧
      (pass.run p (.fresh p.nextNode report limit)).1.Anchors inside := by
  cases pass with
  | macros =>
    obtain ⟨hsheds, hafter⟩ := Macros.run_sheds h report limit
    exact ⟨hsheds.congr fun d => by cases d <;> rfl, hafter⟩
  | loops =>
    have hsheds := h.sheds_nothing report limit .loops (fun _ _ _ => rfl) fun _ _ => rfl
    exact ⟨hsheds.congr fun d => by cases d <;> rfl, h.after_mild report limit Pass.mild_loops⟩
  | constGlobals =>
    exact ⟨ConstGlobals.run_sheds h report limit, h.after_mild report limit Pass.mild_constGlobals⟩
  | folding =>
    have hsheds := h.sheds_nothing report limit .folding (fun _ _ _ => rfl) fun _ _ => rfl
    exact ⟨hsheds.congr fun d => by cases d <;> rfl, h.after_mild report limit Pass.mild_folding⟩

/-! ## 3. All steps -/

namespace Lowered

/-- The steps of a list that are run: those up to the first that leaves an error in the report. -/
def stages (limit : Int64) (p : Program) (report : Report) : List Pass → List Stage
  | [] => []
  | pass :: rest =>
    let (q, e) := pass.run p (.fresh p.nextNode report limit)
    ⟨pass, p, e⟩ :: if e.report.hasErrors then [] else stages limit q e.report rest

def finished (log : List LogEntry) : List Text :=
  (log.filter (·.message == ("pass finished" : Text))).filterMap
    (·.attributes.lookup ("pass" : Text))

variable {p : Program} {limit : Int64} {report : Report} {passes : List Pass}

theorem finished_log : finished (run limit p report passes).log =
    (stages limit p report passes).map (·.pass.name) := by
  induction passes generalizing p report with
  | nil => rfl
  | cons pass rest ih =>
    rw [run, stages]
    dsimp only
    split
    · rfl
    · exact congrArg (pass.name :: ·) ih

/-- All steps are run on programs of the same signatures. -/
theorem alike_stages (hp : p.Tidy) {st : Stage} (hst : st ∈ stages limit p report passes) :
    p.Alike st.before := by
  induction passes generalizing p report with
  | nil => exact absurd hst not_mem_nil
  | cons pass rest ih =>
    rw [stages] at hst
    rcases mem_cons.mp hst with rfl | hst
    · exact .refl p
    · split at hst
      · exact absurd hst not_mem_nil
      · exact (pass.run_alike hp report limit).trans (ih (pass.run_tidy hp report limit) hst)

/-- **Every step that is run takes off the table what it is to take off.** -/
theorem run_sheds {inside : DeclId → Prop} (h : p.Anchors inside) :
    p.Sheds (run limit p report passes).program
      fun d => (stages limit p report passes).any (·.drops d) := by
  induction passes generalizing p report with
  | nil => exact ⟨.refl p, by simp [run, stages]⟩
  | cons pass rest ih =>
    obtain ⟨hsheds, hafter⟩ := pass.run_sheds h report limit
    rw [run, stages]
    dsimp only
    split
    · exact hsheds.congr fun d => by simp
    · exact (hsheds.trans (ih hafter)).congr fun d => by rw [any_cons]

/-- What is gone after some steps on the program `p`: its macros, if they were expanded, and the
constant globals that were folded. -/
def gone (p : Program) (ran : List Stage) : DeclId → Bool
  | .script id => ran.any (·.pass == .macros) && p.isMacro (.script id)
  | .global id => ran.any (·.folds id)

theorem any_drops (hp : p.Tidy) (d : DeclId) :
    (stages limit p report passes).any (·.drops d) = gone p (stages limit p report passes) d := by
  cases d with
  | global => rfl
  | script =>
    rw [gone, Bool.eq_iff_iff]
    simp only [any_eq_true, Bool.and_eq_true, Stage.drops]
    constructor
    · rintro ⟨st, hst, hpass, hkind⟩
      exact ⟨⟨st, hst, hpass⟩, (alike_stages hp hst).isMacro _ ▸ hkind⟩
    · rintro ⟨⟨st, hst, hpass⟩, hkind⟩
      exact ⟨st, hst, hpass, ((alike_stages hp hst).isMacro _).trans hkind⟩

end Lowered

namespace Program

variable {p q : Program} {d : DeclId} {a : Declaration}

/-- The other program has a declaration of the same signature. -/
theorem Alike.declaration? (h : p.Alike q) (ha : p.declaration? d = some a) :
    ∃ b, q.declaration? d = some b ∧ b.signature = a.signature := by
  cases d with
  | global =>
    obtain ⟨g, hg, rfl⟩ := Option.map_eq_some_iff.mp ha
    obtain ⟨g', hg', hsame⟩ := h.getElem?_globals hg
    exact ⟨.global g', congrArg (Option.map Declaration.global) hg',
      congrArg Declaration.global hsame.symm⟩
  | script =>
    obtain ⟨m, hm, rfl⟩ := Option.map_eq_some_iff.mp ha
    obtain ⟨m', hm', hsame⟩ := h.getElem?_scripts hm
    exact ⟨.script m', congrArg (Option.map Declaration.script) hm',
      congrArg Declaration.script hsame.symm⟩

theorem Tidy.find?_of_mem (hp : p.Tidy) (hd : d ∈ p.table.entries) :
    ∃ a, p.declaration? d = some a ∧ a.id = d ∧ p.find? d.name = some a := by
  obtain ⟨a, ha, hid⟩ := hp.exists_declaration (hp.known d hd)
  have hget : p.table.get? d.name = some d := (find?_name_iff hp.names).mpr ⟨hd, rfl⟩
  exact ⟨a, ha, hid, by rw [find?, hget, Option.bind_some, ha]⟩

/-- **Lowering loses no declaration.**  Whatever steps are selected and whatever they report, the
table keeps its order and loses exactly the macros, if macro expansion was run, and the constant
globals that were folded, if they were; and a name that stays leads to the same declaration. -/
theorem lower_keeps_names (report before : Report) (lib : Library) (entry : Entry) (set : PassSet)
    (limit : Int64) :
    let p := (load {} report lib entry).program
    let ran := Lowered.stages limit p before set.toList
    let lowered := p.lower before set limit
    lowered.program.table.entries = (p.table.entries.filter fun d => !Lowered.gone p ran d) ∧
      (∀ name ∈ lowered.program.table.names, ∃ a b, p.find? name = some a ∧
        lowered.program.find? name = some b ∧ b.id = a.id ∧ b.signature = a.signature) ∧
      Lowered.finished lowered.log = ran.map (·.pass.name) := by
  intro p ran lowered
  have hanchors := load_anchors report lib entry
  have hsheds : p.Sheds lowered.program (Lowered.gone p ran) :=
    (Lowered.run_sheds hanchors).congr (Lowered.any_drops hanchors.tidy)
  refine ⟨hsheds.table, fun name hname => ?_, Lowered.finished_log⟩
  have htable : lowered.program.table.entries.Sublist p.table.entries :=
    hsheds.table ▸ filter_sublist
  have hp' := hanchors.tidy.of_alike hsheds.alike htable
  obtain ⟨d, hd, rfl⟩ := mem_map.mp hname
  obtain ⟨a, ha, hid, hfind⟩ := hanchors.tidy.find?_of_mem (htable.subset hd)
  obtain ⟨b, hb, hid', hfind'⟩ := hp'.find?_of_mem hd
  obtain ⟨b', hb', hsignature⟩ := hsheds.alike.declaration? ha
  obtain rfl : b = b' := Option.some.inj (hb.symm.trans hb')
  exact ⟨a, b, hfind, hfind', hid'.trans hid.symm, hsignature⟩

end Program

end HaloScript
