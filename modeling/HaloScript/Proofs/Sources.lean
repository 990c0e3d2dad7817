/-
# Loading sources

The forms that are declared are those of the starting source and, after them, those of the files
it imports.  If no error is reported, all of them come from files that were read to the end, so
their atoms are such as the printer can write, and an atom that begins with a quote stands right
behind a closing bracket (`Form.Sourced`).

`Program.load_drawn` says what a program is that was loaded without an error: the declarations of
a draft, linked.  `Program.load_source` is the converse for a source without imports.
-/
import HaloScript.Proofs.Drafts
import HaloScript.Proofs.Imports

namespace HaloScript

open List

/-! ## 1. Forms of files -/

namespace Lexeme

theorem Ordered.of_append {xs ys : List Lexeme} : ∀ {before : Option Lexeme},
    Ordered before (xs ++ ys) → Ordered before xs := by
  induction xs with
  | nil => exact fun _ => trivial
  | cons x rest ih => exact fun h => ⟨h.1, ih h.2⟩

theorem Ordered.after {x : Lexeme} {ys xs : List Lexeme} : ∀ {before : Option Lexeme},
    Ordered before (xs ++ x :: ys) → Ordered (some x) ys := by
  induction xs with
  | nil => exact fun h => h.2
  | cons y rest ih => exact fun h => ih h.2

theorem Ordered.words {ts : List Text} {ys : List Lexeme} : ∀ {before : Option Lexeme},
    before ≠ some .closing → Ordered before (ts.map .atom ++ ys) → ∀ t ∈ ts, ¬ t.StartsQuote := by
  induction ts with
  | nil => exact fun _ _ t ht => absurd ht not_mem_nil
  | cons u rest ih =>
    intro before hb h
    rw [forall_mem_cons]
    refine ⟨fun hu => hb (h.1 ⟨u, rfl, hu⟩), ih (by simp) h.2⟩

end Lexeme

/-- A top-level form as it comes from a file. -/
structure Form.Sourced (f : Form) : Prop where
  readable : ∀ t, Lexeme.atom t ∈ Shape.lexemesAll (Form.shapes f.items) → t.Readable
  ordered : Lexeme.Ordered (some .opening) (Shape.lexemesAll (Form.shapes f.items))

theorem SourceFile.read_sourced {file : SourceFile} (h : file.read.error = none) :
    ∀ f ∈ file.read.forms, f.Sourced := by
  obtain ⟨-, hlists, hlexemes⟩ := read_ok h
  obtain ⟨hread, hordered⟩ := scan_sound file
  rw [← hlexemes] at hread hordered
  intro f hf
  have hshape := (hlists f hf).shape_eq
  obtain ⟨before, after, hsplit⟩ := append_of_mem hf
  have hall : Shape.lexemesAll (Form.shapes file.read.forms) =
      Shape.lexemesAll (Form.shapes before) ++
        .opening :: (Shape.lexemesAll (Form.shapes f.items) ++
        .closing :: Shape.lexemesAll (Form.shapes after)) := by
    rw [hsplit, Form.shapes_append, Shape.lexemesAll_append, Form.shapes, hshape]
    simp [Shape.lexemesAll, Shape.lexemes]
  rw [hall] at hread hordered
  exact ⟨fun t ht => hread t (by simp [ht]), hordered.after.of_append⟩

/-! ## 2. The forms to be declared -/

namespace Report

theorem hasErrors_add_error (r : Report) {m : Message} (h : m.level = .error) :
    (r.add m).hasErrors = true := by
  simp [add, hasErrors, h]

end Report

namespace Intake

variable {lib : Library} {i : Intake}

theorem parse_sound {path : Text} {file : SourceFile}
    (h : (i.parse path file).1.report.hasErrors = false) :
    i.report.hasErrors = false ∧ file.read.error = none := by
  unfold parse at h
  cases herror : file.read.error with
  | none => exact ⟨by simpa [herror] using h, rfl⟩
  | some =>
    simp only [herror] at h
    rw [Report.tellError, Report.tellAt, Report.hasErrors_add_error _ rfl] at h
    exact absurd h (by simp)

/-- If nothing is wrong with an import, its forms come from a file, and nothing was wrong before. -/
theorem importFile_sound {name : Text} {mention : Option Span}
    (h : (i.importFile lib name mention).1.report.hasErrors = false) :
    i.report.hasErrors = false ∧ ∀ f ∈ (i.importFile lib name mention).2, f.Sourced := by
  unfold importFile at h ⊢
  dsimp only at h ⊢
  split
  · next hseen =>
    rw [if_pos hseen] at h
    exact ⟨h, fun f hf => absurd hf not_mem_nil⟩
  · next hseen =>
    rw [if_neg hseen] at h
    split
    · next why hread =>
      rw [hread] at h
      exfalso
      revert h
      cases mention <;>
        simp [tellMissing, tellAt, Report.tellAt, Report.tell, Report.hasErrors_add_error]
    · next content hread =>
      rw [hread] at h
      obtain ⟨hreport, herror⟩ := parse_sound h
      exact ⟨hreport, SourceFile.read_sourced herror⟩

theorem scanForm_sound {f : Form} (h : (i.scanForm lib f).1.report.hasErrors = false) :
    i.report.hasErrors = false ∧ ∀ g ∈ (i.scanForm lib f).2, g.Sourced := by
  unfold scanForm at h ⊢
  cases hrequest : ImportRequest.ofForm f with
  | none =>
    rw [hrequest] at h
    exact ⟨h, fun g hg => absurd hg not_mem_nil⟩
  | malformed =>
    rw [hrequest] at h
    exact absurd h (by simp [tellAt, Report.tellAt, Report.hasErrors_add_error])
  | notName =>
    rw [hrequest] at h
    exact absurd h (by simp [tellAt, Report.tellAt, Report.hasErrors_add_error])
  | file =>
    rw [hrequest] at h
    exact importFile_sound h

/-- **The forms of imported files** come after those that are there. -/
theorem scanAll_sound (lib : Library) (i : Intake) (scanned queue : List Form) :
    ∃ more, (i.scanAll lib scanned queue).2 = scanned.reverse ++ queue ++ more ∧
      ((i.scanAll lib scanned queue).1.report.hasErrors = false →
        i.report.hasErrors = false ∧ ∀ f ∈ more, f.Sourced) := by
  induction i, scanned, queue using scanAll.induct lib with
  | case1 i scanned =>
    rw [scanAll]
    exact ⟨[], by simp, fun h => ⟨h, fun f hf => absurd hf not_mem_nil⟩⟩
  | case2 i scanned f rest ih =>
    obtain ⟨more, hpool, hsound⟩ := ih
    rw [scanAll]
    refine ⟨(i.scanForm lib f).2 ++ more, by rw [hpool]; simp, fun h => ?_⟩
    obtain ⟨hreport, hmore⟩ := hsound h
    obtain ⟨hbefore, hforms⟩ := scanForm_sound hreport
    refine ⟨hbefore, fun g hg => ?_⟩
    rcases mem_append.mp hg with hg | hg
    · exact hforms g hg
    · exact hmore g hg

/-- Without imports there is nothing to add. -/
theorem scanAll_eq {queue : List Form} : ∀ {i : Intake} {scanned : List Form},
    (∀ f ∈ queue, f.head? ≠ some ("import" : Text)) →
    i.scanAll lib scanned queue = (i, scanned.reverse ++ queue) := by
  induction queue with
  | nil => intro i scanned _; rw [scanAll, append_nil]
  | cons f rest ih =>
    intro i scanned h
    rw [forall_mem_cons] at h
    have hscan : i.scanForm lib f = (i, []) := by
      rw [scanForm, ImportRequest.ofForm, if_neg h.1]
    rw [scanAll, hscan, append_nil, ih h.2]
    simp

end Intake

/-! ## 3. Loading -/

namespace Program

variable {lib : Library} {entry : Entry}

theorem start_sound (h : (start lib {} entry).1.report.hasErrors = false) :
    ∀ f ∈ (start lib {} entry).2, f.Sourced := by
  cases entry with
  | file => exact (Intake.importFile_sound h).2
  | source => exact SourceFile.read_sourced (Intake.parse_sound h).2

abbrev formShapes (fs : List Form) : List (List Shape) := fs.map fun f => Form.shapes f.items

/-- The program has the declarations of a draft, linked. -/
def Draws (p : Program) (ds : Draft) : Prop :=
  p.outline = ds.listed.map (DeclOutline.link ds.directory) ∧
  (∀ d ∈ p.all, ∃ o ∈ ds.entered, ∃ place, d.outline place = o.link ds.directory) ∧
  ds.entered.any (DeclOutline.callsGlobal ds.directory) = false

/-- **A program that was loaded without an error** has the declarations of a draft of the forms
that were read, linked. -/
theorem load_drafted (h : (load {} {} lib entry).ok = true) :
    (gather {} lib entry).1.report.hasErrors = false ∧
    ∃ ds, Draft.forms? {} (formShapes (gather {} lib entry).2) = some ds ∧
      (load {} {} lib entry).program.Draws ds := by
  rw [load, Loaded.ok] at h
  rw [load]
  generalize gather {} lib entry = g at h ⊢
  obtain ⟨i, pool⟩ := g
  unfold declareAll at h ⊢
  dsimp only at h ⊢
  split at h
  · next herrors => simp [herrors] at h
  · next herrors =>
    rw [Bool.not_eq_true] at herrors
    rw [herrors, if_neg Bool.false_ne_true]
    have hforms := Drafting.forms_drawn pool Drafting.drawn_empty
    split at h
    · exact absurd h (by simp [Report.tellError, Report.tellAt, Report.hasErrors_add_error])
    · next hfault =>
      cases hds : Draft.forms? {} (formShapes pool) with
      | none =>
        rw [hds, hfault] at hforms
        exact absurd hforms (by simp)
      | some ds =>
        rw [hds] at hforms
        obtain ⟨houtline, hall, herrs⟩ := hforms.2.resolveAll i.report
        rw [StateT.run] at h ⊢
        generalize resolveAll _ _ _ = out at h houtline hall herrs ⊢
        obtain ⟨p, r⟩ := out
        refine ⟨rfl, ds, rfl, houtline, fun d hd => ?_, ?_⟩
        · obtain ⟨o, ho, heq⟩ := hall d hd
          exact ⟨o, ho, _, heq⟩
        · have hok : r.hasErrors = false := by simpa using h
          exact (Bool.or_eq_false_iff.mp (herrs.symm.trans hok)).2

/-- The same, with the forms of the starting source in front, all of them as they come from
files. -/
theorem load_drawn (h : (load {} {} lib entry).ok = true) :
    (start lib {} entry).1.report.hasErrors = false ∧
    ∃ more ds, (∀ f ∈ (start lib {} entry).2 ++ more, f.Sourced) ∧
      Draft.forms? {} (formShapes ((start lib {} entry).2 ++ more)) = some ds ∧
      (load {} {} lib entry).program.Draws ds := by
  obtain ⟨herrors, ds, hds, hrest⟩ := load_drafted h
  obtain ⟨more, hpool, hsound⟩ :=
    Intake.scanAll_sound lib (start lib {} entry).1 [] (start lib {} entry).2
  rw [reverse_nil, nil_append] at hpool
  obtain ⟨hstart, hmore⟩ := hsound herrors
  refine ⟨hstart, more, ds, fun f hf => ?_, ?_, hrest⟩
  · rcases mem_append.mp hf with hf | hf
    · exact start_sound hstart f hf
    · exact hmore f hf
  · rw [← hpool]
    exact hds

/-- **A source without imports** that can be read, declared and linked is loaded without error. -/
theorem load_source (lib : Library) {file : SourceFile} {ds : Draft}
    (hread : file.read.error = none)
    (himports : ∀ f ∈ file.read.forms, f.head? ≠ some ("import" : Text))
    (hds : Draft.forms? {} (formShapes file.read.forms) = some ds)
    (hcalls : ds.entered.any (DeclOutline.callsGlobal ds.directory) = false) :
    (load {} {} lib (.source file)).ok = true ∧
      (load {} {} lib (.source file)).program.outline =
        ds.listed.map (DeclOutline.link ds.directory) := by
  have hforms := Drafting.forms_drawn file.read.forms Drafting.drawn_empty
  rw [hds] at hforms
  obtain ⟨hfault, hdrawn⟩ := hforms
  obtain ⟨houtline, -, herrs⟩ := hdrawn.resolveAll {}
  have hstart : start lib {} (.source file) =
      ({ files := [(Path.clean file.name, file)] }, file.read.forms) := by
    simp [start, Intake.parse, hread]
  have hclean : Report.hasErrors {} = false := by simp [Report.hasErrors]
  unfold load declareAll gather Loaded.ok
  simp only [hstart, Intake.scanAll_eq himports, reverse_nil, nil_append, hclean,
    Bool.false_eq_true, if_false, hfault]
  rw [hclean, hcalls, Bool.false_or] at herrs
  rw [StateT.run]
  generalize resolveAll _ _ _ = out at houtline herrs ⊢
  obtain ⟨p, r⟩ := out
  exact ⟨by simpa using herrs, houtline⟩

end Program

end HaloScript
