/-
# The files that are read

Reading follows imports breadth first over a queue of forms that grows while it is scanned.
`Gathered` is what holds between two steps of the scan: the forms scanned and those still in the
queue are the forms of the files read, in the order of reading, and the files read are those that
have been mentioned in the forms scanned, in the order of first mention.  When the queue is empty
all forms have been scanned, so the files read are closed under imports, and each of them had to be
read (`load_reads_closure`).

Nothing is asked of the imports: they may be missing, repeated, circular, or spelt in several ways.
-/
import HaloScript.Build.Import
import HaloScript.Proofs.Collections
import HaloScript.Proofs.Reading
import Mathlib.Data.List.Nodup
import Mathlib.Order.Bounds.Basic

namespace HaloScript

open List Form

/-! ## 1. What is there to be read -/

def Shape.import? : List Shape → Option Text
  | [.atom word, .atom name] => if word = ("import" : Text) then some (Path.clean name) else none
  | _ => none

def Form.import? (f : Form) : Option Text := Shape.import? (shapes f.items)

def Library.file? (lib : Library) (path : Text) : Option SourceFile :=
  (lib.files.lookup path).map fun content => ⟨path, content⟩

namespace Entry

def path : Entry → Text
  | .file name => Path.clean name
  | .source given => Path.clean given.name

def given? : Entry → Text → Option SourceFile
  | .file _, _ => none
  | .source given, path => if path = Path.clean given.name then some given else none

/-- The file under a path.  A source that is given hides the file of its name. -/
def file? (lib : Library) (entry : Entry) (path : Text) : Option SourceFile :=
  (entry.given? path).or (lib.file? path)

def has (lib : Library) (entry : Entry) (path : Text) : Bool := (entry.file? lib path).isSome

/-- A set of paths with the starting source and all that is imported from a file of the set, as
far as there are such files. -/
structure Closed (lib : Library) (entry : Entry) (s : Set Text) : Prop where
  start : entry.has lib entry.path = true → entry.path ∈ s
  imports : ∀ path ∈ s, ∀ file, entry.file? lib path = some file → ∀ f ∈ file.read.forms,
    ∀ target, f.import? = some target → entry.has lib target = true → target ∈ s

theorem file?_file (lib : Library) (name path : Text) :
    (Entry.file name).file? lib path = lib.file? path := rfl

theorem file?_given (lib : Library) (given : SourceFile) :
    (Entry.source given).file? lib (Path.clean given.name) = some given := by
  simp [file?, given?]

theorem file?_of_ne (lib : Library) {entry : Entry} {path : Text} (h : path ≠ entry.path) :
    entry.given? path = none ∧ entry.file? lib path = lib.file? path := by
  cases entry with
  | file => exact ⟨rfl, rfl⟩
  | source given =>
    have hgiven : (Entry.source given).given? path = none := if_neg h
    exact ⟨hgiven, by rw [file?, hgiven, Option.none_or]⟩

end Entry

/-- The file that a line of the log says is imported. -/
def LogEntry.imported? (e : LogEntry) : Option Text :=
  if e.message = ("importing file" : Text) then e.attributes.lookup ("file" : Text) else none

/-! ## 2. One import -/

namespace Intake

variable {f : Form} {rest : List Form} {path : Text}

def paths (i : Intake) : List Text := i.files.reverse.map Prod.fst

def imported (i : Intake) : List Text := i.log.reverse.filterMap LogEntry.imported?

theorem seen_iff (i : Intake) (path : Text) : i.seen path = true ↔ path ∈ i.paths := by
  simp only [seen, lookup_isSome_iff, paths, mem_map, mem_reverse, beq_iff_eq]
  exact exists_congr fun x => and_congr_right fun _ => eq_comm

theorem missing_files (i : Intake) (path name : Text) (why : ReadFailure) (mention : Option Span) :
    ((i.logFailure path why).tellMissing name mention).files = i.files ∧
      ((i.logFailure path why).tellMissing name mention).imported = i.imported := by
  have hlog : (i.logFailure path why).files = i.files ∧
      (i.logFailure path why).imported = i.imported := by
    cases why with
    | missing => exact ⟨rfl, rfl⟩
    | unreadable =>
      have hmessage : ("reading source file failed" : Text) ≠ "importing file" := by decide
      exact ⟨rfl, by simp [imported, logFailure, LogEntry.imported?, hmessage]⟩
  cases mention <;> exact hlog

/-- What an import adds: nothing, or a file that is new. -/
inductive Added (i : Intake) (path : Text) (file? : Option SourceFile) :
    Intake × List Form → Prop
  | nothing {i' : Intake} (h : path ∈ i.paths ∨ file? = none) (hfiles : i'.files = i.files)
      (hlog : i'.imported = i.imported) : Added i path file? (i', [])
  | file {i' : Intake} {file : SourceFile} (h : path ∉ i.paths) (hfile : file? = some file)
      (hfiles : i'.files = (path, file) :: i.files)
      (hlog : i'.imported = i.imported ++ [path]) : Added i path file? (i', file.read.forms)

/-- A path is looked up in normal form.  What it leads to is added, unless it has been read
before. -/
theorem importFile_added (lib : Library) (i : Intake) (name : Text) (mention : Option Span) :
    Added i (Path.clean name) (lib.file? (Path.clean name)) (i.importFile lib name mention) := by
  unfold importFile
  dsimp only
  split
  · next hseen => exact .nothing (.inl ((seen_iff _ _).mp hseen)) rfl rfl
  · next hseen =>
    rw [seen_iff] at hseen
    unfold Library.read
    cases hfile : lib.files.lookup (Path.clean name) with
    | none =>
      obtain ⟨hfiles, hlog⟩ := missing_files i (Path.clean name) name
        (lib.failure (Path.clean name)) mention
      exact .nothing (.inr (by rw [Library.file?, hfile, Option.map_none])) hfiles hlog
    | some =>
      refine .file hseen (by rw [Library.file?, hfile, Option.map_some]) rfl ?_
      simp [imported, LogEntry.imported?]

/-- A form that asks for no file adds none. -/
theorem scanForm_of_none (lib : Library) (i : Intake) (h : f.import? = none) :
    (i.scanForm lib f).1.files = i.files ∧ (i.scanForm lib f).1.imported = i.imported ∧
      (i.scanForm lib f).2 = [] := by
  unfold scanForm
  cases hrequest : ImportRequest.ofForm f with
  | none => exact ⟨rfl, rfl, rfl⟩
  | malformed => exact ⟨rfl, rfl, rfl⟩
  | notName => exact ⟨rfl, rfl, rfl⟩
  | file =>
    exfalso
    unfold ImportRequest.ofForm at hrequest
    split at hrequest
    · next hhead =>
      split at hrequest
      · next a s q hitems =>
        rw [Form.head?, hitems] at hhead
        cases a with
        | list => simp [Form.text?] at hhead
        | atom s' q' =>
          have hword : atomText s' q' = ("import" : Text) := by
            simpa [Form.text?] using hhead
          simp [import?, hitems, shapes, shape, Shape.import?, hword] at h
      · exact ImportRequest.noConfusion hrequest
      · exact ImportRequest.noConfusion hrequest
    · exact ImportRequest.noConfusion hrequest

/-- A form that asks for a file adds it, if it is new. -/
theorem scanForm_of_some (lib : Library) (i : Intake) (h : f.import? = some path) :
    Added i path (lib.file? path) (i.scanForm lib f) := by
  unfold import? Shape.import? at h
  split at h
  · next word name hshapes =>
    obtain ⟨hword, rfl⟩ : word = ("import" : Text) ∧ Path.clean name = path := by simpa using h
    have hitems : ∃ s q s' q', f.items = [.atom s q, .atom s' q'] ∧ atomText s q = word ∧
        atomText s' q' = name := by
      rw [shapes_eq_map] at hshapes
      obtain ⟨a, rest, hitems, ha, hrest⟩ := map_eq_cons_iff.mp hshapes
      obtain ⟨b, rest', rfl, hb, hnil⟩ := map_eq_cons_iff.mp hrest
      rw [map_eq_nil_iff] at hnil
      subst hnil
      cases a with
      | list => simp [shape] at ha
      | atom s q =>
        cases b with
        | list => simp [shape] at hb
        | atom s' q' =>
          exact ⟨s, q, s', q', hitems, by simpa [shape] using ha,
            by simpa [shape] using hb⟩
    obtain ⟨s, q, s', q', hitems, rfl, rfl⟩ := hitems
    have hrequest : ImportRequest.ofForm f = .file (atomText s' q') := by
      simp [ImportRequest.ofForm, Form.head?, hitems, Form.text?, hword]
    rw [scanForm, hrequest]
    exact importFile_added lib i (atomText s' q') (some f.span)
  · simp at h

/-! ## 3. The scan -/

/-- What holds between two steps of the scan. -/
structure Gathered (lib : Library) (entry : Entry) (i : Intake) (scanned queue : List Form) :
    Prop where
  /-- The files read are those that are there. -/
  files : ∀ x ∈ i.files, entry.file? lib x.1 = some x.2
  /-- The forms are those of the files read. -/
  forms : scanned.reverse ++ queue = i.files.reverse.flatMap (·.2.read.forms)
  /-- The files come in the order in which they are first mentioned. -/
  mentions : i.paths =
    ((entry.path :: scanned.reverse.filterMap import?).filter (entry.has lib)).eraseDups
  nodup : i.paths.Nodup
  /-- Every file had to be read. -/
  least : ∀ s, entry.Closed lib s → ∀ path ∈ i.paths, path ∈ s
  /-- Every file of the library was imported once. -/
  imported : i.imported = i.paths.filter fun path => (entry.given? path).isNone

variable {lib : Library} {entry : Entry} {i : Intake} {scanned queue : List Form}

section

variable (h : Gathered lib entry i scanned queue)

include h

theorem Gathered.mem_file (hf : f ∈ queue) : ∃ x ∈ i.files, f ∈ x.2.read.forms := by
  have hmem : f ∈ i.files.reverse.flatMap (·.2.read.forms) :=
    h.forms ▸ mem_append_right _ hf
  obtain ⟨x, hx, hfx⟩ := mem_flatMap.mp hmem
  exact ⟨x, mem_reverse.mp hx, hfx⟩

/-- Whatever a form of the queue mentions had to be read. -/
theorem Gathered.mem_closed (hf : f ∈ queue) (hpath : f.import? = some path)
    (hhas : entry.has lib path = true) (s : Set Text) (hs : entry.Closed lib s) : path ∈ s := by
  obtain ⟨x, hx, hfx⟩ := h.mem_file hf
  have hmem : x.1 ∈ i.paths := mem_map_of_mem (mem_reverse.mpr hx)
  exact hs.imports x.1 (h.least s hs x.1 hmem) x.2 (h.files x hx) f hfx path hpath hhas

theorem Gathered.start_mem (hhas : entry.has lib entry.path = true) : entry.path ∈ i.paths := by
  rw [h.mentions, mem_eraseDups]
  exact mem_filter.mpr ⟨mem_cons_self, hhas⟩

end

section

variable (h : Gathered lib entry i scanned (f :: rest))

include h

/-- A new file under a path that was mentioned. -/
theorem Gathered.with_file {i' : Intake} {file : SourceFile} (hpath : f.import? = some path)
    (hnew : path ∉ i.paths) (hgiven : entry.given? path = none)
    (hfile : entry.file? lib path = some file) (hfiles : i'.files = (path, file) :: i.files)
    (hlog : i'.imported = i.imported ++ [path]) :
    Gathered lib entry i' (f :: scanned) (rest ++ file.read.forms) := by
  have hhas : entry.has lib path = true := by rw [Entry.has, hfile, Option.isSome_some]
  have hpaths : i'.paths = i.paths ++ [path] := by simp [paths, hfiles]
  have hmentions := h.mentions
  have hnot : path ∉ (entry.path :: scanned.reverse.filterMap import?).filter
      (entry.has lib) := by rwa [← mem_eraseDups, ← h.mentions]
  constructor
  · rw [hfiles, forall_mem_cons]
    exact ⟨hfile, h.files⟩
  · rw [hfiles, reverse_cons, reverse_cons, flatMap_append, ← h.forms]
    simp
  · have hsplit : (entry.path :: (f :: scanned).reverse.filterMap import?).filter
        (entry.has lib) =
        (entry.path :: scanned.reverse.filterMap import?).filter (entry.has lib) ++ [path] := by
      rw [reverse_cons, filterMap_append, ← cons_append, filter_append]
      simp [hpath, hhas]
    rw [hsplit, eraseDups_concat, if_neg hnot, ← hmentions, hpaths]
  · rw [hpaths]
    rw [← concat_eq_append]
    exact h.nodup.concat hnew
  · intro s hs
    rw [hpaths, forall_mem_append, forall_mem_singleton]
    exact ⟨h.least s hs, h.mem_closed mem_cons_self hpath hhas s hs⟩
  · rw [hlog, hpaths, h.imported, filter_append]
    simp [hgiven]

/-- A form that adds no file. -/
theorem Gathered.without_file {i' : Intake}
    (hold : ∀ path, f.import? = some path → entry.has lib path = true → path ∈ i.paths)
    (hfiles : i'.files = i.files) (hlog : i'.imported = i.imported) :
    Gathered lib entry i' (f :: scanned) rest := by
  have hpaths : i'.paths = i.paths := by simp [paths, hfiles]
  refine ⟨by rw [hfiles]; exact h.files, ?_, ?_, by rw [hpaths]; exact h.nodup,
    by rw [hpaths]; exact h.least, by rw [hlog, hpaths, h.imported]⟩
  · rw [hfiles, ← h.forms]
    simp
  · rw [reverse_cons, filterMap_append, ← cons_append, filter_append, hpaths]
    cases hpath : f.import? with
    | none => simpa [hpath] using h.mentions
    | some path =>
      by_cases hhas : entry.has lib path = true
      · have hmem := hold path hpath hhas
        rw [h.mentions, mem_eraseDups] at hmem
        have hlast : ([f].filterMap import?).filter (entry.has lib) = [path] := by
          simp [hpath, hhas]
        rw [hlast, eraseDups_concat, if_pos hmem]
        exact h.mentions
      · have hlast : ([f].filterMap import?).filter (entry.has lib) = [] := by
          simp [hpath, hhas]
        rw [hlast, append_nil]
        exact h.mentions

/-- **Scanning one form** keeps the invariant. -/
theorem scanForm_gathered :
    Gathered lib entry (i.scanForm lib f).1 (f :: scanned) (rest ++ (i.scanForm lib f).2) := by
  cases hpath : f.import? with
  | none =>
    obtain ⟨hfiles, hlog, hforms⟩ := scanForm_of_none lib i hpath
    rw [hforms, append_nil]
    exact h.without_file (by simp [hpath]) hfiles hlog
  | some path =>
    have hadded := scanForm_of_some lib i hpath
    generalize i.scanForm lib f = r at hadded ⊢
    cases hadded with
    | nothing hold hfiles hlog =>
      rw [append_nil]
      refine h.without_file ?_ hfiles hlog
      rintro path' hpath' hhas
      obtain rfl : path = path' := Option.some.inj (hpath.symm.trans hpath')
      by_cases hstart : path = entry.path
      · subst hstart
        exact h.start_mem hhas
      · rw [Entry.has, (Entry.file?_of_ne lib hstart).2] at hhas
        refine hold.resolve_right fun hnone => ?_
        simp [hnone] at hhas
    | file hnew hfile hfiles hlog =>
      -- a given source has been read, so a new file is one of the library
      have hstart : path ≠ entry.path := by
        rintro rfl
        refine hnew (h.start_mem ?_)
        rw [Entry.has, Entry.file?, hfile]
        simp
      obtain ⟨hgiven, hsame⟩ := Entry.file?_of_ne lib hstart
      exact h.with_file hpath hnew hgiven (hsame.trans hfile) hfiles hlog

end

/-- **Scanning all forms** keeps the invariant, up to the point where no form is left. -/
theorem scanAll_gathered (i : Intake) (scanned queue : List Form)
    (h : Gathered lib entry i scanned queue) :
    Gathered lib entry (i.scanAll lib scanned queue).1
      (i.scanAll lib scanned queue).2.reverse [] := by
  induction i, scanned, queue using scanAll.induct lib with
  | case1 i scanned =>
    rw [scanAll, reverse_reverse]
    exact h
  | case2 i scanned f rest ih =>
    rw [scanAll]
    exact ih (scanForm_gathered h)

/-- When no form is left, the files read are the starting source and all that is mentioned. -/
theorem Gathered.mem_paths {pool : List Form} (h : Gathered lib entry i pool.reverse [])
    (path : Text) : path ∈ i.paths ↔
      (path = entry.path ∨ ∃ f ∈ pool, f.import? = some path) ∧ entry.has lib path = true := by
  rw [h.mentions, mem_eraseDups, mem_filter, mem_cons, mem_filterMap,
    reverse_reverse]

/-- When no form is left, the files read are the least set that is closed under imports. -/
theorem Gathered.isLeast {pool : List Form} (h : Gathered lib entry i pool.reverse []) :
    IsLeast {s | entry.Closed lib s} {path | path ∈ i.paths} := by
  refine ⟨⟨fun hhas => h.start_mem hhas, ?_⟩, fun s hs path hpath => h.least s hs path hpath⟩
  intro path hpath file hfile f hf target htarget hhas
  obtain ⟨x, hx, rfl⟩ := mem_map.mp hpath
  have hfile' := h.files x (mem_reverse.mp hx)
  obtain rfl : x.2 = file := Option.some.inj (hfile'.symm.trans hfile)
  refine (h.mem_paths target).mpr ⟨.inr ⟨f, ?_, htarget⟩, hhas⟩
  have hforms := h.forms
  rw [reverse_reverse, append_nil] at hforms
  rw [hforms]
  exact mem_flatMap.mpr ⟨x, hx, hf⟩

end Intake

/-! ## 4. Loading -/

namespace Program

theorem declareAll_files (p : Program) (i : Intake) (pool : List Form) :
    (p.declareAll i pool).files = i.files.reverse ∧ (p.declareAll i pool).log = i.log.reverse := by
  unfold declareAll
  dsimp only
  split
  · exact ⟨rfl, rfl⟩
  · split <;> exact ⟨rfl, rfl⟩

/-- The starting source is all that has been read at the start. -/
theorem start_gathered (report : Report) (lib : Library) (entry : Entry) :
    Intake.Gathered lib entry (start lib report entry).1 [] (start lib report entry).2 := by
  cases entry with
  | file name =>
    have hadded := Intake.importFile_added lib { report } name none
    rw [start]
    generalize Intake.importFile lib { report } name none = r at hadded ⊢
    have hempty : Intake.paths { report } = [] ∧ Intake.imported { report } = [] := ⟨rfl, rfl⟩
    cases hadded with
    | nothing hold hfiles hlog =>
      have hnone : lib.file? (Path.clean name) = none := by simpa [hempty.1] using hold
      have hhas : (Entry.file name).has lib (Path.clean name) = false := by
        rw [Entry.has, Entry.file?_file, hnone, Option.isSome_none]
      constructor <;> simp [hfiles, hlog, hempty.2, Intake.paths, Entry.path, hhas]
    | file hnew hfile hfiles hlog =>
      have hhas : (Entry.file name).has lib (Path.clean name) = true := by
        rw [Entry.has, Entry.file?_file, hfile, Option.isSome_some]
      constructor <;> simp [hfiles, hlog, hempty.2, Intake.paths, Entry.path, hhas, hfile,
        Entry.file?_file, eraseDups_cons, Entry.given?]
      exact fun s hs => hs.start hhas
  | source file =>
    have hfile := Entry.file?_given lib file
    have hhas : (Entry.source file).has lib (Path.clean file.name) = true := by
      rw [Entry.has, hfile, Option.isSome_some]
    constructor <;> simp [start, Intake.parse, Intake.imported, Intake.paths, Entry.path, hhas,
      hfile, eraseDups_cons, Entry.given?]
    exact fun s hs => hs.start hhas

theorem gather_gathered (report : Report) (lib : Library) (entry : Entry) :
    Intake.Gathered lib entry (gather report lib entry).1 (gather report lib entry).2.reverse [] :=
  Intake.scanAll_gathered _ _ _ (start_gathered report lib entry)

/-- **The files that are read.**  Whatever the library, the starting source and what it imports:
loading ends, and it declares one pool of forms.  The paths of the files read are the least set
with the starting source that is closed under imports, no path comes twice, and every file of the
library among them was imported once.  The pool is made of the forms of these files, one file after
the other, and the files come in the order in which the pool mentions them first. -/
theorem load_reads_closure (p : Program) (report : Report) (lib : Library) (entry : Entry) :
    let loaded := load p report lib entry
    let paths := loaded.files.map Prod.fst
    ∃ i pool, gather report lib entry = (i, pool) ∧ loaded = p.declareAll i pool ∧
      IsLeast {s | entry.Closed lib s} {path | path ∈ paths} ∧
      paths.Nodup ∧
      (∀ x ∈ loaded.files, entry.file? lib x.1 = some x.2) ∧
      loaded.log.filterMap LogEntry.imported? =
        paths.filter (fun path => (entry.given? path).isNone) ∧
      pool = loaded.files.flatMap (·.2.read.forms) ∧
      paths = ((entry.path :: pool.filterMap Form.import?).filter (entry.has lib)).eraseDups := by
  intro loaded paths
  obtain ⟨i, pool, hgather⟩ : ∃ i pool, gather report lib entry = (i, pool) := ⟨_, _, rfl⟩
  have h := gather_gathered report lib entry
  have hloaded : loaded = p.declareAll (gather report lib entry).1 (gather report lib entry).2 :=
    rfl
  rw [hgather] at h hloaded
  obtain ⟨hfiles, hlog⟩ := declareAll_files p i pool
  rw [← hloaded] at hfiles hlog
  have hpaths : paths = i.paths := by rw [Intake.paths, ← hfiles]
  refine ⟨i, pool, hgather, hloaded, hpaths ▸ h.isLeast, hpaths ▸ h.nodup, ?_, ?_, ?_, ?_⟩
  · rw [hfiles]
    exact fun x hx => h.files x (mem_reverse.mp hx)
  · rw [hlog, hpaths]
    exact h.imported
  · rw [hfiles]
    simpa using h.forms
  · rw [hpaths]
    simpa using h.mentions

end Program

end HaloScript
