/-
# Reading a file and its imports

Reading starts with one file.  Its top-level forms are scanned for imports, and the forms of an
imported file are put at the end of those still to be scanned, so files come in the order in
which they are first mentioned.  A file is read once, whatever spelling of its path leads to it.

The scan ends because a library has finitely many files: every file that is read was not read
before, and a form that reads none is one form less to scan.
-/
import HaloScript.Build.Declare
import HaloScript.Build.Resolve
import HaloScript.Files.Library
import HaloScript.Report.Log

namespace HaloScript

/-- What has been read. -/
structure Intake where
  /-- The files read, by path in normal form, the last one first. -/
  files : List (Text × SourceFile) := []
  report : Report := {}
  /-- The log lines, the last one first. -/
  log : List LogEntry := []

/-- What a top-level form asks to import. -/
inductive ImportRequest where
  | none
  /-- An import of a file by the name it is written with. -/
  | file (name : Text)
  /-- An import that does not have exactly one file name. -/
  | malformed
  /-- An import of something that is not a name. -/
  | notName (span : Span)

namespace ImportRequest

def ofForm (f : Form) : ImportRequest :=
  if f.head? = some ("import" : Text) then
    match f.items with
    | [_, .atom s q] => .file (Form.atomText s q)
    | [_, .list s _] => .notName s
    | _ => .malformed
  else .none

end ImportRequest

namespace Intake

def seen (i : Intake) (path : Text) : Bool := (i.files.lookup path).isSome

/-- Takes in the forms of a file, and the error that ends them. -/
def parse (i : Intake) (path : Text) (file : SourceFile) : Intake × List Form :=
  let reading := file.read
  let report := match reading.error with
    | none => i.report
    | some e => i.report.tellError e
  ({ i with files := (path, file) :: i.files, report }, reading.forms)

def tellAt (i : Intake) (span : Span) (content : Text) : Intake :=
  { i with report := i.report.tellAt .error span content }

/-- An error about a file that cannot be read, at the form that mentions it. -/
def tellMissing (i : Intake) (name : Text) (mention : Option Span) : Intake :=
  let content := name.quote ++ " was not found!"
  match mention with
  | some span => i.tellAt span content
  | none => { i with report := i.report.tell .error content }

def logFailure (i : Intake) (path : Text) : ReadFailure → Intake
  | .missing => i
  | .unreadable reason =>
    { i with log :=
        ⟨"reading source file failed", [("file", path), ("error", reason)]⟩ :: i.log }

/-- Reads a file of the library, unless it has been read. -/
def importFile (lib : Library) (i : Intake) (name : Text) (mention : Option Span) :
    Intake × List Form :=
  let path := Path.clean name
  if i.seen path then (i, [])
  else match lib.read path with
    | .error why => ((i.logFailure path why).tellMissing name mention, [])
    | .ok content =>
      Intake.parse { i with log := ⟨"importing file", [("file", path)]⟩ :: i.log } path
        ⟨path, content⟩

def scanForm (lib : Library) (i : Intake) (f : Form) : Intake × List Form :=
  match ImportRequest.ofForm f with
  | .none => (i, [])
  | .malformed =>
    (i.tellAt f.span "expected an expression in the format \"(import <filename>)\"", [])
  | .notName span => (i.tellAt span "filename should be an atom, not an expression", [])
  | .file name => i.importFile lib name (some f.span)

/-! ## 1. The scan ends -/

def unreadCount (lib : Library) (i : Intake) : Nat :=
  (lib.files.map Prod.fst).countP fun path => !i.seen path

/-- Reading a path leaves it read, and no other path unread. -/
theorem seen_cons (i : Intake) (path x : Text) (file : SourceFile) (r : Report)
    (l : List LogEntry) :
    Intake.seen ⟨(path, file) :: i.files, r, l⟩ x = (x == path || i.seen x) := by
  unfold seen
  by_cases h : x == path <;> simp [List.lookup_cons, h]

/-- Reading a file of the library leaves one less to be read. -/
theorem unreadCount_lt {lib : Library} {i i' : Intake} {path : Text}
    (hmem : path ∈ lib.files.map Prod.fst) (hnew : i.seen path = false)
    (hseen : ∀ x, i'.seen x = (x == path || i.seen x)) :
    i'.unreadCount lib < i.unreadCount lib := by
  have hrest : (lib.files.map Prod.fst).filter (fun x => !i'.seen x) =
      ((lib.files.map Prod.fst).filter fun x => !i.seen x).filter (· != path) := by
    rw [List.filter_filter]
    refine List.filter_congr fun x _ => ?_
    rw [hseen, Bool.not_or]
    rfl
  rw [unreadCount, unreadCount, List.countP_eq_length_filter, List.countP_eq_length_filter, hrest,
    List.length_filter_lt_length_iff_exists]
  exact ⟨path, List.mem_filter.mpr ⟨hmem, by simp [hnew]⟩, by simp⟩

/-- A form either makes the library smaller or adds no forms. -/
theorem scanForm_progress (lib : Library) (i : Intake) (f : Form) :
    (i.scanForm lib f).1.unreadCount lib < i.unreadCount lib ∨
      ((i.scanForm lib f).1.unreadCount lib = i.unreadCount lib ∧ (i.scanForm lib f).2 = []) := by
  unfold scanForm
  split
  · exact .inr ⟨rfl, rfl⟩
  · exact .inr ⟨rfl, rfl⟩
  · exact .inr ⟨rfl, rfl⟩
  · next name _ =>
    unfold importFile
    dsimp only
    split
    · exact .inr ⟨rfl, rfl⟩
    · next hseen =>
      split
      · next why _ =>
        refine .inr ⟨?_, rfl⟩
        cases why <;> rfl
      · next content hread =>
        refine .inl ?_
        have hmem : Path.clean name ∈ lib.files.map Prod.fst := by
          unfold Library.read at hread
          split at hread
          · next c hc =>
            obtain ⟨before, after, heq, -⟩ := List.lookup_eq_some_iff.mp hc
            simp [heq]
          · exact absurd hread (by simp)
        unfold parse
        exact unreadCount_lt hmem (by simpa using hseen) (seen_cons i _ · _ _ _)

/-- Scans forms for imports; `scanned` are the forms before them, the last one first. -/
def scanAll (lib : Library) (i : Intake) (scanned queue : List Form) : Intake × List Form :=
  match queue with
  | [] => (i, scanned.reverse)
  | f :: rest =>
    scanAll lib (i.scanForm lib f).1 (f :: scanned) (rest ++ (i.scanForm lib f).2)
termination_by (i.unreadCount lib, queue.length)
decreasing_by
  rcases scanForm_progress lib i f with h | ⟨h, hnil⟩
  · exact Prod.Lex.left _ _ h
  · rw [h, hnil]
    exact Prod.Lex.right _ (by simp)

end Intake

/-! ## 2. Loading a program -/

/-- A source to start from. -/
inductive Entry where
  /-- A file of the library, by name. -/
  | file (name : Text)
  /-- A text that is given, under a name of its own. -/
  | source (file : SourceFile)

/-- The outcome of loading. -/
structure Loaded where
  program : Program
  report : Report
  /-- The files read, by path in normal form, in the order of reading. -/
  files : List (Text × SourceFile)
  log : List LogEntry

namespace Loaded

def ok (l : Loaded) : Bool := !l.report.hasErrors

end Loaded

namespace Program

def start (lib : Library) (report : Report) : Entry → Intake × List Form
  | .file name => Intake.importFile lib { report } name none
  | .source file => Intake.parse { report } (Path.clean file.name) file

/-- All that is read from a source, and the forms of it that are to be declared. -/
def gather (report : Report) (lib : Library) (entry : Entry) : Intake × List Form :=
  let begun := start lib report entry
  begun.1.scanAll lib [] begun.2

/-- Declares and links the forms that have been read.  If anything could not be read, or an error
had been reported before, nothing is declared; a fault among the declarations leaves those in
front of it, not linked. -/
def declareAll (p : Program) (i : Intake) (pool : List Form) : Loaded :=
  let done := fun (p : Program) (r : Report) => Loaded.mk p r i.files.reverse i.log.reverse
  if i.report.hasErrors then done p i.report
  else
    let (d, fault) := Drafting.forms { program := p } pool
    match fault with
    | some e => done d.program (i.report.tellError e)
    | none =>
      let (p, r) := (d.program.resolveAll d.added.reverse).run i.report
      done p r

/-- Adds the declarations of a source and of all it imports. -/
def load (p : Program) (report : Report) (lib : Library) (entry : Entry) : Loaded :=
  let gathered := gather report lib entry
  p.declareAll gathered.1 gathered.2

end Program

end HaloScript
