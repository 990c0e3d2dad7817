/-
# Unified diffs

The changes between two texts, line by line, in the unified format with three lines of context.
Where the texts have equally many lines they are compared line by line; otherwise the lines
between what they have in common at the start and at the end are replaced as a whole.
-/
import HaloScript.Text.Basic

namespace HaloScript

namespace LineDiff

/-- The lines of a text, each with its line end; the last one may have none. -/
def lines : Text → List Text
  | [] => []
  | b :: rest =>
    if b == Text.newline then [b] :: lines rest
    else match lines rest with
      | [] => [[b]]
      | line :: more => (b :: line) :: more

/-- A replacement of lines: how many lines stay in front of it, which lines go and which come. -/
structure Edit where
  /-- The lines since the last edit that stay. -/
  kept : List Text
  removed : List Text
  added : List Text
deriving DecidableEq, Inhabited

/-- Compares line by line; `kept` are the lines that stay since the last edit, the last one
first. -/
def pairwise (kept : List Text) : List Text → List Text → List Edit
  | a :: old, b :: new =>
    if a == b then pairwise (a :: kept) old new
    else ⟨kept.reverse, [a], [b]⟩ :: pairwise [] old new
  | _, _ => []

def common : List Text → List Text → List Text
  | a :: old, b :: new => if a == b then a :: common old new else []
  | _, _ => []

/-- Replaces what lies between the common start and the common end. -/
def middle (old new : List Text) : List Edit :=
  let start := common old new
  let old' := old.drop start.length
  let new' := new.drop start.length
  let stop := (common old'.reverse new'.reverse).length
  let removed := old'.take (old'.length - stop)
  let added := new'.take (new'.length - stop)
  if removed.isEmpty && added.isEmpty then [] else [⟨start, removed, added⟩]

def edits (old new : List Text) : List Edit :=
  if old.length == new.length then pairwise [] old new else middle old new

/-! ## Hunks -/

/-- A line of a hunk: one that stays, goes or comes. -/
inductive Change where
  | keep (line : Text)
  | remove (line : Text)
  | add (line : Text)
deriving DecidableEq, Inhabited

/-- Changes that are shown together, and the lines, counted from one, that they start at. -/
structure Hunk where
  fromLine : Nat
  toLine : Nat
  /-- The changes, the last one first. -/
  changes : List Change
deriving DecidableEq, Inhabited

/-- How many lines are shown around a change. -/
def context : Nat := 3

def Edit.changes (e : Edit) : List Change :=
  (e.removed.map Change.remove ++ e.added.map Change.add).reverse

def Hunk.close (h : Hunk) (following : List Text) : Hunk :=
  { h with changes := ((following.take context).map Change.keep).reverse ++ h.changes }

/-- The hunks of some edits.  `h` is the hunk that is open, `rest` are the lines after the last
edit, and `last` and `reached` are the numbers of lines before that in both texts; lines between
two edits of one hunk do not count towards `reached`. -/
def hunks (h : Option Hunk) (rest : List Text) (last reached : Nat) : List Edit → List Hunk
  | [] => (h.map fun h => h.close rest).toList
  | e :: es =>
    let start := last + e.kept.length
    let after := rest.drop (e.kept.length + e.removed.length)
    let last' := start + e.removed.length
    match h with
    | some open' =>
      if e.kept.length ≤ 2 * context then
        let changes := e.changes ++ (e.kept.map Change.keep).reverse ++ open'.changes
        hunks (some { open' with changes }) after last' (reached + e.added.length) es
      else
        let reached := reached + e.kept.length
        let lead := e.kept.drop (e.kept.length - context)
        let next : Hunk := ⟨start + 1 - lead.length, reached + 1 - lead.length,
          e.changes ++ (lead.map Change.keep).reverse⟩
        open'.close e.kept :: hunks (some next) after last' (reached + e.added.length) es
    | none =>
      let reached := reached + e.kept.length
      let lead := e.kept.drop (e.kept.length - context)
      let next : Hunk := ⟨start + 1 - lead.length, reached + 1 - lead.length,
        e.changes ++ (lead.map Change.keep).reverse⟩
      hunks (some next) after last' (reached + e.added.length) es

def range (start count : Nat) : Text :=
  if 1 < count then Text.ofNat start ++ "," ++ Text.ofNat count
  else if start == 1 && count == 0 then "0,0"
  else Text.ofNat start

/-- A line with a mark in front; a line without an end is followed by a remark. -/
def marked (mark : UInt8) (line : Text) : Text :=
  mark :: line ++
    (if line.getLast? == some Text.newline then [] else "\n\\ No newline at end of file\n")

def Change.print : Change → Text
  | .keep line => marked Text.space line
  | .remove line => marked Text.minus line
  | .add line => marked Text.plus line

def Hunk.print (h : Hunk) : Text :=
  let removed := h.changes.countP fun c => !(c matches .add _)
  let added := h.changes.countP fun c => !(c matches .remove _)
  "@@ -" ++ range h.fromLine removed ++ " +" ++ range h.toLine added ++ " @@\n" ++
    h.changes.reverse.flatMap Change.print

end LineDiff

/-- The unified diff of two texts; empty if they are the same. -/
def Text.unifiedDiff (oldName newName old new : Text) : Text :=
  let before := LineDiff.lines old
  match LineDiff.hunks none before 0 0 (LineDiff.edits before (LineDiff.lines new)) with
  | [] => []
  | hs => "--- " ++ oldName ++ "\n+++ " ++ newName ++ "\n" ++ hs.flatMap LineDiff.Hunk.print

end HaloScript
