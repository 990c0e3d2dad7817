/-
# Printed messages

How a message appears on a terminal: where, how serious and what, then the line of the source
that the message is about with carets under the place.  Carets are set by terminal cells, a tab
taking four of them.  What a terminal makes of an ink, and how many cells a text takes on it, is
its own matter (`Terminal`); the terminals that messages are printed on here know colors or do not
(`Terminal.ansi`).
-/
import HaloScript.Report.Message
import HaloScript.Text.LineWidth

namespace HaloScript

/-- The parts of a printed message that are painted. -/
inductive Ink where
  | place
  | level (level : Level)
  | gutter
  | caret
deriving DecidableEq, Inhabited

namespace Ink

/-- The terminal attributes of an ink; an unknown level has none. -/
def attributes : Ink → Option Text
  | .place => some "1"
  | .level .error => some "1;91"
  | .level .warning => some "1;93"
  | .level .info => some "94"
  | .level (.other _) => none
  | .gutter => some "90"
  | .caret => some "1;92"

def paintLine (color : Bool) (ink : Ink) (line : Text) : Text :=
  match color, ink.attributes with
  | true, some a => "\x1b[" ++ a ++ "m" ++ line ++ "\x1b[0m"
  | _, _ => line

end Ink

namespace Text

def expandTabs (t : Text) : Text := t.replaceByte tab "    "

/-- Ends of lines marked by a newline alone. -/
def plainNewlines : Text → Text
  | carriageReturn :: newline :: rest => newline :: plainNewlines rest
  | b :: rest => b :: plainNewlines rest
  | [] => []

/-- How many bytes the first characters of a text take; all of them if there are fewer. -/
def columnOffset (column : Nat) (t : Text) : Nat :=
  (ofPieces ((pieces t).take column)).length

end Text

namespace Ink

/-- A text in an ink.  Tabs are expanded; of several lines each is painted and then filled up
with blanks to the width of the widest. -/
def paint (color : Bool) (ink : Ink) (t : Text) : Text :=
  let lines := ((t.expandTabs.plainNewlines).splitOn Text.newline).map (paintLine color ink)
  let widest := (lines.map Text.lineWidth).foldl max 0
  let filled := lines.map fun line =>
    line ++ Text.repeated (widest - line.lineWidth) Text.space
  Text.join [Text.newline] filled

end Ink

/-- A terminal, as far as a message depends on it. -/
structure Terminal where
  /-- How many cells a text without tabs takes. -/
  cells : Text → Nat
  /-- What is written for a text in an ink. -/
  paint : Ink → Text → Text

/-- A terminal that follows the usual escape sequences, or gets none. -/
def Terminal.ansi (color : Bool) : Terminal := ⟨Text.cellWidth, Ink.paint color⟩

/-- A line of a source and the part of it that is marked. -/
structure Snippet where
  /-- The number of the line, from zero. -/
  number : Nat
  line : Text
  /-- The bytes in front of the marked part. -/
  start : Nat
  /-- The bytes up to the end of the marked part. -/
  stop : Nat
deriving DecidableEq, Inhabited

namespace Snippet

/-- The first line of a span.  The marked part ends with the line if the span goes on below or
has no known end. -/
def ofSpan? (span : Span) : Option Snippet :=
  match span.file with
  | none => none
  | some file =>
    match (file.text.splitOn Text.newline)[span.start.line]? with
    | none => none
    | some whole =>
      let line := whole.trimRight (· == Text.carriageReturn)
      let start := line.columnOffset span.start.column
      let stop :=
        if span.stop.line == span.start.line && !span.unfinished then
          line.columnOffset span.stop.column
        else line.length
      some { number := span.start.line, line, start, stop := max start stop }

/-- The cells in front of the carets. -/
def indent (term : Terminal) (s : Snippet) : Nat :=
  term.cells (Text.expandTabs (s.line.take s.start))

/-- The number of carets; there is always one. -/
def carets (term : Terminal) (s : Snippet) : Nat :=
  max 1 (term.cells (Text.expandTabs ((s.line.take s.stop).drop s.start)))

/-- The line and its carets behind a gutter that holds the number of the line. -/
def print (term : Terminal) (s : Snippet) : Text :=
  term.paint .gutter ((Text.ofNat (s.number + 1)).padLeft 4 ++ " |") ++ " " ++
    s.line.expandTabs ++ "\n" ++
    term.paint .gutter "     |" ++ " " ++ Text.repeated (s.indent term) Text.space ++
    term.paint .caret (Text.repeated (s.carets term) 0x5e) ++ "\n"

end Snippet

namespace Message

/-- Where the message belongs.  A part of the program without a span was made by the compiler. -/
def place? (m : Message) : Option Text :=
  match m.span with
  | some span => some span.place
  | none => if m.aboutNode then some "<generated>" else none

def print (term : Terminal) (m : Message) : Text :=
  (match m.place? with
    | some place => term.paint .place place ++ ": "
    | none => []) ++
  term.paint (.level m.level) m.level.name ++
  ": " ++ m.content ++ "\n" ++
  (match m.span.bind Snippet.ofSpan? with
    | some snippet => snippet.print term
    | none => [])

end Message

def Report.print (color : Bool) (r : Report) : Text :=
  r.messages.toList.flatMap (·.print (.ansi color))

end HaloScript
