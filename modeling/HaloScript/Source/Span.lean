/-
# Places in a source file

A `Location` is a byte offset together with the line and column a reader would name.  Lines
and columns count from zero; a column counts characters, that is, bytes that do not continue
one.  A `Span` is the half-open range between two locations.  The span of a bracketed form
stays unfinished until its closing bracket has been read.
-/
import HaloScript.Text.Chars

namespace HaloScript

/-- A file as the compiler reads it. -/
structure SourceFile where
  name : Text
  text : Text
deriving DecidableEq, Inhabited

/-- A position in a file. -/
structure Location where
  offset : Nat
  line : Nat
  column : Nat
deriving DecidableEq, Inhabited

namespace Location

def origin : Location := ⟨0, 0, 0⟩

def advance (l : Location) (b : UInt8) : Location :=
  if b == Text.newline then ⟨l.offset + 1, l.line + 1, 0⟩
  else if Text.isContinuation b then ⟨l.offset + 1, l.line, l.column⟩
  else ⟨l.offset + 1, l.line, l.column + 1⟩

/-- Line and column as people count them, from one. -/
def render (l : Location) : Text := Text.ofNat (l.line + 1) ++ ":" ++ Text.ofNat (l.column + 1)

end Location

/-- A range of a file, or a range of no known file. -/
structure Span where
  file : Option SourceFile
  start : Location
  stop : Location
  /-- The end has not been read yet; `stop` then repeats `start`. -/
  unfinished : Bool := false
deriving DecidableEq, Inhabited

namespace Span

/-- An empty range, for what has a position but no extent. -/
def point (file : SourceFile) (l : Location) : Span := ⟨some file, l, l, false⟩

def text (s : Span) : Text :=
  match s.file with
  | none => []
  | some file =>
    if s.unfinished then []
    else (file.text.drop s.start.offset).take (s.stop.offset - s.start.offset)

def fileName (s : Span) : Text :=
  match s.file with
  | none => "<unknown>"
  | some file => file.name

/-- Where the span starts, as `file:line:column`. -/
def place (s : Span) : Text := s.fileName ++ ":" ++ s.start.render

end Span

end HaloScript
