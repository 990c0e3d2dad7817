/-
# Blocks of a document

A document is cut into headings, paragraphs and blocks of code, line by line.  Between two
lines at most one block is open: a paragraph, code set off by four blanks, or code between
fences.  A heading is one line that starts with number signs, or a paragraph that is
underlined.

Only the parts of Markdown that case documents use are known: no lists, quotations, tables or
raw markup.
-/
import HaloScript.Text.Basic

namespace HaloScript

/-- A block of a document. -/
inductive Block where
  /-- A heading as it is written, its lines joined. -/
  | heading (text : Text)
  | paragraph (text : Text)
  /-- Code set off by blanks. -/
  | indented
  /-- A line across the page. -/
  | rule
  /-- Code between fences: what stands after the opening fence, the lines of code, and the
  number of the first of them, counted from one. -/
  | fence (info : Option Text) (lines : List Text) (number : Nat)
deriving DecidableEq, Inhabited

namespace Block

/-! ## 1. Lines -/

def isSpace (b : UInt8) : Bool := (0x09 ≤ b && b ≤ 0x0d) || b == Text.space

def isBlank (line : Text) : Bool := line.all isSpace

def trimLeft (line : Text) : Text := line.dropWhile isSpace

def trimRight (line : Text) : Text := Text.trimRight isSpace line

def linesOf : Text → List Text
  | [] => []
  | b :: rest =>
    if b == Text.newline then [b] :: linesOf rest
    else match linesOf rest with
      | [] => [[b]]
      | line :: lines => (b :: line) :: lines

/-- The columns a line is indented by, a tab going to the next multiple of four, and what
follows. -/
def unindent : Nat → Text → Nat × Text
  | column, Text.space :: rest => unindent (column + 1) rest
  | column, Text.tab :: rest => unindent (column + (4 - column % 4)) rest
  | column, line => (column, line)

/-- A line of fenced code without the indentation of its fence.  A line that is indented less
loses what it has, unless there is nothing else on it. -/
def dropIndent (width : Nat) (line : Text) : Text :=
  match go 0 line with
  | some rest => rest
  | none =>
    match (unindent 0 line).2 with
    | [] => line
    | b :: rest => if b == Text.newline then line else b :: rest
where
  /-- The line from a column on; a tab that reaches beyond the width leaves blanks. -/
  go : Nat → Text → Option Text
    | column, [] =>
      if width ≤ column then some (Text.repeated (column - width) Text.space) else none
    | column, b :: rest =>
      if width ≤ column then some (Text.repeated (column - width) Text.space ++ b :: rest)
      else if b == Text.space then go (column + 1) rest
      else if b == Text.tab then go (column + (4 - column % 4)) rest
      else none

/-! ## 2. What a line can start -/

/-- The heading on a line, given from its first number sign on. -/
def heading? (line : Text) : Option Text :=
  let level := (line.takeWhile (· == 0x23)).length
  let after := line.drop level
  if level == 0 || 6 < level then none
  else if after.isEmpty then some []
  else if !after.head?.any isSpace then none
  else
    let text := trimRight (trimLeft after)
    let closed := Text.trimRight (· == 0x23) text
    if closed.isEmpty then some []
    else if closed.length < text.length && closed.getLast?.any isSpace then some closed
    else some text

/-- A fence: what it is made of, how long it is and how far it is indented. -/
structure Fence where
  mark : UInt8
  size : Nat
  indent : Nat
  info : Option Text
deriving DecidableEq, Inhabited

/-- The fence that a line opens, given from its first mark on. -/
def fence? (indent : Nat) (line : Text) : Option Fence :=
  match line with
  | [] => none
  | mark :: _ =>
    let size := (line.takeWhile (· == mark)).length
    let after := line.drop size
    let info := trimRight (trimLeft after)
    if (mark != 0x60 && mark != 0x7e) || size < 3 then none
    else if after.length ≤ 1 || info.isEmpty then some ⟨mark, size, indent, none⟩
    else if mark == 0x60 && info.contains mark then none
    else some ⟨mark, size, indent, some info⟩

def Fence.closedBy (f : Fence) (line : Text) : Bool :=
  let (column, rest) := unindent 0 line
  column < 4 && f.size ≤ (rest.takeWhile (· == f.mark)).length &&
    isBlank (rest.dropWhile (· == f.mark))

/-- Whether a line underlines a paragraph, given from its first mark on. -/
def isUnderline (line : Text) : Bool :=
  let marks := trimRight line
  !marks.isEmpty && (marks.all (· == Text.equals) || marks.all (· == Text.minus))

def isRule (line : Text) : Bool :=
  let marks := line.filter (!isSpace ·)
  2 < marks.length &&
    (marks.all (· == Text.minus) || marks.all (· == 0x2a) || marks.all (· == Text.underscore))

/-! ## 3. The document -/

/-- The block that is open between two lines. -/
inductive Opened where
  | nothing
  /-- A paragraph, the last line first. -/
  | paragraph (lines : List Text)
  | indented
  /-- Fenced code from a line on, the last line first. -/
  | fenced (fence : Fence) (number : Nat) (lines : List Text)

/-- The lines of a paragraph, joined; the last one without white space at its end. -/
def joinLines (lines : List Text) : Text :=
  match lines with
  | [] => []
  | last :: before => before.reverse.flatten ++ trimRight last

/-- The block that a line opens even after a paragraph, given from its first byte that is not
blank on. -/
def begin? (number column : Nat) (rest : Text) : Option (List Block × Opened) :=
  if isRule rest then some ([.rule], .nothing)
  else match heading? rest, fence? column rest with
    | some text, _ => some ([.heading text], .nothing)
    | none, some f => some ([], .fenced f (number + 1) [])
    | none, none => none

namespace Opened

def close : Opened → List Block
  | .nothing => []
  | .paragraph lines => [.paragraph (joinLines lines)]
  | .indented => [.indented]
  | .fenced f number lines => [.fence f.info lines.reverse number]

/-- A line that does not continue a block of code. -/
def startLine (o : Opened) (number : Nat) (line : Text) : List Block × Opened :=
  let (column, rest) := unindent 0 line
  if isBlank line then (o.close, .nothing)
  else match o, decide (4 ≤ column) with
    | .paragraph lines, true => ([], .paragraph (trimLeft line :: lines))
    | o, true => (o.close, .indented)
    | .paragraph lines, false =>
      if isUnderline rest then ([.heading (joinLines lines)], .nothing)
      else match begin? number column rest with
        | some (blocks, next) => (o.close ++ blocks, next)
        | none => ([], .paragraph (trimLeft line :: lines))
    | o, false =>
      match begin? number column rest with
      | some (blocks, next) => (o.close ++ blocks, next)
      | none => (o.close, .paragraph [trimLeft line])

def line (o : Opened) (number : Nat) (line : Text) : List Block × Opened :=
  match o with
  | .fenced f first lines =>
    if f.closedBy line then (o.close, .nothing)
    else ([], .fenced f first (dropIndent f.indent line :: lines))
  | .indented =>
    if isBlank line || 4 ≤ (unindent 0 line).1 then ([], .indented)
    else o.startLine number line
  | o => o.startLine number line

end Opened

def ofLines : Opened → Nat → List Text → List Block
  | o, _, [] => o.close
  | o, number, line :: rest =>
    let (blocks, o) := o.line number line
    blocks ++ ofLines o (number + 1) rest

def ofText (t : Text) : List Block := ofLines .nothing 1 (linesOf t)

end Block

end HaloScript
