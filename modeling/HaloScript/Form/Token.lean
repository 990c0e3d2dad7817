/-
# Tokens

The text of a file is cut into brackets and atoms.  An atom is plain or quoted.  Blanks, line
ends and comments (from `;` to the end of the line) separate tokens and are dropped.

The scanner reads one byte at a time and never looks ahead, so a scan is a fold over the text.
Between two bytes it is in one of four modes.  A carriage return is held back until the next
byte shows that it belongs to a line end; on its own it is a fault, wherever it stands.

A quote opens a quoted atom at the start of the text and after a blank, a tab, a line feed, an
opening bracket or another quote.  Anywhere else it is an ordinary character of an atom.
-/
import HaloScript.Source.Fault

namespace HaloScript

/-- What a token is. -/
inductive TokenKind where
  | openBracket
  | closeBracket
  | atom
  | quotedAtom
deriving DecidableEq, Inhabited

namespace TokenKind

def ofCode? : Int → Option TokenKind
  | 0 => some .openBracket
  | 1 => some .closeBracket
  | 2 => some .atom
  | 3 => some .quotedAtom
  | _ => none

def name : TokenKind → Text
  | .openBracket => "'('"
  | .closeBracket => "')'"
  | .atom => "atom"
  | .quotedAtom => "quoted atom"

/-- The kind with a number in words, also where there is no such kind. -/
def nameOfCode (n : Int) : Text :=
  match ofCode? n with
  | some kind => kind.name
  | none => "unknown token"

end TokenKind

/-- A token and the range it covers.  A quoted atom includes its quotes. -/
structure Token where
  kind : TokenKind
  span : Span
deriving DecidableEq, Inhabited

/-- What the scanner is in the middle of. -/
inductive ScanMode where
  | blank
  | comment
  | word (start : Location)
  | quoted (start : Location)
deriving DecidableEq, Inhabited

/-- The scanner between two bytes. -/
structure Scanner where
  /-- The position of the next byte. -/
  here : Location := .origin
  /-- The byte before it. -/
  previous : Option UInt8 := none
  mode : ScanMode := .blank
  /-- The position of a carriage return whose line feed is still to come. -/
  heldReturn : Option Location := none
  /-- The tokens read so far, the last one first. -/
  tokens : List Token := []
  error : Option SourceError := none

namespace Scanner

/-- Whether a quote after this byte opens a quoted atom. -/
def quoteMayFollow : Option UInt8 → Bool
  | none => true
  | some b =>
    b == Text.space || b == Text.tab || b == Text.newline || b == Text.openBracket ||
      b == Text.doubleQuote

def past (s : Scanner) (b : UInt8) : Scanner :=
  { s with here := s.here.advance b, previous := some b }

/-- One more token, after which the scanner is in the given mode. -/
def emit (s : Scanner) (file : SourceFile) (kind : TokenKind) (start stop : Location)
    (mode : ScanMode) : Scanner :=
  { s with tokens := ⟨kind, ⟨some file, start, stop, false⟩⟩ :: s.tokens, mode }

/-- The word that is being read, if there is one, ends at `stop`. -/
def endWord (s : Scanner) (file : SourceFile) (stop : Location) (mode : ScanMode) : Scanner :=
  match s.mode with
  | .word start => s.emit file .atom start stop mode
  | _ => { s with mode }

/-- A line ends at `stop`; the line feed is the next byte. -/
def endLine (s : Scanner) (file : SourceFile) (stop : Location) : Scanner :=
  let s := { s.past Text.newline with heldReturn := none }
  match s.mode with
  | .quoted _ => s
  | _ => s.endWord file stop .blank

def feedPlain (s : Scanner) (file : SourceFile) (b : UInt8) : Scanner :=
  let next := s.past b
  match b with
  | Text.semicolon => next.endWord file s.here .comment
  | Text.space | Text.tab => next.endWord file s.here .blank
  | Text.openBracket =>
    (next.endWord file s.here .blank).emit file .openBracket s.here next.here .blank
  | Text.closeBracket =>
    (next.endWord file s.here .blank).emit file .closeBracket s.here next.here .blank
  | _ =>
    match s.mode with
    | .word _ => next
    | _ =>
      if b == Text.doubleQuote && quoteMayFollow s.previous then
        { next with mode := .quoted s.here }
      else { next with mode := .word s.here }

/-- A byte that is no part of a line end. -/
def feedByte (s : Scanner) (file : SourceFile) (b : UInt8) : Scanner :=
  match s.mode with
  | .comment => s.past b
  | .quoted start =>
    let next := s.past b
    if b == Text.doubleQuote && s.previous != some Text.backslash then
      next.emit file .quotedAtom start next.here .blank
    else next
  | _ => s.feedPlain file b

/-- One byte of the text.  After an error nothing changes. -/
def feed (file : SourceFile) (s : Scanner) (b : UInt8) : Scanner :=
  if s.error.isSome then s
  else match s.heldReturn with
    | some stop =>
      if b == Text.newline then s.endLine file stop
      else { s with error := some (Fault.loneCarriageReturn.on (.point file s.here)) }
    | none =>
      if b == Text.carriageReturn then { s.past b with heldReturn := some s.here }
      else if b == Text.newline then s.endLine file s.here
      else s.feedByte file b

def finish (file : SourceFile) (s : Scanner) : Scanner :=
  if s.error.isSome then s
  else match s.heldReturn with
    | some _ => { s with error := some (Fault.loneCarriageReturn.on (.point file s.here)) }
    | none =>
      match s.mode with
      | .quoted start => { s with error := some (Fault.openQuote.on (.point file start)) }
      | _ => s.endWord file s.here .blank

end Scanner

/-- The tokens of a file up to the first error, and that error. -/
structure Scan where
  tokens : List Token
  error : Option SourceError

def SourceFile.scan (file : SourceFile) : Scan :=
  let s := Scanner.finish file (file.text.foldl (Scanner.feed file) {})
  ⟨s.tokens.reverse, s.error⟩

end HaloScript
