/-
# Scalars of YAML

A document is a row of signs: bytes and ends of lines.  A scalar is plain or stands in single
or double quotes, and may go on for several lines.  Between two of its lines the line end and
the blanks around it become one blank; each empty line in between stays a line end instead.

A plain scalar ends in front of a comment, in front of a colon that a blank follows, where the
indentation falls back, and inside brackets at a comma or bracket.
-/
import HaloScript.Text.Chars
import HaloScript.Text.Numeral

namespace HaloScript

namespace Yaml

/-! ## 1. Signs -/

/-- A byte of a document, or the end of a line. -/
inductive Sign where
  | byte (b : UInt8)
  /-- The end of a line, and what it stands for in a scalar. -/
  | lineEnd (written : Text)
deriving DecidableEq, Inhabited

/-- The signs of a document.  Only the two separators of Unicode are kept as they are; every
other line end is a newline. -/
def signs : Text → List Sign
  | [] => []
  | 0x0d :: 0x0a :: rest => .lineEnd [Text.newline] :: signs rest
  | 0xc2 :: 0x85 :: rest => .lineEnd [Text.newline] :: signs rest
  | 0xe2 :: 0x80 :: 0xa8 :: rest => .lineEnd [0xe2, 0x80, 0xa8] :: signs rest
  | 0xe2 :: 0x80 :: 0xa9 :: rest => .lineEnd [0xe2, 0x80, 0xa9] :: signs rest
  | b :: rest =>
    (if b == Text.newline || b == Text.carriageReturn then .lineEnd [Text.newline] else .byte b) ::
      signs rest

def isAllowed (n : Nat) : Bool :=
  n == 0x09 || n == 0x0a || n == 0x0d || (0x20 ≤ n && n ≤ 0x7e) || n == 0x85 ||
    (0xa0 ≤ n && n ≤ 0xfffd) || 0x10000 ≤ n

def isBlank (b : UInt8) : Bool := b == Text.space || b == Text.tab

/-- Whether a blank, the end of the line or the end of the document follows. -/
def endsWord : List Sign → Bool
  | .byte b :: _ => isBlank b
  | _ => true

/-- Whether three equal bytes follow as a word of their own. -/
def isMark (mark : UInt8) : List Sign → Bool
  | .byte a :: .byte b :: .byte c :: rest => a == mark && b == mark && c == mark && endsWord rest
  | _ => false

/-- Whether a mark between documents follows; it has to stand at the start of a line. -/
def startsMark (column : Nat) (rest : List Sign) : Bool :=
  column == 0 && (isMark Text.minus rest || isMark Text.dot rest)

/-- A place in a document. -/
structure Cursor where
  line : Nat := 0
  column : Nat := 0
  /-- A key may stand here: nothing but indentation or a dash stands in front on this line. -/
  fresh : Bool := true
  rest : List Sign
deriving Inhabited

namespace Cursor

def atEnd (c : Cursor) : Bool := c.rest.isEmpty || startsMark c.column c.rest

/-- The place behind some bytes of the same line, where no key can stand. -/
def past (c : Cursor) (bytes : Nat) : Cursor :=
  { c with column := c.column + bytes, fresh := false, rest := c.rest.drop bytes }

/-- The next place that is not blank, a line end or part of a comment.  Outside brackets a tab
cannot stand where a key could. -/
def seek (inList : Bool) (c : Cursor) : Cursor := go false c.line c.column c.fresh c.rest
where
  /-- The same from a place that may be inside a comment. -/
  go (comment : Bool) (line column : Nat) (fresh : Bool) : List Sign → Cursor
    | [] => ⟨line, column, fresh, []⟩
    | .lineEnd _ :: rest => go false (line + 1) 0 true rest
    | .byte b :: rest =>
      if comment || b == Text.space || (b == Text.tab && (inList || !fresh)) then
        go comment line (column + 1) fresh rest
      else if b == 0x23 then go true line (column + 1) fresh rest
      else ⟨line, column, fresh, .byte b :: rest⟩

end Cursor

/-! ## 2. Gaps -/

/-- What stands between two words of a scalar. -/
inductive Gap where
  | blanks (t : Text)
  /-- The first line end, and the others. -/
  | lineEnds (first more : Text)
deriving DecidableEq, Inhabited

namespace Gap

def none : Gap := .blanks []

def crosses : Gap → Bool
  | .blanks _ => false
  | .lineEnds _ _ => true

/-- One more blank; at the ends of a line blanks do not count. -/
def blank (b : UInt8) : Gap → Gap
  | .blanks t => .blanks (t ++ [b])
  | .lineEnds first more => .lineEnds first more

def cross (written : Text) : Gap → Gap
  | .blanks _ => .lineEnds written []
  | .lineEnds first more => .lineEnds first (more ++ written)

/-- What the gap adds to the scalar. -/
def text : Gap → Text
  | .blanks t => t
  | .lineEnds first more =>
    if first == [Text.newline] then if more.isEmpty then [Text.space] else more
    else first ++ more

end Gap

/-! ## 3. Scalars -/

/-- A scalar. -/
structure Scalar where
  text : Text
  quoted : Bool
deriving DecidableEq, Inhabited

def Scalar.missing : Scalar := ⟨[], false⟩

/-- Bytes that a plain scalar cannot start with. -/
def indicators : Text := ",[]\x7b\x7d#&*!|>'\"%@\x60"

/-- Whether a plain scalar may start here: a dash has to be followed by something that is not
blank, and so has a colon or question mark, which inside brackets cannot start one at all. -/
def startsPlain (inList : Bool) : List Sign → Bool
  | .byte b :: rest =>
    if b == Text.minus then !endsWord rest
    else if b == 0x3a || b == 0x3f then !inList && !endsWord rest
    else !isBlank b && !indicators.contains b
  | _ => false

/-- Whether a plain scalar ends in front of a byte that is not blank. -/
def endsPlain (inList : Bool) (indent : Nat) (gap : Gap) (column : Nat) (b : UInt8)
    (rest : List Sign) : Bool :=
  startsMark column (.byte b :: rest) || (b == 0x23 && gap != .none) ||
    (b == 0x3a && endsWord rest) ||
    (inList && [(0x2c : UInt8), 0x3f, 0x5b, 0x5d, 0x7b, 0x7d].contains b) ||
    (!inList && gap.crosses && column < indent)

/-- The rest of a plain scalar.  `read` is what has been read, the last byte first, and `gap`
what has been read since.  No tab may stand in the indentation. -/
def takePlain (inList : Bool) (indent : Nat) (read : Text) (gap : Gap) (line column : Nat) :
    List Sign → Option (Text × Cursor)
  | [] => some (read.reverse, ⟨line, column, gap.crosses, []⟩)
  | .lineEnd w :: rest => takePlain inList indent read (gap.cross w) (line + 1) 0 rest
  | .byte b :: rest =>
    if isBlank b then
      if gap.crosses && column < indent && b == Text.tab then none
      else takePlain inList indent read (gap.blank b) line (column + 1) rest
    else if endsPlain inList indent gap column b rest then
      some (read.reverse, ⟨line, column, gap.crosses, .byte b :: rest⟩)
    else takePlain inList indent (b :: gap.text.reverse ++ read) .none line (column + 1) rest

/-- The rest of a scalar in single quotes, in which a quote is written twice. -/
def takeSingle (read : Text) (gap : Gap) (line column : Nat) :
    List Sign → Option (Text × Cursor)
  | [] => none
  | .lineEnd w :: rest => takeSingle read (gap.cross w) (line + 1) 0 rest
  | .byte b :: rest =>
    let joined := gap.text.reverse ++ read
    if isBlank b then takeSingle read (gap.blank b) line (column + 1) rest
    else if startsMark column (.byte b :: rest) then none
    else if b != 0x27 then takeSingle (b :: joined) .none line (column + 1) rest
    else match rest with
      | .byte 0x27 :: rest => takeSingle (b :: joined) .none line (column + 2) rest
      | rest => some (joined.reverse, ⟨line, column + 1, false, rest⟩)

def escaped? (b : UInt8) : Option Text :=
  match Char.ofNat b.toNat with
  | '0' => some [0]
  | 'a' => some [0x07]
  | 'b' => some [0x08]
  | 't' | '\t' => some [0x09]
  | 'n' => some [0x0a]
  | 'v' => some [0x0b]
  | 'f' => some [0x0c]
  | 'r' => some [0x0d]
  | 'e' => some [0x1b]
  | ' ' => some [0x20]
  | '"' => some [0x22]
  | '\'' => some [0x27]
  | '\\' => some [0x5c]
  | 'N' => some (Text.ofChar (Char.ofNat 0x85))
  | '_' => some (Text.ofChar (Char.ofNat 0xa0))
  | 'L' => some (Text.ofChar (Char.ofNat 0x2028))
  | 'P' => some (Text.ofChar (Char.ofNat 0x2029))
  | _ => none

def codeDigits? (b : UInt8) : Option Nat :=
  match Char.ofNat b.toNat with
  | 'x' => some 2
  | 'u' => some 4
  | 'U' => some 8
  | _ => none

/-- The state of reading a scalar in double quotes. -/
inductive QuoteState where
  | plain (gap : Gap)
  | escape
  | code (digits value : Nat)

/-- The rest of a scalar in double quotes.  A backslash at the end of a line takes the line end
away. -/
def takeDouble (read : Text) (line column : Nat) :
    QuoteState → List Sign → Option (Text × Cursor)
  | _, [] => none
  | .plain gap, .lineEnd w :: rest => takeDouble read (line + 1) 0 (.plain (gap.cross w)) rest
  | .plain gap, .byte b :: rest =>
    let joined := gap.text.reverse ++ read
    if isBlank b then takeDouble read line (column + 1) (.plain (gap.blank b)) rest
    else if startsMark column (.byte b :: rest) then none
    else if b == Text.doubleQuote then some (joined.reverse, ⟨line, column + 1, false, rest⟩)
    else if b == Text.backslash then takeDouble joined line (column + 1) .escape rest
    else takeDouble (b :: joined) line (column + 1) (.plain .none) rest
  | .escape, .lineEnd _ :: rest => takeDouble read (line + 1) 0 (.plain (.lineEnds [] [])) rest
  | .escape, .byte b :: rest =>
    match escaped? b, codeDigits? b with
    | some t, _ => takeDouble (t.reverse ++ read) line (column + 1) (.plain .none) rest
    | none, some digits => takeDouble read line (column + 1) (.code digits 0) rest
    | none, none => none
  | .code _ _, .lineEnd _ :: _ => none
  | .code digits value, .byte b :: rest =>
    match Numeral.digit? b with
    | none => none
    | some d =>
      let value := value * 16 + d
      if 16 ≤ d then none
      else if 1 < digits then takeDouble read line (column + 1) (.code (digits - 1) value) rest
      else if value.isValidChar then
        takeDouble ((Text.ofChar (Char.ofNat value)).reverse ++ read) line (column + 1)
          (.plain .none) rest
      else none

/-- The scalar at a place and the place behind it.  The lines of a plain scalar after the first
have to be indented by `indent`. -/
def takeScalar (inList : Bool) (indent : Nat) (c : Cursor) : Option (Scalar × Cursor) :=
  let quoted := fun r : Text × Cursor => (Scalar.mk r.1 true, r.2)
  match c.rest with
  | .byte 0x27 :: rest => (takeSingle [] .none c.line (c.column + 1) rest).map quoted
  | .byte 0x22 :: rest =>
    (takeDouble [] c.line (c.column + 1) (.plain .none) rest).map quoted
  | rest =>
    if startsPlain inList rest then
      (takePlain inList indent [] .none c.line c.column rest).map fun r => (⟨r.1, false⟩, r.2)
    else none

end Yaml

end HaloScript
