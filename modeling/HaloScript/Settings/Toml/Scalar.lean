/-
# Scalars of TOML

A string stands in single quotes, which take it literally, or in double quotes, in which a
backslash starts an escape.  Three quotes on either side let it go on for several lines; up to
two more quotes in front of the closing ones belong to it.

A whole number has a sign or the mark of a base, but not both.
-/
import HaloScript.Text.Chars
import HaloScript.Text.Numeral

namespace HaloScript

namespace Toml

/-! ## 1. Strings on one line -/

def isBlank (b : UInt8) : Bool := b == Text.space || b == Text.tab

/-- Bytes that may not stand in strings and comments. -/
def isControl (b : UInt8) : Bool := (b < 0x20 && b != Text.tab) || b == 0x7f

/-- The byte that a letter after a backslash stands for. -/
def escaped? (b : UInt8) : Option UInt8 :=
  if b == Text.doubleQuote || b == Text.backslash then some b
  else if b == 0x62 then some 0x08
  else if b == 0x74 then some Text.tab
  else if b == 0x6e then some Text.newline
  else if b == 0x66 then some 0x0c
  else if b == 0x72 then some Text.carriageReturn
  else if b == 0x65 then some 0x1b
  else none

/-- How many digits of a code point follow a letter after a backslash. -/
def codeDigits? (b : UInt8) : Option Nat :=
  if b == 0x75 then some 4 else if b == 0x55 then some 8 else none

/-- The rest of a literal string and what follows it.  `read` is what has been read, the last
byte first. -/
def takeLiteral (read : Text) : Text → Option (Text × Text)
  | [] => none
  | b :: rest =>
    if b == 0x27 then some (read.reverse, rest)
    else if isControl b then none
    else takeLiteral (b :: read) rest

/-- The state of reading a string with escapes. -/
inductive EscapeState where
  | plain
  | escape
  | code (digits value : Nat)

def addDigit? (value : Nat) (b : UInt8) : Option Nat :=
  match Numeral.digit? b with
  | some d => if d < 16 then some (value * 16 + d) else none
  | none => none

/-- The rest of a string with escapes and what follows it. -/
def takeBasic (read : Text) : EscapeState → Text → Option (Text × Text)
  | _, [] => none
  | .plain, b :: rest =>
    if b == Text.doubleQuote then some (read.reverse, rest)
    else if b == Text.backslash then takeBasic read .escape rest
    else if isControl b then none
    else takeBasic (b :: read) .plain rest
  | .escape, b :: rest =>
    match escaped? b, codeDigits? b with
    | some c, _ => takeBasic (c :: read) .plain rest
    | none, some digits => takeBasic read (.code digits 0) rest
    | none, none => none
  | .code digits value, b :: rest =>
    match addDigit? value b with
    | none => none
    | some value =>
      if 1 < digits then takeBasic read (.code (digits - 1) value) rest
      else if value.isValidChar then
        takeBasic ((Text.ofChar (Char.ofNat value)).reverse ++ read) .plain rest
      else none

/-! ## 2. Strings on several lines -/

/-- Whether a byte may stand in a string on several lines; a carriage return only in front of a
newline. -/
def isLongByte (b : UInt8) (rest : Text) : Bool :=
  b == Text.newline || (b == Text.carriageReturn && rest.head? == some Text.newline) ||
    !isControl b

/-- A string on several lines that a row of quotes ends, of which all but three belong to it. -/
def closed (quote : UInt8) (read : Text) (quotes : Nat) : Text :=
  read.reverse ++ List.replicate (quotes - 3) quote

def dropLineEnd : Text → Text
  | 0x0a :: rest => rest
  | 0x0d :: 0x0a :: rest => rest
  | t => t

/-- The rest of a literal string on several lines.  `quotes` counts the quotes in front. -/
def takeLongLiteral (read : Text) (quotes : Nat) : Text → Option (Text × Text)
  | [] => if 3 ≤ quotes then some (closed 0x27 read quotes, []) else none
  | b :: rest =>
    if b == 0x27 then if quotes == 5 then none else takeLongLiteral read (quotes + 1) rest
    else if 3 ≤ quotes then some (closed 0x27 read quotes, b :: rest)
    else if isLongByte b rest then
      takeLongLiteral (b :: List.replicate quotes 0x27 ++ read) 0 rest
    else none

/-- The state of reading a string with escapes on several lines. -/
inductive LongState where
  /-- After some quotes. -/
  | plain (quotes : Nat)
  | escape
  /-- After a backslash and blanks: the line has to end here. -/
  | lineTail
  /-- After a backslash at the end of a line: blanks and line ends are left out. -/
  | lineStart
  | code (digits value : Nat)

/-- The rest of a string with escapes on several lines. -/
def takeLongBasic (read : Text) : LongState → Text → Option (Text × Text)
  | .plain quotes, [] =>
    if 3 ≤ quotes then some (closed Text.doubleQuote read quotes, []) else none
  | _, [] => none
  | .plain quotes, b :: rest =>
    if b == Text.doubleQuote then
      if quotes == 5 then none else takeLongBasic read (.plain (quotes + 1)) rest
    else if 3 ≤ quotes then some (closed Text.doubleQuote read quotes, b :: rest)
    else content (List.replicate quotes Text.doubleQuote ++ read) b rest
  | .escape, b :: rest =>
    match escaped? b, codeDigits? b with
    | some c, _ => takeLongBasic (c :: read) (.plain 0) rest
    | none, some digits => takeLongBasic read (.code digits 0) rest
    | none, none => tail b rest
  | .lineTail, b :: rest => tail b rest
  | .lineStart, b :: rest =>
    if isBlank b || b == Text.newline || b == Text.carriageReturn then
      if isLongByte b rest then takeLongBasic read .lineStart rest else none
    else if b == Text.doubleQuote then takeLongBasic read (.plain 1) rest
    else content read b rest
  | .code digits value, b :: rest =>
    match addDigit? value b with
    | none => none
    | some value =>
      if 1 < digits then takeLongBasic read (.code (digits - 1) value) rest
      else if value.isValidChar then
        takeLongBasic ((Text.ofChar (Char.ofNat value)).reverse ++ read) (.plain 0) rest
      else none
where
  /-- The rest from a byte that is no quote. -/
  content (read : Text) (b : UInt8) (rest : Text) : Option (Text × Text) :=
    if b == Text.backslash then takeLongBasic read .escape rest
    else if isLongByte b rest then takeLongBasic (b :: read) (.plain 0) rest
    else none
  /-- The rest from a byte that stands behind a backslash and only blanks. -/
  tail (b : UInt8) (rest : Text) : Option (Text × Text) :=
    if b == Text.newline then takeLongBasic read .lineStart rest
    else if isBlank b || (b == Text.carriageReturn && isLongByte b rest) then
      takeLongBasic read .lineTail rest
    else none

def takeString : Text → Option (Text × Text)
  | 0x27 :: 0x27 :: 0x27 :: rest => takeLongLiteral [] 0 (dropLineEnd rest)
  | 0x22 :: 0x22 :: 0x22 :: rest => takeLongBasic [] (.plain 0) (dropLineEnd rest)
  | 0x27 :: rest => takeLiteral [] rest
  | 0x22 :: rest => takeBasic [] .plain rest
  | _ => none

/-! ## 3. Words -/

def isWordByte (b : UInt8) : Bool :=
  Text.isDigit b || (0x61 ≤ Text.lowerByte b && Text.lowerByte b ≤ 0x7a) ||
    b == Text.underscore || b == Text.minus || b == Text.plus || b == Text.dot || b == 0x3a

/-- Whether a decimal numeral without sign starts with a zero that it could do without. -/
def hasNeedlessZero : Text → Bool
  | 0x30 :: _ :: _ => true
  | _ => false

/-- Reads a whole number.  Only numbers without sign have a base, and its mark is small. -/
def number? (word : Text) : Option Int64 :=
  let (_, body) := Numeral.splitSign word
  let marked := match word with
    | 0x30 :: mark :: _ => [(0x78 : UInt8), 0x6f, 0x62].contains mark
    | _ => false
  let valid :=
    if marked then (Numeral.splitBase word).2.head?.any (· != Text.underscore)
    else !body.isEmpty && body.all (fun b => Text.isDigit b || b == Text.underscore) &&
      !hasNeedlessZero body
  if valid then (Numeral.long word).toOption else none

end Toml

end HaloScript
