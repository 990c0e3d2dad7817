/-
# Reading data

A datum is read byte by byte; a byte stands for the character of the first 256 with its
number.  White space separates tokens, and a comment runs from a semicolon to the end of the
line.  A zero byte ends the text.

Tokens are only asked for as far as they are needed: what follows the first token that is out
of place is not looked at, so a fault behind it does not show.
-/
import HaloScript.Casebook.Datum
import HaloScript.Text.Chars

namespace HaloScript

/-- Why a text is not a datum. -/
inductive DatumFault where
  /-- A backslash in front of something that needs none. -/
  | badEscape (b : UInt8)
  | unterminatedString
  | unexpectedCharacter (b : UInt8)
  /-- A token where a datum should start. -/
  | unexpectedToken (name : Text)
  /-- The end of the text inside a list. -/
  | unclosedList
  /-- A token after the datum. -/
  | trailingToken (name : Text)
deriving DecidableEq

def DatumFault.message : DatumFault → Text
  | .badEscape b => "invalid escape sequence: \\" ++ Text.ofChar (Char.ofNat b.toNat)
  | .unterminatedString => "unterminated string"
  | .unexpectedCharacter b => "unexpected character '" ++ Text.ofChar (Char.ofNat b.toNat) ++ "'"
  | .unexpectedToken name => "unexpected token: " ++ name
  | .unclosedList => "expected ')' but got EOF"
  | .trailingToken name => "expected EOF but got " ++ name

namespace Datum

/-! ## 1. Tokens -/

/-- A token of a datum. -/
inductive Token where
  | openList
  | closeList
  | atom (d : Datum)
  /-- Where tokens cannot be told apart any further. -/
  | fault (f : DatumFault)

namespace Token

def name : Token → Text
  | .openList => "'('"
  | .closeList => "')'"
  | .atom (.string _) => "string"
  | .atom .ellipsis => "ellipsis"
  | .atom _ => "symbol"
  | .fault _ => "EOF"

end Token

/-- White space among the first 256 characters. -/
def isBlank (b : UInt8) : Bool := Text.isSpaceCode b.toNat

def isLetter (b : UInt8) : Bool :=
  (0x41 ≤ b && b ≤ 0x5a) || (0x61 ≤ b && b ≤ 0x7a) || b == 0xaa || b == 0xb5 || b == 0xba ||
    (0xc0 ≤ b && b != 0xd7 && b != 0xf7)

def isSymbolByte (b : UInt8) : Bool :=
  isLetter b || Text.isDigit b || b == Text.minus || b == Text.underscore

def endsComment (b : UInt8) : Bool := b == Text.newline || b == Text.carriageReturn || b == 0

/-- What the scanner is in the middle of. -/
inductive ScanState where
  | between
  | comment
  /-- A symbol, the last byte first. -/
  | symbol (read : Text)
  /-- A string, the last byte first. -/
  | string (read : Text)
  /-- A string after a backslash. -/
  | escape (read : Text)
  /-- One or two dots. -/
  | dots (second : Bool)

def tokens : ScanState → Text → List Token
  | .between, [] | .comment, [] => []
  | .symbol read, [] => [.atom (.symbol read.reverse)]
  | .string _, [] => [.fault .unterminatedString]
  | .escape _, [] => [.fault (.badEscape 0)]
  | .dots _, [] => [.fault (.unexpectedCharacter Text.dot)]
  | .between, b :: rest => start b rest
  | .comment, b :: rest =>
    if b == 0 then [] else if endsComment b then tokens .between rest else tokens .comment rest
  | .symbol read, b :: rest =>
    if isSymbolByte b then tokens (.symbol (b :: read)) rest
    else .atom (.symbol read.reverse) :: start b rest
  | .string read, b :: rest =>
    if b == Text.doubleQuote then .atom (.string read.reverse) :: tokens .between rest
    else if b == Text.backslash then tokens (.escape read) rest
    else if b == 0 then [.fault .unterminatedString]
    else tokens (.string (b :: read)) rest
  | .escape read, b :: rest =>
    if b == Text.doubleQuote || b == Text.backslash then tokens (.string (b :: read)) rest
    else [.fault (.badEscape b)]
  | .dots second, b :: rest =>
    if b == Text.dot then
      if second then .atom .ellipsis :: tokens .between rest else tokens (.dots true) rest
    else [.fault (.unexpectedCharacter Text.dot)]
where
  /-- The tokens from a byte that starts one. -/
  start (b : UInt8) (rest : Text) : List Token :=
    if b == 0 then []
    else if isBlank b then tokens .between rest
    else if b == Text.semicolon then tokens .comment rest
    else if b == Text.openBracket then .openList :: tokens .between rest
    else if b == Text.closeBracket then .closeList :: tokens .between rest
    else if b == Text.doubleQuote then tokens (.string []) rest
    else if b == Text.dot then tokens (.dots false) rest
    else if isLetter b then tokens (.symbol [b]) rest
    else [.fault (.unexpectedCharacter b)]

/-! ## 2. Lists -/

def finish (d : Datum) : List Token → Except DatumFault Datum
  | [] => .ok d
  | .fault f :: _ => .error f
  | t :: _ => .error (.trailingToken t.name)

/-- Reads a datum from tokens.  The lists that are open are given with the innermost first,
each with its last item first. -/
def ofTokens : List (List Datum) → List Token → Except DatumFault Datum
  | [], [] => .error (.unexpectedToken "EOF")
  | _ :: _, [] => .error .unclosedList
  | _, .fault f :: _ => .error f
  | opened, .openList :: rest => ofTokens ([] :: opened) rest
  | [], .closeList :: _ => .error (.unexpectedToken Token.closeList.name)
  | [items], .closeList :: rest => finish (.list items.reverse) rest
  | items :: outer :: opened, .closeList :: rest =>
    ofTokens ((.list items.reverse :: outer) :: opened) rest
  | [], .atom d :: rest => finish d rest
  | items :: opened, .atom d :: rest => ofTokens ((d :: items) :: opened) rest

def read (t : Text) : Except DatumFault Datum := ofTokens [] (tokens .between t)

end Datum

end HaloScript
