/-
# Quoted text

The form in which names are shown in messages and dumps: between double quotes, with a
backslash in front of quotes and backslashes, the usual letters for control characters, and
numbers for whatever is not printable.  Every byte can be told from the quoted form.
-/
import HaloScript.Text.Printable

namespace HaloScript

namespace Text

def escapeLetter (n : Nat) : Option UInt8 :=
  match n with
  | 0x07 => some 0x61
  | 0x08 => some 0x62
  | 0x09 => some 0x74
  | 0x0a => some 0x6e
  | 0x0b => some 0x76
  | 0x0c => some 0x66
  | 0x0d => some 0x72
  | _ => none

/-- A code point that is not shown as itself: two, four or eight hexadecimal digits. -/
def escapeCode (n : Nat) : Text :=
  if n < 0x20 || n == 0x7f then "\\x" ++ hex 2 n
  else if n < 0x10000 then "\\u" ++ hex 4 n
  else "\\U" ++ hex 8 n

def quotePiece : Piece → Text
  | .broken b => "\\x" ++ hex 2 b.toNat
  | .char c =>
    if c == '"' then "\\\""
    else if c == '\\' then "\\\\"
    else if isPrintable c.toNat then ofChar c
    else match escapeLetter c.toNat with
      | some letter => [backslash, letter]
      | none => escapeCode c.toNat

def quote (t : Text) : Text :=
  doubleQuote :: (pieces t).flatMap quotePiece ++ [doubleQuote]

end Text

end HaloScript
