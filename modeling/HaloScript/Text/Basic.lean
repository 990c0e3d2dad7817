/-
# Text

Source text is a sequence of bytes.  Most of it is UTF-8, but nothing guarantees that, and a
file that is not must pass through the compiler unchanged, so bytes are what this library
works on.  `Text` is a plain list: every operation below is a list operation or a short
recursion on one.

A string literal is usable wherever a `Text` is expected; it stands for its UTF-8 bytes.
-/

namespace HaloScript

abbrev Text := List UInt8

namespace Text

def ofString (s : String) : Text := s.toUTF8.data.toList

instance : Coe String Text := ⟨ofString⟩

/-! ## 1. Bytes with a name -/

@[match_pattern] abbrev tab : UInt8 := 0x09
@[match_pattern] abbrev newline : UInt8 := 0x0a
@[match_pattern] abbrev carriageReturn : UInt8 := 0x0d
@[match_pattern] abbrev space : UInt8 := 0x20
@[match_pattern] abbrev doubleQuote : UInt8 := 0x22
@[match_pattern] abbrev openBracket : UInt8 := 0x28
@[match_pattern] abbrev closeBracket : UInt8 := 0x29
@[match_pattern] abbrev plus : UInt8 := 0x2b
@[match_pattern] abbrev minus : UInt8 := 0x2d
@[match_pattern] abbrev dot : UInt8 := 0x2e
@[match_pattern] abbrev slash : UInt8 := 0x2f
@[match_pattern] abbrev semicolon : UInt8 := 0x3b
@[match_pattern] abbrev equals : UInt8 := 0x3d
@[match_pattern] abbrev backslash : UInt8 := 0x5c
@[match_pattern] abbrev underscore : UInt8 := 0x5f

/-- The decimal digits `0` to `9`. -/
def isDigit (b : UInt8) : Bool := 0x30 ≤ b && b ≤ 0x39

def digitValue (b : UInt8) : Nat := b.toNat - 0x30

/-- A letter of the ASCII range in its small form; any other byte as it is. -/
def lowerByte (b : UInt8) : UInt8 := if 0x41 ≤ b && b ≤ 0x5a then b + 0x20 else b

/-! ## 2. Numbers as text -/

/-- The digit for a number below sixteen, letters being small. -/
def digit (n : Nat) : UInt8 :=
  if n < 10 then UInt8.ofNat (0x30 + n) else UInt8.ofNat (0x57 + n)

def ofNat (n : Nat) : Text :=
  if n < 10 then [digit n] else ofNat (n / 10) ++ [digit (n % 10)]

/-- Decimal digits after a minus sign where there is one. -/
def ofInt : Int → Text
  | .ofNat n => ofNat n
  | .negSucc n => minus :: ofNat (n + 1)

/-- The last `width` hexadecimal digits of a number, with leading zeros. -/
def hex (width n : Nat) : Text :=
  (List.range width).reverse.map fun k => digit (n / Nat.pow 16 k % 16)

/-- `n` copies of a byte. -/
def repeated (n : Nat) (b : UInt8) : Text := List.replicate n b

def padLeft (width : Nat) (t : Text) : Text := repeated (width - t.length) space ++ t

/-! ## 3. Cutting and joining -/

/-- The pieces between the separators; there is always one more piece than separators. -/
def splitOn (sep : UInt8) : Text → List Text
  | [] => [[]]
  | b :: rest =>
    if b == sep then [] :: splitOn sep rest
    else match splitOn sep rest with
      | [] => [[b]]
      | piece :: pieces => (b :: piece) :: pieces

/-- The pieces with the separator between them. -/
def join (sep : Text) (pieces : List Text) : Text := List.intercalate sep pieces

def trimRight (drop : UInt8 → Bool) (t : Text) : Text := (t.reverse.dropWhile drop).reverse

def replaceByte (t : Text) (old : UInt8) (new : Text) : Text :=
  t.flatMap fun b => if b == old then new else [b]

/-- What stands in front of the first separator and after it, or the whole text and nothing. -/
def cut (sep : UInt8) (t : Text) : Text × Option Text :=
  let before := t.takeWhile (· != sep)
  match t.dropWhile (· != sep) with
  | [] => (before, none)
  | _ :: after => (before, some after)

def containsAny (t : Text) (set : Text) : Bool := t.any set.contains

/-- Byte order, the shorter text first where one continues the other. -/
def le : Text → Text → Bool
  | [], _ => true
  | _ :: _, [] => false
  | a :: s, b :: t => a < b || (a == b && le s t)

end Text

end HaloScript
