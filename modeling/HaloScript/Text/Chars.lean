/-
# Characters of a text

`Text.pieces` reads bytes as UTF-8.  A byte that does not belong to a well-formed character
is a piece of its own, so nothing is lost: the bytes of the pieces, one after another, are
the text.  Overlong forms, surrogates and code points past `10FFFF` are not well formed.
-/
import HaloScript.Text.Basic

namespace HaloScript

/-- One character of a text, or one byte that is part of none. -/
inductive Piece where
  | char (c : Char)
  | broken (b : UInt8)
deriving DecidableEq, Inhabited

namespace Piece

def bytes : Piece → Text
  | .char c => String.utf8EncodeChar c
  | .broken b => [b]

/-- The code point a reader sees: a broken byte shows as the replacement character. -/
def code : Piece → Nat
  | .char c => c.toNat
  | .broken _ => 0xfffd

end Piece

namespace Text

def isContinuation (b : UInt8) : Bool := b &&& 0xc0 == 0x80

def tailBits (b : UInt8) : Nat := (b &&& 0x3f).toNat

/-- Whether `b` may follow `a` as the first two bytes of a three-byte character. -/
def startsThree (a b : UInt8) : Bool :=
  isContinuation b &&
    ((a == 0xe0 && 0xa0 ≤ b) || (0xe1 ≤ a && a ≤ 0xec) || (a == 0xed && b ≤ 0x9f) ||
      a == 0xee || a == 0xef)

/-- Whether `b` may follow `a` as the first two bytes of a four-byte character. -/
def startsFour (a b : UInt8) : Bool :=
  isContinuation b &&
    ((a == 0xf0 && 0x90 ≤ b) || (0xf1 ≤ a && a ≤ 0xf3) || (a == 0xf4 && b ≤ 0x8f))

/-- The character that starts with `a` and goes on with `rest`, and how many bytes of `rest`
belong to it. -/
def frontChar (a : UInt8) (rest : Text) : Option (Char × Nat) :=
  if a < 0x80 then some (Char.ofNat a.toNat, 0)
  else match rest with
    | [] => none
    | b :: rest =>
      if 0xc2 ≤ a && a ≤ 0xdf && isContinuation b then
        some (Char.ofNat ((a &&& 0x1f).toNat * 64 + tailBits b), 1)
      else match rest with
        | [] => none
        | c :: rest =>
          if startsThree a b && isContinuation c then
            some (Char.ofNat (((a &&& 0x0f).toNat * 64 + tailBits b) * 64 + tailBits c), 2)
          else match rest with
            | [] => none
            | d :: _ =>
              if startsFour a b && isContinuation c && isContinuation d then
                some (Char.ofNat
                  ((((a &&& 0x07).toNat * 64 + tailBits b) * 64 + tailBits c) * 64 + tailBits d), 3)
              else none

/-- The pieces after the first `skip` bytes, which belong to a character already read. -/
def piecesAfter : Nat → Text → List Piece
  | _, [] => []
  | skip + 1, _ :: rest => piecesAfter skip rest
  | 0, a :: rest =>
    match frontChar a rest with
    | some (c, more) => .char c :: piecesAfter more rest
    | none => .broken a :: piecesAfter 0 rest

/-- The text as characters and broken bytes. -/
def pieces (t : Text) : List Piece := piecesAfter 0 t

def ofPieces (ps : List Piece) : Text := ps.flatMap Piece.bytes

def ofChar (c : Char) : Text := String.utf8EncodeChar c

/-- Whether a code point belongs to a set that is given by the lengths of its runs: from zero on so
many code points are outside, so many after them inside, and so on in turn. -/
def inRuns : List Nat → Nat → Bool
  | outside :: inside :: rest, n =>
    if n < outside then false
    else if n < outside + inside then true
    else inRuns rest (n - (outside + inside))
  | _, _ => false

def isSpaceCode (n : Nat) : Bool :=
  (0x09 ≤ n && n ≤ 0x0d) || n == 0x20 || n == 0x85 || n == 0xa0 || n == 0x1680 ||
    (0x2000 ≤ n && n ≤ 0x200a) || n == 0x2028 || n == 0x2029 || n == 0x202f || n == 0x205f ||
    n == 0x3000

def trimSpace (t : Text) : Text :=
  let blank := fun p : Piece => isSpaceCode p.code
  ofPieces (((pieces t).dropWhile blank).reverse.dropWhile blank).reverse

/-- The words of a text, white space being what separates them. -/
def fields (t : Text) : List Text :=
  let step := fun (p : Piece) (acc : Text × List Text) =>
    if isSpaceCode p.code then
      ([], if acc.1.isEmpty then acc.2 else acc.1 :: acc.2)
    else (p.bytes ++ acc.1, acc.2)
  let (word, words) := (pieces t).foldr step ([], [])
  if word.isEmpty then words else word :: words

end Text

end HaloScript
