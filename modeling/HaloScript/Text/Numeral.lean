/-
# Numerals

Whole numbers as they are written in settings and on the command line.  A leading `0x`, `0o` or
`0b` gives the base, and a leading zero alone means base eight.  Underscores may separate
digits.
-/
import HaloScript.Text.Basic

namespace HaloScript

/-- Why a text is not the numeral of a long. -/
inductive NumeralFault where
  | malformed
  | outOfRange
deriving DecidableEq, Inhabited

namespace Numeral

/-- The value of a digit or letter in the largest base there is. -/
def digit? (b : UInt8) : Option Nat :=
  if Text.isDigit b then some (Text.digitValue b)
  else
    let c := Text.lowerByte b
    if 0x61 ≤ c && c ≤ 0x7a then some (c.toNat - 0x57) else none

/-- The number that digits stand for, continued from the digits before them.  A number that
does not fit is noticed at the digit that makes it too large. -/
def ofDigits (base : Nat) : Nat → Text → Except NumeralFault Nat
  | acc, [] => .ok acc
  | acc, b :: rest =>
    if b == Text.underscore then ofDigits base acc rest
    else match digit? b with
      | none => .error .malformed
      | some d =>
        if base ≤ d then .error .malformed
        else if UInt64.size ≤ acc * base + d then .error .outOfRange
        else ofDigits base (acc * base + d) rest

def splitBase : Text → Nat × Text
  | [] => (10, [])
  | 0x30 :: mark :: b :: rest =>
    let m := Text.lowerByte mark
    if m == 0x78 then (16, b :: rest)
    else if m == 0x6f then (8, b :: rest)
    else if m == 0x62 then (2, b :: rest)
    else (8, mark :: b :: rest)
  | 0x30 :: rest => (8, rest)
  | t => (10, t)

def hasMark : Text → Bool
  | 0x30 :: mark :: _ => [(0x78 : UInt8), 0x6f, 0x62].contains (Text.lowerByte mark)
  | _ => false

/-- Whether every underscore stands between digits; `digit` says whether a digit, or the mark
of a base, stands in front. -/
def underscoresSeparate : Bool → Text → Bool
  | _, [] => true
  | digit, b :: rest =>
    if b == Text.underscore then
      match rest with
      | [] => false
      | c :: _ => digit && (digit? c).isSome && underscoresSeparate false rest
    else underscoresSeparate (digit? b).isSome rest

/-- The sign of a numeral, true for a minus, and the rest of it. -/
def splitSign : Text → Bool × Text
  | Text.minus :: rest => (true, rest)
  | Text.plus :: rest => (false, rest)
  | t => (false, t)

def long (t : Text) : Except NumeralFault Int64 :=
  let (negative, body) := splitSign t
  let (base, digits) := splitBase body
  if body.isEmpty then .error .malformed
  else do
    let n ← ofDigits base 0 digits
    let separated :=
      if hasMark body then underscoresSeparate true (body.drop 2)
      else underscoresSeparate false body
    if !separated then throw .malformed
    let value : Int := if negative then -(n : Int) else n
    if value < Int64.minValue.toInt || Int64.maxValue.toInt < value then throw .outOfRange
    return Int64.ofInt value

end Numeral

end HaloScript
