/-
# Singles in decimal

Reading: an optional sign, digits with at most one point, and an optional exponent, rounded
once to the nearest single; or an infinity by name.  A number past the largest single does not
read.

Writing: the fewest digits that read back as the same single, and of the texts with that many
digits the one nearest to it, an even last digit deciding a tie.  There is no exponent: zeros
fill up to the point.
-/
import HaloScript.Single.Basic
import HaloScript.Text.Basic

namespace HaloScript

/-! ## 1. Reading -/

/-- A decimal number as it is written: `mantissa * 10 ^ exponent`. -/
structure Decimal where
  negative : Bool
  mantissa : Nat
  exponent : Int
deriving DecidableEq, Inhabited

namespace Decimal

def ofDigits (digits : Text) : Nat := digits.foldl (fun n d => n * 10 + Text.digitValue d) 0

/-- The sign in front of a text, whether it is a minus, and the rest. -/
def takeSign : Text → Bool × Text
  | Text.plus :: rest => (false, rest)
  | Text.minus :: rest => (true, rest)
  | t => (false, t)

/-- The number in an exponent.  It stops growing once it has passed any use. -/
def exponentValue (digits : Text) : Nat :=
  digits.foldl (fun n d => if n < 10000 then n * 10 + Text.digitValue d else n) 0

/-- What follows the digits of a number: nothing, or an exponent. -/
def readExponent? : Text → Option Int
  | [] => some 0
  | mark :: rest =>
    if Text.lowerByte mark == 0x65 then
      let (negative, digits) := takeSign rest
      if digits.isEmpty || !digits.all Text.isDigit then none
      else some (if negative then -(exponentValue digits : Int) else exponentValue digits)
    else none

def read? (t : Text) : Option Decimal :=
  let (negative, t) := takeSign t
  let whole := t.takeWhile Text.isDigit
  let t := t.dropWhile Text.isDigit
  let (fraction, t) := match t with
    | Text.dot :: rest => (rest.takeWhile Text.isDigit, rest.dropWhile Text.isDigit)
    | _ => ([], t)
  if whole.isEmpty && fraction.isEmpty then none
  else (readExponent? t).map fun e =>
    ⟨negative, ofDigits (whole ++ fraction), e - fraction.length⟩

def toSingle (d : Decimal) : Single :=
  Single.ofRatio d.negative (d.mantissa * Nat.pow 10 d.exponent.toNat * Single.oneUnits)
    (Nat.pow 10 (-d.exponent).toNat)

end Decimal

namespace Single

def namesInfinity (t : Text) : Bool :=
  let small := t.map Text.lowerByte
  small == ("inf" : Text) || small == ("infinity" : Text)

def read? (t : Text) : Option Single :=
  let (negative, rest) := Decimal.takeSign t
  if namesInfinity rest then some (.infinite negative)
  else if t.map Text.lowerByte == ("nan" : Text) then some .nan
  else match (Decimal.read? t).map Decimal.toSingle with
    | some (.finite s u) => some (.finite s u)
    | _ => none

/-! ## 2. Writing -/

/-- The reals that round to a positive single, in quarters of a unit. -/
structure Neighbourhood where
  low : Nat
  centre : Nat
  high : Nat
  /-- The ends round to the single too. -/
  closed : Bool

/-- The neighbourhood of a number of units.  Below a power of two the next single is only half
as far away. -/
def neighbourhood (units : Nat) : Neighbourhood :=
  let e := excessBits units
  let step := Nat.pow 2 e
  let significand := units / step
  let below := if significand = Nat.pow 2 (precision - 1) ∧ 0 < e then step else 2 * step
  ⟨4 * units - below, 4 * units, 4 * units + 2 * step, significand % 2 = 0⟩

/-- The quarters of a unit in the number one. -/
def oneQuarters : Nat := 4 * oneUnits

namespace Neighbourhood

/-- Whether `m * 10 ^ k` rounds to the single. -/
def holds (n : Neighbourhood) (k : Int) (m : Nat) : Bool :=
  let scale := Nat.pow 10 (-k).toNat
  let point := m * Nat.pow 10 k.toNat * oneQuarters
  if n.closed then n.low * scale ≤ point && point ≤ n.high * scale
  else n.low * scale < point && point < n.high * scale

/-- The multiple of `10 ^ k` that stands for the single, if one does: the nearer of its two
neighbours on that grid, the even one on a tie. -/
def onGrid? (n : Neighbourhood) (k : Int) : Option Nat :=
  let scale := Nat.pow 10 (-k).toNat
  let unit := Nat.pow 10 k.toNat * oneQuarters
  let m := n.centre * scale / unit
  let rest := n.centre * scale % unit
  match n.holds k m, n.holds k (m + 1) with
  | true, true =>
    if 2 * rest < unit ∨ (2 * rest = unit ∧ m % 2 = 0) then some m else some (m + 1)
  | true, false => some m
  | false, true => some (m + 1)
  | false, false => none

end Neighbourhood

/-- The exponents of the grids that can matter, the coarsest first. -/
def gridExponents : List Int := (List.range 95).map fun (i : Nat) => 39 - (i : Int)

/-- The shortest decimal for a positive number of units. -/
def shortest (units : Nat) : Nat × Int :=
  let n := neighbourhood units
  (gridExponents.findSome? fun k => (n.onGrid? k).map fun m => (m, k)).getD (0, 0)

/-- `m * 10 ^ k` without an exponent. -/
def positional (m : Nat) (k : Int) : Text :=
  let digits := Text.ofNat m
  match k with
  | .ofNat zeros => digits ++ Text.repeated zeros 0x30
  | .negSucc _ =>
    let places := (-k).toNat
    let digits := Text.repeated (places + 1 - digits.length) 0x30 ++ digits
    digits.take (digits.length - places) ++ "." ++ digits.drop (digits.length - places)

def render : Single → Text
  | .nan => "NaN"
  | .infinite negative => if negative then "-Inf" else "+Inf"
  | .finite negative units =>
    let magnitude : Text :=
      if units = 0 then "0" else let (m, k) := shortest units; positional m k
    if negative then "-" ++ magnitude else magnitude

end Single

end HaloScript
