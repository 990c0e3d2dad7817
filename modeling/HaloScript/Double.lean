/-
# Doubles

A settings file may give a whole number as a decimal with a fraction or an exponent.  Such a
number is first rounded to a double: 53 significant bits, in units of the smallest positive
double, `2 ^ -1074`.  Only then its fraction is cut off.
-/
import HaloScript.Rounding
import HaloScript.Single.Decimal

namespace HaloScript

namespace Double

/-- The number of bits a double keeps. -/
def precision : Nat := 53

def oneUnits : Nat := Nat.pow 2 1074

/-- The units at which finite doubles end. -/
def unitsLimit : Nat := Nat.pow 2 2098

end Double

/-- The double nearest to a decimal, with its fraction cut off; none if it is past the largest
double. -/
def Decimal.wholePart? (d : Decimal) : Option Int :=
  let units := Rounding.nearest Double.precision
    (d.mantissa * Nat.pow 10 d.exponent.toNat * Double.oneUnits) (Nat.pow 10 (-d.exponent).toNat)
  let whole := units / Double.oneUnits
  if units < Double.unitsLimit then some (if d.negative then -(whole : Int) else whole) else none

end HaloScript
