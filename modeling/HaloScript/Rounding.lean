/-
# Rounding to some number of bits

A ratio of naturals is rounded to a natural that keeps only so many significant bits, a tie
going to the even neighbour.  Binary formats differ in how many bits they keep, in their unit
and in where they end; this part is the same for all of them.
-/

namespace HaloScript

namespace Rounding

/-- The whole number nearest to `num / den`, the even one of two. -/
def halfEven (num den : Nat) : Nat :=
  let q := num / den
  let r := num % den
  if 2 * r < den then q
  else if den < 2 * r then q + 1
  else if q % 2 = 0 then q else q + 1

/-- How many low bits of `q` are too many for a precision. -/
def excessBits (precision q : Nat) : Nat :=
  if q < Nat.pow 2 precision then 0 else Nat.log2 q - (precision - 1)

/-- The number nearest to `num / den` that fits a precision. -/
def nearest (precision num den : Nat) : Nat :=
  let step := Nat.pow 2 (excessBits precision (num / den))
  halfEven num (den * step) * step

end Rounding

end HaloScript
