/-
# Single-precision reals

The numbers constant evaluation works with.  A finite single is a sign and a whole number of
units, the unit being the smallest positive single, `2 ^ -149`.  Sums, products and quotients
are computed exactly, as a ratio of naturals, and then rounded once: to the nearest number
with 24 significant bits, a tie going to the even one, and past the largest finite single to
infinity.  Zero has a sign, and what has no value is `nan`.
-/
import HaloScript.Rounding

namespace HaloScript

/-- A single-precision real. -/
inductive Single where
  | nan
  | infinite (negative : Bool)
  | finite (negative : Bool) (units : Nat)
deriving DecidableEq, Inhabited

namespace Single

def oneUnits : Nat := Nat.pow 2 149

/-- The units at which finite singles end. -/
def unitsLimit : Nat := Nat.pow 2 277

/-- The number of bits a single keeps. -/
def precision : Nat := 24

/-! ## 1. Rounding -/

/-- How many low bits of `q` units a single cannot keep. -/
def excessBits (q : Nat) : Nat := Rounding.excessBits precision q

/-- The single nearest to `num / den` units. -/
def ofRatio (negative : Bool) (num den : Nat) : Single :=
  let units := Rounding.nearest precision num den
  if units < unitsLimit then .finite negative units else .infinite negative

def zero : Single := .finite false 0

def one : Single := .finite false oneUnits

def ofInt (n : Int) : Single := ofRatio (decide (n < 0)) (n.natAbs * oneUnits) 1

/-! ## 2. Arithmetic -/

/-- A number of units with its sign. -/
def signed (negative : Bool) (units : Nat) : Int := if negative then -(units : Int) else units

def neg : Single → Single
  | .nan => .nan
  | .infinite s => .infinite !s
  | .finite s u => .finite (!s) u

/-- The sum.  A sum of zero is negative only if both terms are. -/
def add : Single → Single → Single
  | .nan, _ | _, .nan => .nan
  | .infinite s, .infinite t => if s = t then .infinite s else .nan
  | .infinite s, .finite _ _ | .finite _ _, .infinite s => .infinite s
  | .finite s u, .finite t v =>
    let sum := signed s u + signed t v
    if sum = 0 then .finite (s && t) 0 else ofRatio (decide (sum < 0)) sum.natAbs 1

def sub (x y : Single) : Single := add x y.neg

/-- The product.  Zero times infinity has no value. -/
def mul : Single → Single → Single
  | .nan, _ | _, .nan => .nan
  | .infinite s, .infinite t => .infinite (s != t)
  | .infinite s, .finite t u | .finite t u, .infinite s =>
    if u = 0 then .nan else .infinite (s != t)
  | .finite s u, .finite t v => ofRatio (s != t) (u * v) oneUnits

/-- The quotient.  Division by zero gives infinity, except of zero, which has no value. -/
def div : Single → Single → Single
  | .nan, _ | _, .nan => .nan
  | .infinite _, .infinite _ => .nan
  | .infinite s, .finite t _ => .infinite (s != t)
  | .finite s _, .infinite t => .finite (s != t) 0
  | .finite s u, .finite t v =>
    if v = 0 then (if u = 0 then .nan else .infinite (s != t))
    else ofRatio (s != t) (u * oneUnits) v

/-! ## 3. Order -/

/-- The order of two singles; `nan` is not comparable, and the two zeros are equal. -/
def compare? : Single → Single → Option Ordering
  | .nan, _ | _, .nan => none
  | .infinite s, .infinite t => some (compare t s)
  | .infinite s, .finite _ _ => some (if s then .lt else .gt)
  | .finite _ _, .infinite t => some (if t then .gt else .lt)
  | .finite s u, .finite t v => some (compare (signed s u) (signed t v))

/-- Less than; false for `nan`. -/
def lt (x y : Single) : Bool := compare? x y == some .lt

/-- At most; false for `nan`. -/
def le (x y : Single) : Bool := compare? x y == some .lt || compare? x y == some .eq

/-- Equality of numbers: the zeros are equal, and `nan` equals nothing. -/
def eq (x y : Single) : Bool := compare? x y == some .eq

def isZero (x : Single) : Bool := x.eq zero

def isNegative : Single → Bool
  | .nan => false
  | .infinite s => s
  | .finite s _ => s

/-- The smaller one.  Minus infinity wins over `nan`, and `nan` over numbers. -/
def min (x y : Single) : Single :=
  if x = .infinite true || y = .infinite true then .infinite true
  else if x = .nan || y = .nan then .nan
  else if x.isZero && y.isZero then (if x.isNegative then x else y)
  else if x.lt y then x else y

/-- The larger one.  Infinity wins over `nan`, and `nan` over numbers. -/
def max (x y : Single) : Single :=
  if x = .infinite false || y = .infinite false then .infinite false
  else if x = .nan || y = .nan then .nan
  else if x.isZero && y.isZero then (if x.isNegative then y else x)
  else if y.lt x then x else y

/-- Whether the number is neither infinite nor `nan`. -/
def isFinite : Single → Bool
  | .finite _ _ => true
  | _ => false

/-- The whole number left when the fraction is cut off. -/
def truncate? : Single → Option Int
  | .finite s u => some (signed s (u / oneUnits))
  | _ => none

/-! ## 4. The bit pattern -/

/-- The bits of the number: sign, eight bits of exponent, 23 bits of fraction. -/
def bits : Single → Nat
  | .nan => 0x7fc00000
  | .infinite s => (if s then 0x80000000 else 0) + 0x7f800000
  | .finite s u =>
    let magnitude :=
      if u < 0x800000 then u
      else
        let e := Nat.log2 u - 23
        (e + 1) * 0x800000 + (u / Nat.pow 2 e - 0x800000)
    (if s then 0x80000000 else 0) + magnitude

end Single

end HaloScript
