/-
# Constants

The values that expressions have at compile time.  A word stands for itself until it is used:
how it is used decides whether it is read as a whole number, a real, a truth value or a text.

A whole number out of range never turns into a nearby one, and a real becomes a whole number
by cutting off its fraction, as long as the result is in range.
-/
import HaloScript.Single.Decimal
import HaloScript.Text.Chars

namespace HaloScript

/-- A value known at compile time. -/
inductive Const where
  /-- The value of what produces nothing. -/
  | void
  /-- A word or literal as it is written. -/
  | atom (text : Text)
  | long (n : Int64)
  | short (n : Int16)
  | real (x : Single)
  | bool (b : Bool)
deriving DecidableEq, Inhabited

/-! ## 1. Reading words -/

namespace Reading

def int? (t : Text) : Option Int :=
  let (negative, digits) := Decimal.takeSign t
  if digits.isEmpty || !digits.all Text.isDigit then none
  else
    let n := Decimal.ofDigits digits
    some (if negative then -(n : Int) else n)

def long? (t : Text) : Option Int64 :=
  (int? t).bind fun n =>
    if Int64.minValue.toInt ≤ n ∧ n ≤ Int64.maxValue.toInt then some (Int64.ofInt n) else none

def short? (t : Text) : Option Int16 :=
  (int? t).bind fun n =>
    if Int16.minValue.toInt ≤ n ∧ n ≤ Int16.maxValue.toInt then some (Int16.ofInt n) else none

def startsNumber : Text → Bool
  | [] => false
  | b :: _ => Text.isDigit b || b == Text.minus || b == Text.plus || b == Text.dot

/-- A real.  Words that merely look like numbers of another notation are not numbers. -/
def real? (t : Text) : Option Single :=
  if startsNumber t && !t.containsAny "xX_pP" then Single.read? t else none

/-- A character regardless of case.  The long `s` is a form of `s`. -/
def foldCase (c : Char) : Char := if c == 'ſ' then 's' else c.toLower

/-- Whether a text spells a word of small letters, in letters of any case. -/
def spells (word : String) (t : Text) : Bool :=
  t.pieces.map (fun p => match p with
    | .char c => some (foldCase c)
    | .broken _ => none) == word.toList.map some

def bool? (t : Text) : Option Bool :=
  if spells "true" t then some true else if spells "false" t then some false else none

end Reading

namespace Single

def toLong? (x : Single) : Option Int64 :=
  if le (ofInt (Int64.maxValue.toInt + 1)) x || le x (ofInt Int64.minValue.toInt) then none
  else x.truncate?.map Int64.ofInt

def toShort? (x : Single) : Option Int16 :=
  if le (ofInt (Int16.maxValue.toInt + 1)) x || le x (ofInt (Int16.minValue.toInt - 1)) then none
  else x.truncate?.map Int16.ofInt

end Single

/-! ## 2. Coercions -/

namespace Const

def toLong? : Const → Option Int64
  | .atom t => (Reading.long? t).orElse fun _ => (Reading.real? t).bind Single.toLong?
  | .long n => some n
  | .short n => some n.toInt64
  | .real x => x.toLong?
  | .void | .bool _ => none

/-- The constant as a short.  A whole number that is too large for a short is not tried as a
real. -/
def toShort? : Const → Option Int16
  | .atom t =>
    match Reading.short? t, Reading.long? t with
    | some n, _ => some n
    | none, some _ => none
    | none, none => (Reading.real? t).bind Single.toShort?
  | .long n =>
    if n.toInt ≤ Int16.maxValue.toInt ∧ Int16.minValue.toInt ≤ n.toInt then some n.toInt16
    else none
  | .short n => some n
  | .real x => x.toShort?
  | .void | .bool _ => none

def toReal? : Const → Option Single
  | .atom t => Reading.real? t
  | .long n => some (Single.ofInt n.toInt)
  | .short n => some (Single.ofInt n.toInt)
  | .real x => some x
  | .void | .bool _ => none

/-- The constant as a truth value: numbers other than zero are true. -/
def toBool? : Const → Option Bool
  | .atom t =>
    match Reading.long? t, Reading.real? t with
    | some n, _ => some (n != 0)
    | none, some x => some !x.isZero
    | none, none => Reading.bool? t
  | .long n => some (n != 0)
  | .short n => some (n != 0)
  | .real x => some !x.isZero
  | .bool b => some b
  | .void => none

def toText? : Const → Option Text
  | .atom t => some t
  | .long n => some (Text.ofInt n.toInt)
  | .short n => some (Text.ofInt n.toInt)
  | .real x => some x.render
  | .bool b => some (if b then "true" else "false")
  | .void => none

/-- The source text that can stand for the constant.  Infinity and `nan` have none. -/
def literal? : Const → Option Text
  | .real x => if x.isFinite then some x.render else none
  | c => c.toText?

/-- Whether the constant can be used as a number or a truth value. -/
def isNotText (c : Const) : Bool := c.toReal?.isSome || c.toBool?.isSome

/-! ## 3. Equality -/

/-- A truth value compared with a constant: numbers are compared with one and zero. -/
def boolEqual? (b : Bool) (c : Const) : Option Bool :=
  let byNumber := c.toReal?.map fun x => x.eq (if b then .one else .zero)
  match c with
  | .void => some false
  | .bool b' => some (b == b')
  | .atom t => ((Reading.bool? t).map (b == ·)).or byNumber
  | _ => byNumber

/-- A constant with a type of its own compared with another one, by that type. -/
def typedEqual? (a b : Const) : Option Bool :=
  if b = .void then some (a = .void)
  else match a with
    | .void => some false
    | .long n => b.toLong?.map (n == ·)
    | .short n => b.toShort?.map (n == ·)
    | .real x => b.toReal?.map x.eq
    | .bool p => boolEqual? p b
    | .atom _ => none

/-- Whether two constants are equal, if that can be decided at compile time.  Two words are
compared as texts; a word and a constant with a type are compared by that type. -/
def equal? : Const → Const → Option Bool
  | .atom s, .atom t => some (s == t)
  | .atom s, b => typedEqual? b (.atom s)
  | a, b => typedEqual? a b

end Const

end HaloScript
