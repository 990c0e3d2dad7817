/-
# Built-in functions

What the built-in functions make of their arguments at compile time.  The arguments come as
computations, so that an argument that does not matter is not evaluated: a branch not taken, or
what follows a deciding truth value.  A function without a constant result gives `none`.

The functions work in any monad; they only decide which arguments run, and in which order.
-/
import HaloScript.Constant.Basic

namespace HaloScript

/-- The functions that can have a value at compile time. -/
inductive Builtin where
  | ifThen
  | and
  | or
  | begin
  | sum
  | product
  | least
  | greatest
  | difference
  | quotient
  | greater
  | less
  | atLeast
  | atMost
  | equal
  | unequal
deriving DecidableEq, Inhabited

namespace Builtin

def byName : List (Text × Builtin) :=
  [("if", .ifThen), ("and", .and), ("or", .or), ("begin", .begin), ("+", .sum), ("*", .product),
   ("min", .least), ("max", .greatest), ("-", .difference), ("/", .quotient), (">", .greater),
   ("<", .less), (">=", .atLeast), ("<=", .atMost), ("=", .equal), ("!=", .unequal)]

def ofName? (name : Text) : Option Builtin := byName.lookup name

section

variable {m : Type → Type} [Monad m]

abbrev Arg (m : Type → Type) := m (Option Const)

def asBool (arg : Arg m) : m (Option Bool) := do return (← arg).bind Const.toBool?

def asReal (arg : Arg m) : m (Option Single) := do return (← arg).bind Const.toReal?

/-- `(if condition then else)`.  A false condition without an `else` has no value. -/
def evalIf : List (Arg m) → Arg m
  | condition :: yes :: rest => do
    match ← asBool condition with
    | none => return none
    | some true => yes
    | some false =>
      match rest with
      | no :: _ => no
      | [] => return none
  | _ => return none

/-- Arguments in turn, up to the first that is `decisive`. -/
def evalLogicFrom (decisive : Bool) : List (Arg m) → Arg m
  | [] => return some (.bool !decisive)
  | arg :: rest => do
    match ← asBool arg with
    | none => return none
    | some b => if b == decisive then return some (.bool decisive) else evalLogicFrom decisive rest

/-- `and` and `or`; without arguments they have no value. -/
def evalLogic (decisive : Bool) : List (Arg m) → Arg m
  | [] => return none
  | args => evalLogicFrom decisive args

/-- The value of the last argument, if all have one. -/
def evalBegin : List (Arg m) → Arg m
  | [] => return none
  | [arg] => arg
  | arg :: rest => do
    match ← arg with
    | none => return none
    | some _ => evalBegin rest

/-- The arguments as reals, folded into an initial value. -/
def evalFoldFrom (op : Single → Single → Single) (acc : Single) : List (Arg m) → Arg m
  | [] => return some (.real acc)
  | arg :: rest => do
    match ← asReal arg with
    | none => return none
    | some x => evalFoldFrom op (op acc x) rest

/-- Sums and products; without arguments they have no value. -/
def evalFold (op : Single → Single → Single) (initial : Single) : List (Arg m) → Arg m
  | [] => return none
  | args => evalFoldFrom op initial args

def evalExtreme (pick : Single → Single → Single) : List (Arg m) → Arg m
  | [] => return none
  | arg :: rest => do
    match ← asReal arg with
    | none => return none
    | some x => evalFoldFrom pick x rest

def evalPair (op : Single → Single → Const) : List (Arg m) → Arg m
  | [left, right] => do
    match ← asReal left with
    | none => return none
    | some x =>
      match ← asReal right with
      | none => return none
      | some y => return some (op x y)
  | _ => return none

/-- Equality of exactly two arguments, or its contrary. -/
def evalEqual (negated : Bool) : List (Arg m) → Arg m
  | [left, right] => do
    match ← left with
    | none => return none
    | some a =>
      match ← right with
      | none => return none
      | some b => return (a.equal? b).map fun e => .bool (e != negated)
  | _ => return none

def apply : Builtin → List (Arg m) → Arg m
  | .ifThen => evalIf
  | .and => evalLogic false
  | .or => evalLogic true
  | .begin => evalBegin
  | .sum => evalFold Single.add .zero
  | .product => evalFold Single.mul .one
  | .least => evalExtreme Single.min
  | .greatest => evalExtreme Single.max
  | .difference => evalPair fun x y => .real (x.sub y)
  | .quotient => evalPair fun x y => .real (x.div y)
  | .greater => evalPair fun x y => .bool (y.lt x)
  | .less => evalPair fun x y => .bool (x.lt y)
  | .atLeast => evalPair fun x y => .bool (y.le x)
  | .atMost => evalPair fun x y => .bool (x.le y)
  | .equal => evalEqual false
  | .unequal => evalEqual true

end

end Builtin

end HaloScript
