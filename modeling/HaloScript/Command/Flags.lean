/-
# Flags

Arguments that start with a dash are flags, one dash or two.  Truth values are set by naming the
flag, other values follow it or an equals sign.  Flags end at the first argument that is none,
or at two dashes alone.  Every command also has `-h` and `-help`.
-/
import HaloScript.Text.Numeral
import HaloScript.Text.Quoted

namespace HaloScript

/-- What a flag can be set to. -/
inductive FlagValue where
  | truth (b : Bool)
  | number (n : Int64)
  | text (t : Text)
deriving DecidableEq, Inhabited

/-- A flag that a command knows, with the value it has if it is not given. -/
structure Flag where
  name : Text
  value : FlagValue
  description : Text
deriving DecidableEq, Inhabited

/-- Why arguments are refused. -/
inductive FlagFault where
  /-- Help was asked for. -/
  | help
  | badForm (argument : Text)
  | unknown (name : Text)
  | needsArgument (name : Text)
  | notTruth (value name : Text)
  | notNumber (value name : Text) (fault : NumeralFault)
deriving DecidableEq, Inhabited

def FlagFault.message : FlagFault → Text
  | .help => "flag: help requested"
  | .badForm argument => "bad flag syntax: " ++ argument
  | .unknown name => "flag provided but not defined: -" ++ name
  | .needsArgument name => "flag needs an argument: -" ++ name
  | .notTruth value name =>
    "invalid boolean value " ++ value.quote ++ " for -" ++ name ++ ": parse error"
  | .notNumber value name fault =>
    "invalid value " ++ value.quote ++ " for flag -" ++ name ++
      (match fault with
        | .malformed => ": parse error"
        | .outOfRange => ": value out of range")

namespace Flag

def truth? (t : Text) : Option Bool :=
  let yes : List Text := ["1", "t", "T", "TRUE", "true", "True"]
  let no : List Text := ["0", "f", "F", "FALSE", "false", "False"]
  if yes.contains t then some true else if no.contains t then some false else none

def set (f : Flag) (value : Text) : Except FlagFault Flag :=
  match f.value with
  | .truth _ =>
    match truth? value with
    | some b => .ok { f with value := .truth b }
    | none => .error (.notTruth value f.name)
  | .number _ =>
    match Numeral.long value with
    | .ok n => .ok { f with value := .number n }
    | .error fault => .error (.notNumber value f.name fault)
  | .text _ => .ok { f with value := .text value }

def argument : Flag → Option Text
  | ⟨_, .truth _, _⟩ => none
  | ⟨_, .number _, _⟩ => some "int"
  | ⟨_, .text _, _⟩ => some "string"

def usage (f : Flag) : Text :=
  let head : Text := "  -" ++ f.name ++
    (match f.argument with
      | some kind => Text.space :: kind
      | none => [])
  head ++ (if head.length ≤ 4 then "\t" else "\n    \t") ++ f.description ++
    (match f.value with
      | .text t => if t.isEmpty then [] else " (default " ++ t.quote ++ ")"
      | .number n => if n = 0 then [] else " (default " ++ Text.ofInt n.toInt ++ ")"
      | .truth b => if b then " (default true)" else []) ++ "\n"

end Flag

abbrev Flags := List Flag

namespace Flags

def find? (fs : Flags) (name : Text) : Option Flag := List.find? (·.name == name) fs

def update (fs : Flags) (f : Flag) : Flags := fs.map fun g => if g.name == f.name then f else g

def isSet (fs : Flags) (name : Text) : Bool :=
  fs.any fun f => f.name == name && f.value == .truth true

def number (fs : Flags) (name : Text) : Int64 :=
  match fs.find? name with
  | some ⟨_, .number n, _⟩ => n
  | _ => 0

def text (fs : Flags) (name : Text) : Text :=
  match fs.find? name with
  | some ⟨_, .text t, _⟩ => t
  | _ => []

/-- The name in a flag, and the value behind an equals sign.  The first byte of a name is never
taken for the sign. -/
def splitName : Text → Text × Option Text
  | [] => ([], none)
  | b :: rest =>
    let (name, value) := Text.cut Text.equals rest
    (b :: name, value)

/-- What an argument is. -/
inductive Argument where
  /-- Not a flag: flags end in front of it. -/
  | operand
  /-- Two dashes alone: flags end behind it. -/
  | terminator
  | flag (name : Text) (value : Option Text)
  | badForm

def classify (t : Text) : Argument :=
  match t with
  | Text.minus :: Text.minus :: [] => .terminator
  | Text.minus :: b :: rest =>
    let name := if b == Text.minus then rest else b :: rest
    match name with
    | [] => .badForm
    | c :: _ =>
      if c == Text.minus || c == Text.equals then .badForm
      else .flag (splitName name).1 (splitName name).2
  | _ => .operand

def parse (fs : Flags) (args : List Text) : Except FlagFault (Flags × List Text) :=
  match args with
  | [] => .ok (fs, [])
  | arg :: rest =>
    match classify arg with
    | .operand => .ok (fs, arg :: rest)
    | .terminator => .ok (fs, rest)
    | .badForm => .error (.badForm arg)
    | .flag name value =>
      match fs.find? name with
      | none =>
        if name == ("help" : Text) || name == ("h" : Text) then .error .help
        else .error (.unknown name)
      | some f =>
        match f.argument, value, rest with
        | none, value, rest => do
          let f ← f.set (value.getD "true")
          parse (fs.update f) rest
        | some _, some value, rest => do
          let f ← f.set value
          parse (fs.update f) rest
        | some _, none, value :: rest => do
          let f ← f.set value
          parse (fs.update f) rest
        | some _, none, [] => .error (.needsArgument name)
termination_by args.length

def usage (fs : Flags) : Text := fs.flatMap Flag.usage

end Flags

end HaloScript
