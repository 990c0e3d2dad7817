/-
# Messages

What the compiler has to say about a program: errors, warnings and notes, in the order in
which they arose.  A `Report` only grows.
-/
import HaloScript.Source.Fault

namespace HaloScript

/-- How serious a message is.  A level outside the three known ones keeps its number. -/
inductive Level where
  | error
  | warning
  | info
  | other (code : Int)
deriving DecidableEq, Inhabited

namespace Level

def ofCode : Int → Level
  | 0 => .error
  | 1 => .warning
  | 2 => .info
  | n => .other n

def name : Level → Text
  | .error => "error"
  | .warning => "warning"
  | .info => "info"
  | .other n => "level(" ++ Text.ofInt n ++ ")"

end Level

/-- One message. -/
structure Message where
  level : Level
  content : Text
  /-- Where the problem is, if it has a place. -/
  span : Option Span := none
  /-- The message is about a part of the program, which may have been made by the compiler. -/
  aboutNode : Bool := false
deriving DecidableEq, Inhabited

/-- The messages of one compilation, in order. -/
structure Report where
  messages : Array Message := #[]
deriving Inhabited

namespace Report

def add (r : Report) (m : Message) : Report := ⟨r.messages.push m⟩

def tell (r : Report) (level : Level) (content : Text) : Report := r.add { level, content }

def tellAt (r : Report) (level : Level) (span : Span) (content : Text) : Report :=
  r.add { level, content, span := some span }

def tellNode (r : Report) (level : Level) (span : Option Span) (content : Text) : Report :=
  r.add { level, content, span, aboutNode := true }

def capitalized : Text → Text
  | [] => []
  | b :: rest => (if 0x61 ≤ b && b ≤ 0x7a then b - 0x20 else b) :: rest

/-- A source error, as an error message. -/
def tellError (r : Report) (e : SourceError) : Report :=
  r.tellAt .error e.span (capitalized e.kind.name ++ ": " ++ e.message)

def count (r : Report) (level : Level) : Nat := r.messages.countP (·.level == level)

def hasErrors (r : Report) : Bool := r.messages.any (·.level == .error)

def append (r s : Report) : Report := ⟨r.messages ++ s.messages⟩

def summary (r : Report) : Text :=
  Text.ofNat (r.count .error) ++ " error(s), " ++ Text.ofNat (r.count .warning) ++
    " warning(s), " ++ Text.ofNat (r.count .info) ++ " message(s)\n"

end Report

end HaloScript
