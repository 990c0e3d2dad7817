/-
# Log lines

What a compilation logs on request: a message and named values, on one line each.  A value is
quoted if it could not be told apart from what surrounds it otherwise.
-/
import HaloScript.Text.Quoted

namespace HaloScript

/-- One line of a log. -/
structure LogEntry where
  message : Text
  attributes : List (Text × Text)
deriving DecidableEq, Inhabited

namespace LogEntry

/-- Whether a piece of text forces quotes around a value. -/
def needsQuotes : Piece → Bool
  | .broken _ => true
  | .char c =>
    if c.toNat < 0x80 then c.toNat < 0x20 || c == ' ' || c == '=' || c == '"'
    else c.toNat == 0xfffd || Text.isSpaceCode c.toNat || !Text.isPrintable c.toNat

def renderValue (t : Text) : Text :=
  if t.isEmpty || t.pieces.any needsQuotes then t.quote else t

def render (e : LogEntry) : Text :=
  "level=DEBUG msg=" ++ renderValue e.message ++
    e.attributes.flatMap fun a => Text.space :: renderValue a.1 ++ Text.equals :: renderValue a.2

def tagged (e : LogEntry) (key value : Text) : LogEntry :=
  { e with attributes := (key, value) :: e.attributes }

end LogEntry

end HaloScript
