/-
# Settings in YAML

The entries of a document as settings.  What a plain scalar means depends on the setting: the
same word may be read as a text, a number or a truth value.  A value that is left out keeps the
usual one.
-/
import HaloScript.Double
import HaloScript.Settings.Basic
import HaloScript.Settings.Yaml.Document
import HaloScript.Text.Numeral

namespace HaloScript

namespace Yaml

/-! ## 1. Scalars as numbers and truth values -/

/-- A whole number as a long.  A number below the range becomes the least long; so does the first
number above the range, which a double cannot tell from the largest long. -/
def clamped? (n : Int) : Option Int64 :=
  if Int64.maxValue.toInt + 1 < n then none
  else if n < Int64.minValue.toInt || Int64.maxValue.toInt < n then some Int64.minValue
  else some (Int64.ofInt n)

/-- A number with a fraction or an exponent: a double whose fraction is cut off. -/
def truncated? (t : Text) : Option Int64 :=
  ((Decimal.read? t).bind Decimal.wholePart?).bind clamped?

/-- A numeral of base two or eight whose sign stands behind the mark of the base. -/
def signInside? (t : Text) : Option Int64 :=
  let long := fun (base : Nat) (t : Text) =>
    let (negative, digits) := Numeral.splitSign t
    match digits, Numeral.ofDigits base 0 digits with
    | _ :: _, .ok n => clamped? (if negative then -(n : Int) else n)
    | _, _ => none
  match t with
  | 0x30 :: 0x62 :: rest => long 2 rest
  | 0x30 :: 0x6f :: rest => long 8 rest
  | _ => none

/-- A scalar as a number.  Only a plain scalar can be one, and underscores in it do not count
unless it starts with a point. -/
def Scalar.number? (s : Scalar) : Option Int64 :=
  let digits := s.text.filter (· != Text.underscore)
  let bottom : List Text := ["-.inf", "-.Inf", "-.INF"]
  if s.quoted then none
  else if bottom.contains s.text then some Int64.minValue
  else match s.text with
    | [] => none
    | b :: _ =>
      if b == Text.dot then truncated? s.text
      else if Text.isDigit b || b == Text.plus || b == Text.minus then
        match Numeral.long digits with
        | .ok n => some n
        | .error fault =>
          if fault == .outOfRange && Text.isDigit b then none
          else (truncated? digits).or (signInside? digits)
      else none

/-- A scalar as a truth value.  Of the words for it only `true` and `false` lose their meaning
in quotes. -/
def Scalar.truth? (s : Scalar) : Option Bool :=
  let plainTrue : List Text := ["true", "True", "TRUE"]
  let plainFalse : List Text := ["false", "False", "FALSE"]
  let anyTrue : List Text := ["y", "Y", "yes", "Yes", "YES", "on", "On", "ON"]
  let anyFalse : List Text := ["n", "N", "no", "No", "NO", "off", "Off", "OFF"]
  if anyTrue.contains s.text || (!s.quoted && plainTrue.contains s.text) then some true
  else if anyFalse.contains s.text || (!s.quoted && plainFalse.contains s.text) then some false
  else none

/-! ## 2. Settings -/

def set? (s : Settings) (key : Text) (value : Value) : Option Settings :=
  let texts : List Text := ["source_dir", "output_dir", "extension", "color"]
  let others : List Text := ["jobs", "max_expansions", "pretty"]
  match value with
  | .list items =>
    if key == ("passes" : Text) then
      some { s with passes := (items.filter (!·.isNull)).map Scalar.text }
    else none
  | .scalar v =>
    if key == ("passes" : Text) then if v.isNull then some { s with passes := [] } else none
    else if v.isNull then if texts.contains key || others.contains key then some s else none
    else if key == ("source_dir" : Text) then some { s with sourceDir := v.text }
    else if key == ("output_dir" : Text) then some { s with outputDir := v.text }
    else if key == ("extension" : Text) then some { s with extension := v.text }
    else if key == ("color" : Text) then some { s with color := v.text }
    else if key == ("jobs" : Text) then v.number?.map fun n => { s with jobs := n }
    else if key == ("max_expansions" : Text) then
      v.number?.map fun n => { s with maxExpansions := n }
    else if key == ("pretty" : Text) then v.truth?.map fun b => { s with pretty := b }
    else none

/-- Applies one entry.  A key that stands for nothing sets nothing, and neither does `<<` with
no mappings to take entries from. -/
def applied? (s : Settings) (e : Entry) : Option Settings :=
  let merges := e.key == ⟨"<<", false⟩ && e.value == .list []
  if e.key.isNull || merges then some s else set? s e.key.text e.value

/-- The settings of a file; what it leaves out keeps its usual value.  No key may be given
twice. -/
def settings? (t : Text) : Option Settings := do
  let entries ← document? t
  let keys := entries.map (·.key.text)
  if keys.eraseDups.length != keys.length then failure
  entries.foldlM applied? {}

end Yaml

end HaloScript
