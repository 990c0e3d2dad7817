/-
# Documents of YAML

A document that can hold settings is a mapping: entries one below the other, all keys at the
same column.  The value of a key is a scalar, a list in brackets, or a list with one item per
dash.  It stands behind the colon or further in on the lines below; dashes may also stand at the
column of the key.

A file may be opened by `---`.  Only its first document counts, which ends at the next mark or
where the indentation falls back behind the keys.
-/
import HaloScript.Settings.Yaml.Scalar

namespace HaloScript

namespace Yaml

/-- A value of a setting. -/
inductive Value where
  | scalar (s : Scalar)
  | list (items : List Scalar)
deriving DecidableEq, Inhabited

def Scalar.isNull (s : Scalar) : Bool :=
  let words : List Text := [[], "~", "null", "Null", "NULL"]
  !s.quoted && words.contains s.text

/-! ## 1. Lists -/

/-- The items of a list up to its closing bracket and the place behind it, with at most `fuel`
items.  A comma may stand behind the last item. -/
def takeItems (indent : Nat) : Nat → Cursor → Option (List Scalar × Cursor)
  | 0, _ => none
  | fuel + 1, c =>
    let c := c.seek true
    if c.atEnd then none
    else match c.rest with
      | .byte 0x5d :: _ => some ([], c.past 1)
      | _ =>
        match takeScalar true indent c with
        | none => none
        | some (s, after) =>
          let after := after.seek true
          match after.rest with
          | .byte 0x2c :: _ => (takeItems indent fuel (after.past 1)).map fun r => (s :: r.1, r.2)
          | .byte 0x5d :: _ => some ([s], after.past 1)
          | _ => none

/-- The scalar or list in brackets at a place, and the place behind it. -/
def takeInner (indent : Nat) (c : Cursor) : Option (Value × Cursor) :=
  match c.rest with
  | .byte 0x5b :: rest =>
    (takeItems indent (rest.length + 1) (c.past 1)).map fun r => (.list r.1, r.2)
  | _ => (takeScalar false indent c).map fun r => (.scalar r.1, r.2)

/-- Whether a dash that opens an item stands here. -/
def atDash (c : Cursor) : Bool :=
  match c.rest with
  | .byte 0x2d :: rest => c.fresh && !c.atEnd && endsWord rest
  | _ => false

/-- The item behind a dash and the next place that is not blank; an item may be left out. -/
def takeItem (dash : Cursor) : Option (Scalar × Cursor) :=
  let c := Cursor.seek false { dash.past 1 with fresh := true }
  if c.atEnd || c.column ≤ dash.column then some (.missing, c)
  else (takeScalar false (dash.column + 1) c).map fun r => (r.1, r.2.seek false)

/-- The items behind dashes at the column of the first one, and the place behind them, with at
most `fuel` items. -/
def takeDashes : Nat → Cursor → Option (List Scalar × Cursor)
  | 0, _ => none
  | fuel + 1, dash =>
    match takeItem dash with
    | none => none
    | some (s, c) =>
      if atDash c && c.column == dash.column then
        (takeDashes fuel c).map fun r => (s :: r.1, r.2)
      else some ([s], c)

/-! ## 2. Entries -/

/-- An entry of a mapping. -/
structure Entry where
  key : Scalar
  value : Value
deriving DecidableEq, Inhabited

/-- The key at a place and the place behind its colon, which has to stand on the same line. -/
def takeKey (c : Cursor) : Option (Scalar × Cursor) :=
  match takeScalar false (c.column + 1) c with
  | none => none
  | some (key, after) =>
    let after := after.seek false
    match after.rest with
    | .byte 0x3a :: rest =>
      if after.line == c.line && endsWord rest then some (key, after.past 1) else none
    | _ => none

/-- The value of a key at a column, and the next place that is not blank.  `c` is the place
behind the colon. -/
def takeValue (column : Nat) (c : Cursor) : Option (Value × Cursor) :=
  let place := c.seek false
  let inner := (takeInner (column + 1) place).map fun r => (r.1, r.2.seek false)
  if place.atEnd then some (.scalar .missing, place)
  else if place.line == c.line then inner
  else if atDash place && column ≤ place.column then
    match takeDashes (place.rest.length + 1) place with
    | some (items, after) =>
      -- Dashes further in than the key end where the indentation falls back.
      if after.atEnd || after.column < place.column || column == place.column then
        some (.list items, after)
      else none
    | none => none
  else if column < place.column then inner
  else some (.scalar .missing, place)

/-- Whether something other than a key of this document can start here. -/
def startsToken (c : Cursor) : Bool :=
  match c.rest with
  | .byte b :: _ =>
    (",[]\x7b\x7d-?:" : Text).contains b || (takeScalar false (c.column + 1) c).isSome
  | [] | .lineEnd _ :: _ => false

/-- Whether the document ends here, at its end or where the indentation falls back behind a
column. -/
def endsDocument (column : Nat) (c : Cursor) : Bool :=
  c.atEnd || (c.fresh && c.column < column && startsToken c)

/-- The entries of the mapping whose keys stand at a column, with at most `fuel` entries.  `c` is
the place of a key. -/
def takeEntries (column : Nat) : Nat → Cursor → Option (List Entry)
  | 0, _ => none
  | fuel + 1, c =>
    match takeKey c with
    | none => none
    | some (key, after) =>
      match takeValue column after with
      | none => none
      | some (value, next) =>
        if endsDocument column next then some [⟨key, value⟩]
        else if next.fresh && next.column == column then
          (takeEntries column fuel next).map (⟨key, value⟩ :: ·)
        else none

/-! ## 3. Documents -/

/-- Whether the document at a place holds nothing but a scalar that stands for nothing. -/
def isNothing (c : Cursor) : Bool :=
  match takeScalar false 0 c with
  | some (s, after) =>
    let after := after.seek false
    !c.atEnd && s.isNull && (after.atEnd || (after.fresh && startsToken after))
  | none => false

def dropEncodingMark : Text → Text
  | 0xef :: 0xbb :: 0xbf :: rest => rest
  | t => t

/-- Whether a text consists of characters that may stand in a document. -/
def isReadable (t : Text) : Bool :=
  t.pieces.all fun p => match p with
    | .char c => isAllowed c.toNat
    | .broken _ => false

/-- The entries of the first document of a text; none if it is no mapping. -/
def document? (t : Text) : Option (List Entry) :=
  let t := dropEncodingMark t
  let start := Cursor.seek false { rest := signs t }
  let opened := start.column == 0 && isMark Text.minus start.rest
  let c := if opened then (start.past 3).seek false else start
  if !isReadable t then none
  else if c.rest.isEmpty || (opened && c.atEnd) || isNothing c then some []
  else if c.fresh then takeEntries c.column (c.rest.length + 1) c
  else none

end Yaml

end HaloScript
