/-
# Settings in TOML

The statements of a document as settings.  Keys are known regardless of case, but a key that is
written twice the same way is refused, and so is a key that is not known.

No setting is a table.  A header changes nothing as long as no entries follow it; only a list of
tables named for the steps leaves one step without a name for each of its headers.
-/
import HaloScript.Settings.Basic
import HaloScript.Settings.Toml.Document
import HaloScript.Text.Similar

namespace HaloScript

namespace Toml

def keys : List Text :=
  ["source_dir", "output_dir", "extension", "passes", "pretty", "jobs", "max_expansions", "color"]

/-- Whether a key is a name, capitals counting as small letters. -/
def isNamed (key name : Text) : Bool := key.lowerCodes == name.lowerCodes

def set? (s : Settings) (key : Text) (value : Value) : Option Settings :=
  let named := isNamed key
  match value with
  | .string t =>
    if named "source_dir" then some { s with sourceDir := t }
    else if named "output_dir" then some { s with outputDir := t }
    else if named "extension" then some { s with extension := t }
    else if named "color" then some { s with color := t }
    else none
  | .number n =>
    if named "jobs" then some { s with jobs := n }
    else if named "max_expansions" then some { s with maxExpansions := n }
    else none
  | .truth b => if named "pretty" then some { s with pretty := b } else none
  | .strings items => if named "passes" then some { s with passes := items } else none

/-- What is known after some statements. -/
structure ReadState where
  settings : Settings := {}
  /-- The keys given so far as entries or tables. -/
  given : List Text := []
  /-- The keys given so far as lists of tables. -/
  lists : List Text := []
  /-- A header has been read. -/
  opened : Bool := false
deriving Inhabited

def read? (r : ReadState) : Statement → Option ReadState
  | .entry key value =>
    if r.opened || r.given.contains key then none
    else (set? r.settings key value).map fun s => { r with settings := s, given := key :: r.given }
  | .table key =>
    -- A table that is named for the steps belongs to the last one of them.
    let homeless := isNamed key "passes" && r.settings.passes.isEmpty
    if !keys.any (isNamed key) || homeless || (r.given ++ r.lists).contains key then none
    else some { r with given := key :: r.given, opened := true }
  | .tables key =>
    let before := if r.lists.contains key then r.settings.passes else []
    if !isNamed key "passes" || r.given.contains key then none
    else some { r with
      settings := { r.settings with passes := before ++ [[]] }
      lists := key :: r.lists
      opened := true }

/-- The settings of a file; what it leaves out keeps its usual value. -/
def settings? (t : Text) : Option Settings :=
  ((document? t).bind fun statements => statements.foldlM read? {}).map ReadState.settings

end Toml

end HaloScript
