/-
# Similar names

Which known name was probably meant by an unknown one.  A known name qualifies if the unknown
one can be got from it by leaving characters out, capitals counting as small letters.  Of those
the one with the smallest edit distance is suggested, the earlier one on a tie.
-/
import HaloScript.Text.Chars

namespace HaloScript

namespace Text

/-- A code point in its small form, as far as that can be an ASCII letter. -/
def lowerCode (n : Nat) : Nat :=
  if 0x41 ≤ n && n ≤ 0x5a then n + 0x20
  else if n == 0x130 then 0x69
  else if n == 0x212a then 0x6b
  else n

def lowerCodes (t : Text) : List Nat := t.pieces.map (lowerCode ·.code)

def codesSize (codes : List Nat) : Nat :=
  codes.foldr (fun code n => (Char.ofNat code).utf8Size + n) 0

/-- One row of the table of edit distances from the row before it. -/
def distanceRow (a : Nat) (target : List Nat) (above : List Nat) (first : Nat) : List Nat :=
  match target, above with
  | b :: target, diagonal :: top :: above =>
    let here := min (min (top + 1) (first + 1)) (if a = b then diagonal else diagonal + 1)
    first :: distanceRow a target (top :: above) here
  | _, _ => [first]

/-- The least number of insertions, deletions and exchanges that turn one row of code points
into the other. -/
def editDistance (source target : List Nat) : Nat :=
  let row := fun (acc : List Nat) (a : Nat) => distanceRow a target acc (acc.headD 0 + 1)
  (source.foldl row (List.range (target.length + 1))).getLastD 0

def qualifies (name known : Text) : Bool :=
  let source := lowerCodes name
  let target := lowerCodes known
  codesSize source ≤ codesSize target && source.isSublist target

/-- The first entry with the least distance. -/
def nearest : List (Nat × Text) → Option (Nat × Text)
  | [] => none
  | (d, t) :: rest =>
    match nearest rest with
    | none => some (d, t)
    | some (d', t') => if d ≤ d' then some (d, t) else some (d', t')

/-- The known name that was probably meant. -/
def suggestion? (name : Text) (known : List Text) : Option Text :=
  let codes := fun t : Text => t.pieces.map Piece.code
  let ranked := (known.filter (qualifies name)).map fun t =>
    (editDistance (codes name) (codes t), t)
  (nearest ranked).map Prod.snd

end Text

end HaloScript
