/-
# Name patterns

`*` stands for any bytes, `?` for one character, and brackets for one character out of some
ranges.  A backslash takes away the meaning of what follows it.  A pattern with slashes is
matched directory by directory.
-/
import HaloScript.Files.Disk

namespace HaloScript

/-- A part of a name pattern. -/
inductive GlobPart where
  | star
  | any
  /-- A character in one of the ranges, or in none of them. -/
  | oneOf (negated : Bool) (ranges : List (Nat × Nat))
  | byte (b : UInt8)
deriving DecidableEq, Inhabited

namespace Glob

/-- The code point at the start of a text and how many bytes it takes. -/
def front (t : Text) : Option (Nat × Nat) :=
  match t with
  | [] => none
  | b :: rest =>
    match Text.frontChar b rest with
    | some (c, more) => some (c.toNat, more + 1)
    | none => some (0xfffd, 1)

/-- One end of a range and what follows it; something has to follow. -/
def rangeEnd? (t : Text) : Option (Nat × Text) :=
  let body := match t with
    | [] => none
    | b :: rest =>
      if b == Text.minus || b == 0x5d then none
      else if b == Text.backslash then some rest
      else some t
  match body.bind fun t => (front t).map fun f => (f, t) with
  | none => none
  | some ((code, size), t) =>
    if code == 0xfffd && size == 1 then none
    else if t.length ≤ size then none
    else some (code, t.drop size)

def range? (t : Text) : Option ((Nat × Nat) × Text) :=
  match rangeEnd? t with
  | none => none
  | some (low, Text.minus :: rest) => (rangeEnd? rest).map fun r => ((low, r.1), r.2)
  | some (low, rest) => some ((low, low), rest)

/-- The ranges up to the closing bracket and what follows it, with at most `fuel` ranges. -/
def ranges? : Nat → Text → Option (List (Nat × Nat) × Text)
  | 0, _ => none
  | fuel + 1, t =>
    match range? t with
    | none => none
    | some (r, 0x5d :: rest) => some ([r], rest)
    | some (r, rest) => (ranges? fuel rest).map fun rs => (r :: rs.1, rs.2)

/-- The parts of a pattern, with at most `fuel` of them; none if the pattern is malformed. -/
def parts? : Nat → Text → Option (List GlobPart)
  | _, [] => some []
  | 0, _ :: _ => none
  | fuel + 1, b :: rest =>
    if b == 0x2a then (parts? fuel rest).map (.star :: ·)
    else if b == 0x3f then (parts? fuel rest).map (.any :: ·)
    else if b == 0x5b then
      let (negated, body) := match rest with
        | 0x5e :: body => (true, body)
        | body => (false, body)
      match ranges? (body.length + 1) body with
      | none => none
      | some (ranges, after) => (parts? fuel after).map (.oneOf negated ranges :: ·)
    else if b == Text.backslash then
      match rest with
      | [] => none
      | c :: rest => (parts? fuel rest).map (.byte c :: ·)
    else (parts? fuel rest).map (.byte b :: ·)

def fits : List GlobPart → Text → Bool
  | [], t => t.isEmpty
  | .star :: ps, t =>
    fits ps t || match t with
      | [] => false
      | _ :: rest => fits (.star :: ps) rest
  | .any :: ps, t =>
    match front t with
    | none => false
    | some (_, size) => fits ps (t.drop size)
  | .oneOf negated ranges :: ps, t =>
    match front t with
    | none => false
    | some (code, size) =>
      (ranges.any fun r => r.1 ≤ code && code ≤ r.2) != negated && fits ps (t.drop size)
  | .byte b :: ps, t =>
    match t with
    | [] => false
    | c :: rest => c == b && fits ps rest
termination_by ps t => (ps.length, t.length)

end Glob

namespace Disk

/-- The paths below a directory that fit patterns, one for each element of the path. -/
def glob (d : Disk) (root : Text) : List (List GlobPart) → Text → List Text
  | [], path => [path]
  | p :: ps, path =>
    ((d.list (Path.join [root, path])).filter fun e => Glob.fits p e.1).flatMap fun e =>
      d.glob root ps (Path.join [path, e.1])

/-- The files below a directory that fit a pattern; none if the pattern is malformed. -/
def filesLike? (d : Disk) (root pattern : Text) : Option (List Text) :=
  ((pattern.splitOn Text.slash).mapM fun p => Glob.parts? p.length p).map fun patterns =>
    (d.glob root patterns []).filter fun p => d.find? (Path.join [root, p]) matches some (.file _)

end Disk

end HaloScript
