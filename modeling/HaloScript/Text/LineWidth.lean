/-
# Width of a printed line

How many cells a terminal moves on when a line is printed.  Escape sequences and controls take
none, and a cluster of characters is as wide as its parts together.  Emoji are the exception:
a flag or a Hangul syllable has the width of its first part, and a pictograph is made wide or
narrow by the variation selector behind it.

This is not the measure by which carets are set (`Text.cellWidth`): that one does not know
escape sequences, and takes a cluster to be as wide as its first part that can be seen.
-/
import HaloScript.Text.CellWidth

namespace HaloScript

/-! ## 1. Escape sequences -/

/-- What a terminal is in the middle of. -/
inductive EscapeState where
  | ground
  | escape
  /-- An escape sequence after its first intermediate byte. -/
  | escapeMore
  /-- A control sequence. -/
  | control
  /-- A control sequence after its first intermediate byte. -/
  | controlMore
  /-- The start of a device control string. -/
  | device
  /-- The parameters of a device control string. -/
  | deviceParam
  /-- A device control string after its first intermediate byte. -/
  | deviceMore
  /-- The body of a device control string. -/
  | deviceBody
  /-- An operating system command. -/
  | command
  /-- A string that is meant for nobody. -/
  | message
deriving DecidableEq, Inhabited

namespace EscapeState

/-- Bytes that stand for controls, except those that break off a sequence. -/
def isControl (b : UInt8) : Bool := b ≤ 0x17 || b == 0x19 || (0x1c ≤ b && b ≤ 0x1f)

/-- The state after a byte that means the same everywhere; none if it does not.  A byte that
starts a character of several bytes ends what came before it. -/
def anywhere? (b : UInt8) : Option EscapeState :=
  if b == 0x18 || b == 0x1a then some .ground
  else if b == 0x1b then some .escape
  else if b < 0x80 then none
  else if b == 0x90 then some .device
  else if b == 0x9b then some .control
  else if b == 0x9d then some .command
  else if b == 0x98 || b == 0x9e || b == 0x9f then some .message
  else some .ground

/-- The state after a byte of ASCII that is neither a control nor the delete character. -/
def onVisible (s : EscapeState) (b : UInt8) : EscapeState :=
  let intermediate := b ≤ 0x2f
  let parameter := 0x30 ≤ b && b ≤ 0x3f
  match s with
  | .ground => .ground
  | .escape =>
    if intermediate then .escapeMore
    else if b == 0x50 then .device
    else if b == 0x5b then .control
    else if b == 0x5d then .command
    else if b == 0x58 || b == 0x5e || b == 0x5f then .message
    else .ground
  | .escapeMore => if intermediate then .escapeMore else .ground
  | .control => if intermediate then .controlMore else if parameter then .control else .ground
  | .controlMore => if intermediate then .controlMore else .ground
  | .device | .deviceParam =>
    if intermediate then .deviceMore else if parameter then .deviceParam else .deviceBody
  | .deviceMore => if intermediate then .deviceMore else .deviceBody
  | .deviceBody => .deviceBody
  | .command => .command
  | .message => .message

def next (s : EscapeState) (b : UInt8) : EscapeState :=
  let usual := (anywhere? b).getD (if isControl b || b == 0x7f then s else s.onVisible b)
  match s with
  | .device => if (0x08 ≤ b && b ≤ 0x0d) || b == 0x1b then .deviceBody else usual
  | .deviceBody => if 0x80 ≤ b && b != 0x9c then .deviceBody else usual
  | .command => if b == 0x07 then .ground else if 0x80 ≤ b && b != 0x9c then .command else usual
  | _ => usual

/-- Whether a byte starts a character of several bytes that is shown. -/
def showsCharacter (s : EscapeState) (b : UInt8) : Bool :=
  0xc2 ≤ b && b ≤ 0xf4 && s != .deviceBody && s != .command

def showsByte (s : EscapeState) (b : UInt8) : Bool := s == .ground && 0x20 ≤ b && b ≤ 0x7e

end EscapeState

/-! ## 2. Clusters -/

namespace Text

/-- Wide pictographs that are drawn as text unless they are asked to be emoji. -/
def textPictographs : List Nat :=
  [0x3030, 0x303d, 0x3297, 0x3299, 0x1f202, 0x1f237, 0x1f260, 0x1f261, 0x1f262, 0x1f263, 0x1f264,
    0x1f265]

/-- The cells of one code point on its own.  The long dashes take more than two. -/
def partWidth (n : Nat) : Nat :=
  match GraphemeClass.ofCode n with
  | .control | .carriageReturn | .lineFeed | .extend | .joiner => 0
  | .regional => 2
  | .pictographic => if inRuns wideRuns n && !textPictographs.contains n then 2 else 1
  | _ =>
    if n == 0x2e3a then 3
    else if n == 0x2e3b then 4
    else if inRuns wideRuns n then 2
    else 1

/-- The cells of the parts of a cluster that follow its first, `width` being those so far. -/
def clusterTailWidth (first : GraphemeClass) (width : Nat) : List Nat → Nat
  | [] => width
  | n :: rest =>
    let width := match first with
      | .pictographic => if n == 0xfe0e then 1 else if n == 0xfe0f then 2 else width
      | .regional | .hangulL => width
      | _ => width + partWidth n
    clusterTailWidth first width rest

def firstCluster (t : Text) : Nat × Nat :=
  let ps := pieces t
  match clusters (ps.map Piece.code) with
  | [] | [] :: _ => (0, 0)
  | (n :: rest) :: _ =>
    ((ofPieces (ps.take (rest.length + 1))).length,
      clusterTailWidth (GraphemeClass.ofCode n) (partWidth n) rest)

/-- The cells of what follows in a line, after `skip` bytes that are accounted for. -/
def lineWidthFrom : EscapeState → Nat → Text → Nat
  | _, _, [] => 0
  | s, skip + 1, _ :: rest => lineWidthFrom s skip rest
  | s, 0, b :: rest =>
    if s.showsCharacter b then
      let (size, width) := firstCluster (b :: rest)
      width + lineWidthFrom .ground (size - 1) rest
    else (if s.showsByte b then 1 else 0) + lineWidthFrom (s.next b) 0 rest

def lineWidth (t : Text) : Nat := lineWidthFrom .ground 0 t

end Text

end HaloScript
