/-
# The plain text of a heading

Marks for emphasis and for code are left out of the text of a heading; everything else stays as
it is written, backslashes included.

Emphasis is marked by runs of `*` or `_`.  A run may open emphasis, close it or both, depending
on its neighbours.  Each run that may close is paired with the nearest run before it that may
open; a pair uses up two marks of each run if both have two, otherwise one.  Marks that are
never used up belong to the text.
-/
import HaloScript.Text.Punctuation

namespace HaloScript

namespace Inline

/-! ## 1. Runs of marks -/

/-- A run of marks. -/
structure Run where
  mark : UInt8
  /-- The marks not used up. -/
  left : Nat
  /-- The marks there were. -/
  size : Nat
  canOpen : Bool
  canClose : Bool
deriving DecidableEq, Inhabited

/-- A part of a heading. -/
inductive Part where
  | text (t : Text)
  | run (r : Run)
deriving DecidableEq, Inhabited

/-- The text of a part once no more marks will be used up. -/
def Part.plain : Part → Text
  | .text t => t
  | .run r => Text.repeated r.left r.mark

def Run.between (before : Nat) (mark : UInt8) (size : Nat) (after : Nat) : Run :=
  let left := !Text.isSpaceCode after &&
    (!Text.isPunctuationCode after || Text.isSpaceCode before || Text.isPunctuationCode before)
  let right := !Text.isSpaceCode before &&
    (!Text.isPunctuationCode before || Text.isSpaceCode after || Text.isPunctuationCode after)
  let inWord := mark == Text.underscore
  { mark, left := size, size
    canOpen := left && (!inWord || !right || Text.isPunctuationCode before)
    canClose := right && (!inWord || !left || Text.isPunctuationCode after) }

/-- How many marks a pair uses up; none if the two do not form a pair. -/
def used (opener closer : Run) : Nat :=
  if !opener.canOpen || opener.mark != closer.mark then 0
  else if (opener.canClose || closer.canOpen) && (opener.size + closer.size) % 3 == 0 &&
      closer.size % 3 != 0 then 0
  else if 2 ≤ opener.left && 2 ≤ closer.left then 2 else 1

/-- Pairs a run with the nearest one before it, and says how many marks that used up.  The
parts are given with the last one first; the runs in between belong to the text from then on. -/
def pair (closer : Run) : List Part → Option (Nat × List Part)
  | [] => none
  | .text t :: before => (pair closer before).map fun r => (r.1, .text t :: r.2)
  | .run opener :: before =>
    match used opener closer with
    | 0 => (pair closer before).map fun r => (r.1, .text (Part.run opener).plain :: r.2)
    | n =>
      let remains := opener.left - n
      some (n, if remains == 0 then before else .run { opener with left := remains } :: before)

/-- Pairs a run as often as its marks allow, at most `fuel` times. -/
def pairAll : Nat → Run → List Part → List Part
  | 0, closer, before => .run closer :: before
  | fuel + 1, closer, before =>
    if closer.left == 0 then before
    else match pair closer before with
      | none => .run closer :: before
      | some (n, before) => pairAll fuel { closer with left := closer.left - n } before

def resolve (parts : List Part) : List Part :=
  let step := fun (before : List Part) (p : Part) =>
    match p with
    | .run r => if r.canClose then pairAll (r.size + 1) r before else .run r :: before
    | .text t => .text t :: before
  (parts.foldl step []).reverse

/-! ## 2. Code -/

/-- Looks for the run of exactly `size` backticks that ends a piece of code, and gives the code
and what follows. -/
def codeEnd (size : Nat) : Nat → Text → Text → Option (Text × Text)
  | run, read, [] => if run == size then some ((read.drop run).reverse, []) else none
  | run, read, b :: rest =>
    if b == 0x60 then codeEnd size (run + 1) (b :: read) rest
    else if run == size then some ((read.drop run).reverse, b :: rest)
    else codeEnd size 0 (b :: read) rest

def isSpace (b : UInt8) : Bool := (0x09 ≤ b && b ≤ 0x0d) || b == Text.space

def isBlankOrEnd (b : UInt8) : Bool := b == Text.space || b == Text.newline

/-- The text of a piece of code: one blank at each end is dropped unless all of it is blank. -/
def codeText (t : Text) : Text :=
  if t.all isSpace then t
  else if t.head?.any isBlankOrEnd && t.getLast?.any isBlankOrEnd then (t.drop 1).dropLast
  else t

theorem codeEnd_length {size run : Nat} {read t code rest : Text}
    (h : codeEnd size run read t = some (code, rest)) : rest.length ≤ t.length := by
  induction t generalizing run read with
  | nil =>
    unfold codeEnd at h
    split at h
    · simp only [Option.some.injEq, Prod.mk.injEq] at h
      simp [← h.2]
    · exact absurd h (by simp)
  | cons b t ih =>
    unfold codeEnd at h
    split at h
    · exact Nat.le_succ_of_le (ih h)
    · split at h
      · simp only [Option.some.injEq, Prod.mk.injEq] at h
        simp [← h.2]
      · exact Nat.le_succ_of_le (ih h)

/-! ## 3. Parts of a heading -/

/-- The text of a line that ends here, without blanks at its end. -/
def lineEnd (word : Text) : Part :=
  .text (Text.trimRight isSpace word.reverse)

/-- The code point in front of what follows some bytes, given with the last one first.  Bytes
that continue a character belong to the last byte before them that does not. -/
def lastCode (before : Text) : Nat :=
  let tail := before.takeWhile Text.isContinuation
  match before.drop tail.length with
  | [] => 0x0a
  | b :: _ => ((Text.pieces (b :: tail.reverse)).head?.map Piece.code).getD 0x0a

/-- The code point behind a run of marks, given what follows it; a blank if nothing does.  Bytes
that continue a character belong to the last mark. -/
def nextCode (mark : UInt8) (t : Text) : Nat :=
  if t.head?.any Text.isContinuation then mark.toNat
  else ((Text.pieces (t.take 4)).head?.map Piece.code).getD 0x20

theorem dropWhile_length_lt (p : UInt8 → Bool) (b : UInt8) (t : Text) :
    (t.dropWhile p).length < (b :: t).length :=
  Nat.lt_succ_of_le (List.dropWhile_sublist p).length_le

/-- The parts of a text.  `before` is all that has been read and `word` the text since the last
mark, both with the last byte first. -/
def parts (before word t : Text) : List Part :=
  match t with
  | [] => [lineEnd word]
  | b :: rest =>
    if b == Text.newline then lineEnd word :: parts (b :: before) [] rest
    else if b == Text.backslash then
      match rest with
      | [] => [lineEnd (b :: word)]
      | c :: rest' =>
        if c == Text.newline then
          .text word.reverse :: parts (c :: b :: before) [] rest'
        else parts (c :: b :: before) (c :: b :: word) rest'
    else if b == 0x60 then
      let marks := rest.takeWhile (· == 0x60)
      let size := marks.length + 1
      match _h : codeEnd size 0 [] (rest.dropWhile (· == 0x60)) with
      | some (code, after) =>
        .text word.reverse :: .text (codeText code) :: parts (0x60 :: before) [] after
      | none =>
        let run := Text.repeated size b
        parts (run ++ before) (run ++ word) (rest.dropWhile (· == 0x60))
    else if b == 0x2a || b == Text.underscore then
      let size := (rest.takeWhile (· == b)).length + 1
      let after := rest.dropWhile (· == b)
      let run := Run.between (lastCode before) b size (nextCode b after)
      .text word.reverse :: .run run :: parts (Text.repeated size b ++ before) [] after
    else parts (b :: before) (b :: word) rest
termination_by t.length
decreasing_by
  · simp
  · simp only [List.length_cons]; omega
  · simp only [List.length_cons]; omega
  · exact Nat.lt_of_le_of_lt (codeEnd_length _h) (dropWhile_length_lt _ _ _)
  · exact dropWhile_length_lt _ _ _
  · exact dropWhile_length_lt _ _ _
  · simp

def plainText (t : Text) : Text := (resolve (parts [] [] t)).flatMap Part.plain

end Inline

end HaloScript
