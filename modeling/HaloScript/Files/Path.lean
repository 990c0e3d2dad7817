/-
# Paths

Slash-separated paths and their normal form: no empty and no `.` elements, `..` only at the
front of a relative path, and `.` for the path that has no elements.
-/
import HaloScript.Text.Chars

namespace HaloScript

namespace Path

/-- One more element of a path whose elements so far are given in reverse. -/
def pushElement (rooted : Bool) (elements : List Text) (e : Text) : List Text :=
  if e.isEmpty || e == ("." : Text) then elements
  else if e == (".." : Text) then
    match elements with
    | [] => if rooted then [] else [e]
    | top :: rest => if top == (".." : Text) then e :: elements else rest
  else e :: elements

def isRooted : Text → Bool
  | Text.slash :: _ => true
  | _ => false

def elements (p : Text) : List Text :=
  ((p.splitOn Text.slash).foldl (pushElement (isRooted p)) []).reverse

def clean (p : Text) : Text :=
  let joined := Text.join "/" (elements p)
  if isRooted p then Text.slash :: joined
  else if joined.isEmpty then "." else joined

def join (ps : List Text) : Text :=
  let parts := ps.filter (!·.isEmpty)
  if parts.isEmpty then [] else clean (Text.join "/" parts)

def front (p : Text) : Text := (p.reverse.dropWhile (· != Text.slash)).reverse

def directory (p : Text) : Text := clean (front p)

def base (p : Text) : Text :=
  if p.isEmpty then "."
  else
    let trimmed := p.trimRight (· == Text.slash)
    if trimmed.isEmpty then "/" else trimmed.drop (front trimmed).length

/-- Whether the path stays inside the directory it is read from: relative, in normal form,
without `..`, and well-formed text. -/
def isLocal (p : Text) : Bool :=
  p == ("." : Text) ||
    (!isRooted p && (p.splitOn Text.slash).all fun e =>
      !e.isEmpty && e != ("." : Text) && e != (".." : Text) &&
        e.pieces.all fun x => match x with
          | .char _ => true
          | .broken _ => false)

end Path

end HaloScript
