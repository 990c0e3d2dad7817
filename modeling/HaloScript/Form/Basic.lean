/-
# Forms

A file is a sequence of bracketed forms; a form holds atoms and forms.  `SourceFile.read`
turns tokens into forms with a stack of the lists that are still open.  When it meets an error
the forms read so far are kept, the open ones with an unfinished span.
-/
import HaloScript.Form.Token

namespace HaloScript

/-- An atom or a bracketed list. -/
inductive Form where
  | atom (span : Span) (quoted : Bool)
  | list (span : Span) (items : List Form)
deriving Inhabited

namespace Form

def span : Form → Span
  | .atom s _ => s
  | .list s _ => s

def atomText (span : Span) (quoted : Bool) : Text :=
  let t := span.text
  if quoted && 2 ≤ t.length then (t.drop 1).take (t.length - 2) else t

def text? : Form → Option Text
  | .atom s q => some (atomText s q)
  | .list _ _ => none

def items : Form → List Form
  | .atom _ _ => []
  | .list _ items => items

def head? (f : Form) : Option Text := f.items.head?.bind text?

end Form

/-- A list whose closing bracket has not been read; its elements, the last one first. -/
structure OpenForm where
  start : Location
  items : List Form

/-- The reader between two tokens. -/
structure FormReader where
  file : SourceFile
  /-- The finished top-level forms, the last one first. -/
  forms : List Form := []
  /-- The open lists, the innermost one first. -/
  stack : List OpenForm := []

namespace FormReader

def add (r : FormReader) (f : Form) : FormReader :=
  match r.stack with
  | [] => { r with forms := f :: r.forms }
  | top :: rest => { r with stack := { top with items := f :: top.items } :: rest }

def feed (r : FormReader) (t : Token) : Except SourceError FormReader :=
  match t.kind with
  | .openBracket => .ok { r with stack := ⟨t.span.start, []⟩ :: r.stack }
  | .closeBracket =>
    match r.stack with
    | [] => .error (Fault.unopenedBracket.on t.span)
    | top :: rest =>
      let span : Span := ⟨some r.file, top.start, t.span.stop, false⟩
      .ok (FormReader.add { r with stack := rest } (.list span top.items.reverse))
  | .atom | .quotedAtom =>
    match r.stack with
    | [] => .error ((Fault.looseAtom t.span.text).on t.span)
    | _ :: _ => .ok (r.add (.atom t.span (t.kind == .quotedAtom)))

/-- The reader after all tokens, or as it was at the first fault, and that fault. -/
def feedAll (r : FormReader) : List Token → FormReader × Option SourceError
  | [] => (r, none)
  | t :: rest =>
    match r.feed t with
    | .ok r' => r'.feedAll rest
    | .error e => (r, some e)

/-- The forms read, where `inner` is the unfinished list inside the lists of the stack. -/
def closeAll (file : SourceFile) (forms : List Form) : Option Form → List OpenForm → List Form
  | none, [] => forms.reverse
  | some f, [] => (f :: forms).reverse
  | inner, top :: rest =>
    let span : Span := ⟨some file, top.start, top.start, true⟩
    closeAll file forms (some (.list span (inner.toList ++ top.items).reverse)) rest

def allForms (r : FormReader) : List Form := closeAll r.file r.forms none r.stack

end FormReader

/-- The forms of a file up to the first error, and that error. -/
structure Reading where
  forms : List Form
  error : Option SourceError

/-- Reads a whole file.  A fault of the form structure wins over a later one of the scan, and
a fault of the scan over a bracket left open. -/
def SourceFile.read (file : SourceFile) : Reading :=
  let scan := file.scan
  let (r, fault) := FormReader.feedAll { file } scan.tokens
  match fault, scan.error, r.stack with
  | some e, _, _ => ⟨r.allForms, some e⟩
  | none, some e, _ => ⟨r.allForms, some e⟩
  | none, none, top :: _ => ⟨r.allForms, some (Fault.openForm.on (.point file top.start))⟩
  | none, none, [] => ⟨r.allForms, none⟩

end HaloScript
