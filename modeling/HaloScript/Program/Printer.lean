/-
# Printing a program as source

Every declaration of the table is written in table order, macros left out and constant globals
written as globals.  The compact layout puts a declaration on one line; the pretty one starts a
line for every nested call, indented by one tab per level, and closes a declaration on a line
of its own.

An atom is written in quotes exactly if it would not read back as one plain atom: when it is
empty, or holds a blank, a tab, a line feed, a bracket or a semicolon.
-/
import HaloScript.Program.Basic

namespace HaloScript

/-- How a program is laid out. -/
inductive Layout where
  | compact
  | pretty
deriving DecidableEq, Inhabited

namespace Printer

/-- Whether a text would not read back as one plain atom. -/
def needsQuotes (t : Text) : Bool := t.isEmpty || t.containsAny " \t\n();"

def atom (t : Text) : Text := if needsQuotes t then "\"" ++ t ++ "\"" else t

def gap (spaced : Bool) : Text := if spaced then " " else []

def callGap (layout : Layout) (depth : Nat) (spaced : Bool) : Text :=
  match layout with
  | .compact => gap spaced
  | .pretty => Text.newline :: Text.repeated depth Text.tab

mutual

/-- A value inside a list, with what separates it from the element before it. -/
def value (layout : Layout) (depth : Nat) (spaced : Bool) : Value → Text
  | .leaf _ l =>
    match l.text? with
    | none => []
    | some t => gap spaced ++ atom t
  | .call _ h args =>
    callGap layout depth spaced ++ "(" ++ (if h.clause then [] else atom h.callee.name) ++
      values layout (depth + 1) (!h.clause) args ++ ")"

/-- The elements of a list; `spaced` says whether one came before. -/
def values (layout : Layout) (depth : Nat) (spaced : Bool) : List Value → Text
  | [] => []
  | v :: rest =>
    let text := value layout depth spaced v
    text ++ values layout depth (spaced || !text.isEmpty) rest

end

def declaration (layout : Layout) (words : List Text) (body : List Value) : Text :=
  "(" ++ Text.join " " (words.map atom) ++ values layout 1 true body ++
    (match layout with
      | .compact => ")"
      | .pretty => "\n)")

def global (layout : Layout) (g : Global) : Text :=
  declaration layout ["global", g.type, g.id.name] [g.value]

def script (layout : Layout) (s : Script) : Text :=
  let returns : List Text := if s.kind.hasReturnType then [s.returnType] else []
  declaration layout ([("script" : Text), s.kind.name] ++ returns ++ [s.id.name]) s.body

end Printer

/-- A declaration as source; a macro has none. -/
def Declaration.print? (layout : Layout) : Declaration → Option Text
  | .global g => some (Printer.global layout g)
  | .script s => if s.isMacro then none else some (Printer.script layout s)

def Program.print (layout : Layout) (p : Program) : Text :=
  (p.declarations.filterMap (Declaration.print? layout)).flatMap (· ++ "\n")

end HaloScript
