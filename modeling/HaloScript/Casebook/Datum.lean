/-
# Data and patterns

The dump of a program is a nested list of symbols and strings.  A pattern is written in the
same way and may contain ellipses: an ellipsis inside a list stands for any number of items,
none included, and an ellipsis on its own for anything.
-/
import HaloScript.Text.Basic

namespace HaloScript

/-- A symbol, a string, an ellipsis or a list.  A kind outside these four keeps its number. -/
inductive Datum where
  | symbol (text : Text)
  | string (text : Text)
  | ellipsis
  | list (items : List Datum)
  | other (code : Int) (text : Text)
deriving Inhabited

namespace Datum

def isAtom : Datum → Bool
  | .symbol _ | .string _ | .ellipsis => true
  | .list _ | .other _ _ => false

/-- A string with its quotes and backslashes marked by a backslash. -/
def escape (t : Text) : Text :=
  t.flatMap fun b =>
    if b == Text.doubleQuote || b == Text.backslash then [Text.backslash, b] else [b]

mutual

def render : Datum → Text
  | .symbol t => t
  | .string t => Text.doubleQuote :: escape t ++ [Text.doubleQuote]
  | .ellipsis => "..."
  | .list items => Text.openBracket :: renderItems items ++ [Text.closeBracket]
  | .other code _ => "UNKNOWN_NODE_TYPE_" ++ Text.ofInt code

def renderItems : List Datum → Text
  | [] => []
  | [d] => render d
  | d :: rest => render d ++ Text.space :: renderItems rest

end

/-! ## Matching -/

/-- What is left of a list after any number of its first items. -/
def suffixes : List Datum → List (List Datum)
  | [] => [[]]
  | d :: rest => (d :: rest) :: suffixes rest

mutual

def fits : Datum → Datum → Bool
  | .ellipsis, _ => true
  | .list patterns, .list items => fitAll patterns items
  | .symbol s, .symbol t => s == t
  | .string s, .string t => s == t
  | .other c s, .other d t => c == d && s == t
  | _, _ => false

def fitAll : List Datum → List Datum → Bool
  | [], items => items.isEmpty
  | .ellipsis :: patterns, items => (suffixes items).any (fitAll patterns)
  | pattern :: patterns, items =>
    match items with
    | [] => false
    | d :: rest => fits pattern d && fitAll patterns rest

end

end Datum

end HaloScript
