/-
# Documents of TOML

A document holds one statement per line: an entry `key = value`, or a header in brackets that
opens a table or, in double brackets, one of a list of tables.  A value is a string, a whole
number, a truth value or a list of strings; nothing else can be a setting, so nothing else is
read, and neither are keys of several parts.
-/
import HaloScript.Settings.Toml.Scalar

namespace HaloScript

namespace Toml

/-- A value of a setting. -/
inductive Value where
  | string (text : Text)
  | number (n : Int64)
  | truth (b : Bool)
  | strings (items : List Text)
deriving DecidableEq, Inhabited

/-- A statement of a document. -/
inductive Statement where
  | entry (key : Text) (value : Value)
  | table (key : Text)
  /-- One more table of a list. -/
  | tables (key : Text)
deriving DecidableEq, Inhabited

/-! ## 1. Gaps -/

def skipBlanks (t : Text) : Text := t.dropWhile isBlank

/-- What follows a comment, from inside it. -/
def skipComment : Text → Option Text
  | [] => some []
  | b :: rest =>
    if b == Text.newline || (b == Text.carriageReturn && rest.head? == some Text.newline) then
      some (b :: rest)
    else if isControl b then none
    else skipComment rest

/-- What follows the end of a line; blanks and a comment may stand in front of it. -/
def endLine? (t : Text) : Option Text :=
  let t := match skipBlanks t with
    | 0x23 :: rest => skipComment rest
    | t => some t
  match t with
  | some [] => some []
  | some (0x0a :: rest) | some (0x0d :: 0x0a :: rest) => some rest
  | _ => none

/-- What follows any blanks, comments and line ends, with at most `fuel` line ends and
comments. -/
def skipGap : Nat → Text → Option Text
  | 0, _ => none
  | fuel + 1, t =>
    match skipBlanks t with
    | 0x0a :: rest | 0x0d :: 0x0a :: rest => skipGap fuel rest
    | 0x23 :: rest =>
      match skipComment rest with
      | some rest => skipGap fuel rest
      | none => none
    | t => some t

/-! ## 2. Statements -/

/-- The items of a list up to its closing bracket and what follows it, with at most `fuel`
items.  A comma may stand behind the last item. -/
def takeItems : Nat → Text → Option (List Text × Text)
  | 0, _ => none
  | fuel + 1, t =>
    match skipGap (t.length + 1) t with
    | none => none
    | some (0x5d :: rest) => some ([], rest)
    | some t =>
      match takeString t with
      | none => none
      | some (item, after) =>
        match skipGap (after.length + 1) after with
        | some (0x2c :: rest) => (takeItems fuel rest).map fun r => (item :: r.1, r.2)
        | some (0x5d :: rest) => some ([item], rest)
        | _ => none

def takeValue (t : Text) : Option (Value × Text) :=
  let word := t.takeWhile isWordByte
  let after := t.dropWhile isWordByte
  match t with
  | 0x5b :: rest => (takeItems (rest.length + 1) rest).map fun r => (.strings r.1, r.2)
  | 0x27 :: _ | 0x22 :: _ => (takeString t).map fun r => (.string r.1, r.2)
  | _ =>
    if word == ("true" : Text) then some (.truth true, after)
    else if word == ("false" : Text) then some (.truth false, after)
    else (number? word).map fun n => (.number n, after)

def isKeyByte (b : UInt8) : Bool :=
  isWordByte b && b != Text.plus && b != Text.dot && b != 0x3a

/-- The key at the start of a text and what follows it and the blanks behind it. -/
def takeKey (t : Text) : Option (Text × Text) :=
  let key := match skipBlanks t with
    | 0x27 :: rest => takeLiteral [] rest
    | 0x22 :: rest => takeBasic [] .plain rest
    | t => if (t.takeWhile isKeyByte).isEmpty then none
      else some (t.takeWhile isKeyByte, t.dropWhile isKeyByte)
  key.map fun r => (r.1, skipBlanks r.2)

def takeStatement (t : Text) : Option (Statement × Text) :=
  match t with
  | 0x5b :: 0x5b :: rest =>
    match takeKey rest with
    | some (key, 0x5d :: 0x5d :: after) => some (.tables key, after)
    | _ => none
  | 0x5b :: rest =>
    match takeKey rest with
    | some (key, 0x5d :: after) => some (.table key, after)
    | _ => none
  | _ =>
    match takeKey t with
    | some (key, 0x3d :: after) =>
      (takeValue (skipBlanks after)).map fun r => (.entry key r.1, r.2)
    | _ => none

/-- The statements of a text, with at most `fuel` of them. -/
def statements : Nat → Text → Option (List Statement)
  | 0, _ => none
  | fuel + 1, t =>
    match skipGap (t.length + 1) t with
    | none => none
    | some [] => some []
    | some t =>
      match takeStatement t with
      | none => none
      | some (s, after) =>
        match endLine? after with
        | none => none
        | some rest => (statements fuel rest).map (s :: ·)

/-- The statements of a document; none if there is anything else in it. -/
def document? (t : Text) : Option (List Statement) :=
  if t.pieces.any fun p => p matches .broken _ then none else statements (t.length + 1) t

end Toml

end HaloScript
