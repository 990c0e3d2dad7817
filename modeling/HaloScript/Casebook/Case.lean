/-
# Cases

A document describes cases for the compiler.  A case starts with a heading that begins with
`Test: ` and holds fenced code: its main file, files to import, and what the compiler is
expected to do with them.  Fences without a language are prose; fences in a language that is
not known are refused, as are fences outside a case.
-/
import HaloScript.Casebook.Block
import HaloScript.Casebook.DatumReader
import HaloScript.Casebook.Inline

namespace HaloScript

/-- What an expectation is about. -/
inductive ExpectationKind where
  | output
  | outputPretty
  | ast
  | compileError
  | warning
deriving DecidableEq, Inhabited

namespace ExpectationKind

def name : ExpectationKind → Text
  | .output => "output"
  | .outputPretty => "output-pretty"
  | .ast => "ast"
  | .compileError => "compile-error"
  | .warning => "warning"

def ofName? (language : Text) : Option ExpectationKind :=
  [.output, .outputPretty, .ast, .compileError, .warning].find? (·.name == language)

end ExpectationKind

/-- What the compiler is expected to do. -/
structure CaseExpectation where
  kind : ExpectationKind
  content : Text
  /-- The pattern for the dump of the program, where the expectation is about that. -/
  pattern : Option Datum
deriving Inhabited

def CaseExpectation.lines (e : CaseExpectation) : List Text :=
  if e.content.isEmpty then [] else e.content.splitOn Text.newline

/-- A case for the compiler. -/
structure Case where
  name : Text
  /-- The main file. -/
  input : Text := []
  /-- The files that can be imported. -/
  files : List (Text × Text) := []
  /-- The lowering steps to run, if the case says so. -/
  passes : Text := []
  expectations : List CaseExpectation := []
deriving Inhabited

/-- What is wrong with a fence or a case. -/
inductive CaseFault where
  | outside (language : Text)
  | unknownOutside (language : Text)
  | unknownLanguage (language case : Text)
  | secondInput (case : Text)
  | unknownOption (option case : Text)
  | fileName (language case : Text)
  | secondFile (name case : Text)
  | pattern (case : Text) (fault : DatumFault)
  | noInput (case : Text)
  | noExpectation (case : Text)

namespace CaseFault

def message : CaseFault → Text
  | .outside language => language ++ " fence found outside of test case"
  | .unknownOutside language =>
    "unknown fence language '" ++ language ++ "' found outside of test case"
  | .unknownLanguage language case =>
    "unknown fence language '" ++ language ++ "' in test '" ++ case ++ "'"
  | .secondInput case => "multiple input fences found in test '" ++ case ++ "'"
  | .unknownOption option case => "unknown option '" ++ option ++ "' in test '" ++ case ++ "'"
  | .fileName language case =>
    language ++ " fence needs exactly one file name in test '" ++ case ++ "'"
  | .secondFile name case => "file '" ++ name ++ "' defined twice in test '" ++ case ++ "'"
  | .pattern case fault =>
    "failed to parse Sexy assertion in test '" ++ case ++ "': " ++ fault.message
  | .noInput case => "test '" ++ case ++ "' has no input fence"
  | .noExpectation case => "test '" ++ case ++ "' has no assertion fences"

end CaseFault

/-- Why a document is refused. -/
inductive CasebookError where
  /-- A fence on a line. -/
  | fence (line : Nat) (fault : CaseFault)
  /-- A case that another one follows. -/
  | inner (fault : CaseFault)
  /-- The last case. -/
  | last (fault : CaseFault)

def CasebookError.message : CasebookError → Text
  | .fence line fault =>
    "error walking markdown AST: line " ++ Text.ofNat line ++ ": " ++ fault.message
  | .inner fault => "error walking markdown AST: " ++ fault.message
  | .last fault => fault.message

namespace Case

/-- Checks that a case has an input and something to expect. -/
def check (c : Case) : Except CaseFault Case :=
  if c.input.isEmpty then .error (.noInput c.name)
  else if c.expectations.isEmpty then .error (.noExpectation c.name)
  else .ok c

/-! ## 1. Fences -/

/-- Fenced code: its language, the words after it, and the code. -/
structure Fenced where
  language : Text
  options : List Text
  content : Text

/-- The language is what stands in front of the first blank. -/
def Fenced.of (info : Option Text) (lines : List Text) : Fenced :=
  let info := info.getD []
  { language := info.takeWhile (· != Text.space)
    options := (Text.fields info).drop 1
    content := Text.trimRight (· == Text.newline) lines.flatten }

def mainLanguage : Text := "hsc"

def fileLanguage : Text := "hsc-file"

def isKnown (language : Text) : Bool :=
  language == mainLanguage || language == fileLanguage ||
    (ExpectationKind.ofName? language).isSome

def setOption (c : Case) (option : Text) : Except CaseFault Case :=
  let (key, value) := option.cut Text.equals
  if key == ("passes" : Text) then .ok { c with passes := value.getD [] }
  else .error (.unknownOption option c.name)

def addFence (c : Case) (f : Fenced) : Except CaseFault Case :=
  if f.language.isEmpty then .ok c
  else if f.language == mainLanguage then
    if !c.input.isEmpty then .error (.secondInput c.name)
    else f.options.foldlM setOption { c with input := f.content }
  else if f.language == fileLanguage then
    match f.options with
    | [name] =>
      if (c.files.lookup name).isSome then .error (.secondFile name c.name)
      else .ok { c with files := c.files ++ [(name, f.content)] }
    | _ => .error (.fileName f.language c.name)
  else match ExpectationKind.ofName? f.language with
    | none => .error (.unknownLanguage f.language c.name)
    | some .ast =>
      match Datum.read f.content with
      | .error fault => .error (.pattern c.name fault)
      | .ok d => .ok { c with expectations := c.expectations ++ [⟨.ast, f.content, some d⟩] }
    | some kind => .ok { c with expectations := c.expectations ++ [⟨kind, f.content, none⟩] }

/-- Fenced code outside a case must not have a language. -/
def checkOutside (f : Fenced) : Except CaseFault Unit :=
  if f.language.isEmpty then .ok ()
  else if isKnown f.language then .error (.outside f.language)
  else .error (.unknownOutside f.language)

/-! ## 2. Documents -/

def nameOf? (heading : Text) : Option Text :=
  let start : Text := "Test: "
  let plain := Inline.plainText heading
  if start.isPrefixOf plain then some (plain.drop start.length) else none

/-- The cases found so far, the last one first, and the one that is being read. -/
structure Progress where
  done : List Case := []
  current : Option Case := none

def addBlock (p : Progress) : Block → Except CasebookError Progress
  | .heading text =>
    match nameOf? text, p.current with
    | none, _ => .ok p
    | some name, none => .ok { p with current := some { name } }
    | some name, some c =>
      match c.check with
      | .error fault => .error (.inner fault)
      | .ok c => .ok ⟨c :: p.done, some { name }⟩
  | .fence info lines number =>
    let f := Fenced.of info lines
    let number := if lines.isEmpty then 1 else number
    match p.current with
    | none => ((checkOutside f).mapError (.fence number)).map fun _ => p
    | some c => ((c.addFence f).mapError (.fence number)).map fun c => { p with current := some c }
  | _ => .ok p

def ofDocument (t : Text) : Except CasebookError (List Case) := do
  let p ← (Block.ofText t).foldlM addBlock {}
  match p.current with
  | none => return p.done.reverse
  | some c =>
    let c ← c.check.mapError .last
    return (c :: p.done).reverse

end Case

end HaloScript
