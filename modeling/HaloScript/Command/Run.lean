/-
# Running a command

A command is a function of its arguments and of the disk: it decides what to print, what to
write and how to exit, and does nothing else.
-/
import HaloScript.Command.Build
import HaloScript.Command.Usage
import HaloScript.Evaluation
import HaloScript.Settings.Load
import HaloScript.Text.LineDiff
import HaloScript.Text.Similar

namespace HaloScript

/-- What a command leaves behind. -/
structure Outcome where
  /-- Zero if all went well. -/
  code : Nat
  output : Text := []
  /-- What is printed for people: messages, log lines and complaints. -/
  errors : Text := []
  disk : Disk

namespace Command

def complaint (message : Text) : Text := "Error: " ++ message ++ "\n"

/-- Whether messages are painted; `terminal` says whether they go to one. -/
def paints (terminal : Bool) : ColorMode → Bool
  | .auto => terminal
  | .always => true
  | .never => false

/-! ## 1. Single files -/

/-- A compiled file, or the complaint about the flags; and what has been printed. -/
def compileUnit (terminal : Bool) (disk : Disk) (flags : Flags) (file : Text) :
    Except Text (Compilation × Text) := do
  let passes ← (PassSet.ofNames ((flags.text "passes").splitOn 0x2c)).mapError (·.message)
  let mode ← (ColorMode.ofName (flags.text "color")).mapError (·.message)
  let options : CompileOptions :=
    { passes, layout := if flags.isSet "compact" then .compact else .pretty }
  let c := compileFile (disk.library (Path.directory file)) options (Path.base file)
  let shown : Presentation := ⟨flags.isSet "v", paints terminal mode⟩
  return (c, c.log.flatMap shown.log ++ c.report.print shown.color)

def unitOutput (c : Command) (flags : Flags) (file : Text) (unit : Compilation) : Text :=
  match c with
  | .check =>
    file ++ ": no errors found\n" ++
      (if flags.isSet "v" then "AST: " ++ unit.program.dump ++ "\n" else [])
  | .diff =>
    let source := ((unit.files.lookup (Path.base file)).map SourceFile.text).getD []
    Text.unifiedDiff file (file ++ " (compiled)") source unit.output
  | _ => unit.output

def runUnit (c : Command) (terminal : Bool) (disk : Disk) (flags : Flags) (file : Text) :
    Outcome :=
  match compileUnit terminal disk flags file with
  | .error message => { code := 1, errors := complaint message, disk }
  | .ok (unit, errors) =>
    if unit.ok then { code := 0, output := unitOutput c flags file unit, errors, disk }
    else { code := 1, errors, disk }

/-! ## 2. Expressions and scenarios -/

def runEval (disk : Disk) (expression : Text) : Outcome :=
  let e := evaluate (disk.library ".") [] expression
  let errors := e.report.print false
  match e.ok, e.global with
  | false, _ => { code := 1, errors, disk }
  | true, none => { code := 1, errors := errors ++ complaint "expression did not build", disk }
  | true, some _ =>
    let answer := (e.value.bind Const.toText?).getD "not a compile-time constant"
    { code := 0, output := answer ++ [Text.newline], errors, disk }

def override (flags : Flags) (s : Settings) : Settings :=
  let list := flags.text "passes"
  let color := flags.text "color"
  { s with
    jobs := if flags.number "j" = 0 then s.jobs else flags.number "j"
    passes := if list.isEmpty then s.passes else list.splitOn 0x2c
    pretty := s.pretty && !flags.isSet "compact"
    color := if color.isEmpty then s.color else color }

def runBuild (terminal : Bool) (disk : Disk) (flags : Flags) (dir : Text) : Outcome :=
  let refused := fun message : Text => Outcome.mk 1 [] (complaint message) disk
  match Settings.load disk dir with
  | .error fault => refused fault.message
  | .ok found =>
    let settings := override flags found.settings
    match settings.validate, ColorMode.ofName settings.color with
    | .error fault, _ | .ok _, .error fault => refused fault.message
    | .ok _, .ok mode =>
      let shown : Presentation := ⟨flags.isSet "v", paints terminal mode⟩
      let loaded := match found.source with
        | some (path, format) =>
          shown.log ⟨"loaded config", [("path", path), ("format", format.name)]⟩
        | none => []
      let built := buildScenario shown disk dir settings
      let errors := loaded ++ built.state.shown
      match built.fault with
      | some fault =>
        { code := 1, errors := errors ++ complaint fault.message, disk := built.state.disk }
      | none =>
        { code := if built.state.total.hasErrors then 1 else 0, errors, disk := built.state.disk }

/-! ## 3. The command line -/

def run (c : Command) (terminal : Bool) (disk : Disk) (args : List Text) : Outcome :=
  match c.flags.parse args with
  | .error .help => { code := 0, errors := c.usage, disk }
  | .error fault =>
    { code := 1, errors := fault.message ++ "\n" ++ c.usage ++ complaint fault.message, disk }
  | .ok (flags, [operand]) =>
    match c with
    | .build => runBuild terminal disk flags operand
    | .eval => runEval disk operand
    | c => runUnit c terminal disk flags operand
  | .ok _ =>
    { code := 1
      errors := complaint ("expected exactly one " ++ c.operandName ++ " argument") ++ c.usage
      disk }

/-- The directory that holds all files a command looks at. -/
def place (c : Command) (operand : Text) : Text :=
  match c with
  | .build => Path.clean operand
  | .eval => "."
  | _ => Path.directory operand

def unknown (name : Text) : Text :=
  "Unknown command: " ++ name ++ "\n" ++
    (match name.suggestion? knownNames with
      | some s => "Did you mean " ++ s.quote ++ "?\n"
      | none => []) ++ "\n" ++ programUsage

end Command

/-- The directory that holds all files the program looks at, if it looks at any. -/
def programPlace? (args : List Text) : Option Text :=
  match args with
  | [] => none
  | name :: rest =>
    (Command.ofName? name).bind fun c =>
      match c.flags.parse rest with
      | .ok (_, [operand]) => some (c.place operand)
      | _ => none

def runProgram (terminal : Bool) (disk : Disk) (args : List Text) : Outcome :=
  let help : List Text := ["help", "-h", "--help"]
  match args with
  | [] => { code := 1, errors := programUsage, disk }
  | name :: rest =>
    match Command.ofName? name with
    | some c => c.run terminal disk rest
    | none =>
      if help.contains name then { code := 0, output := programUsage, disk }
      else { code := 1, errors := Command.unknown name, disk }

end HaloScript
