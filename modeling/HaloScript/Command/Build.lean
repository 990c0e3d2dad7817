/-
# Building a scenario

Every source of a scenario is compiled into a file of the same name in the output directory.
All sources are compiled before anything is written.  A source with errors writes nothing and
keeps no other source from being written; a file that cannot be written ends the build.
-/
import HaloScript.Compiler
import HaloScript.Files.Glob
import HaloScript.Report.Printed
import HaloScript.Settings.Basic

namespace HaloScript

/-- Why a build ends before its time. -/
inductive BuildFault where
  | settings (fault : SettingsFault)
  /-- The pattern for the names of sources is malformed. -/
  | pattern (dir : Text)
  | makeDirectory (path : Text) (fault : DiskFault)
  | write (path : Text) (fault : DiskFault)

def BuildFault.message : BuildFault → Text
  | .settings fault => fault.message
  | .pattern dir => "list sources in " ++ dir.quote ++ ": syntax error in pattern"
  | .makeDirectory path fault =>
    "create output directory: mkdir " ++ path ++ ": " ++ fault.message
  | .write path fault => "write " ++ path.quote ++ ": open " ++ path ++ ": " ++ fault.message

/-- How the outcome of a build is presented. -/
structure Presentation where
  /-- Log lines are shown. -/
  verbose : Bool := false
  color : Bool := false

def Presentation.log (p : Presentation) (e : LogEntry) : Text :=
  if p.verbose then e.render ++ [Text.newline] else []

/-- A build under way. -/
structure BuildState where
  disk : Disk
  /-- What has been shown. -/
  shown : Text := []
  /-- The messages of all units. -/
  total : Report := {}

/-- The outcome of a build. -/
structure BuildOutcome where
  state : BuildState
  fault : Option BuildFault := none

namespace BuildState

def say (s : BuildState) (t : Text) : BuildState := { s with shown := s.shown ++ t }

def finish (p : Presentation) (outputDir : Text) (s : BuildState) (c : Compilation) :
    BuildOutcome :=
  let s := { s with total := s.total.append c.report }.say (c.report.print p.color)
  if !c.ok then
    ⟨s.say (p.log ⟨"not writing output",
      [("unit", c.name), ("errors", Text.ofNat (c.report.count .error))]⟩), none⟩
  else
    let path := Path.join [outputDir, Path.clean c.name]
    match s.disk.write path c.output with
    | .error fault => ⟨s, some (.write path fault)⟩
    | .ok disk =>
      ⟨{ s with disk }.say (p.log ⟨"wrote output",
        [("file", path), ("bytes", Text.ofNat c.output.length)]⟩), none⟩

/-- Finishes units in order, up to the first that cannot be written. -/
def finishAll (p : Presentation) (outputDir : Text) (s : BuildState) :
    List Compilation → BuildOutcome
  | [] => ⟨s, none⟩
  | c :: rest =>
    match finish p outputDir s c with
    | ⟨s, none⟩ => finishAll p outputDir s rest
    | stopped => stopped

end BuildState

def buildScenario (p : Presentation) (disk : Disk) (dir : Text) (settings : Settings) :
    BuildOutcome :=
  let start : BuildState := { disk }
  let sourceDir := Path.join [dir, settings.sourceDir]
  let outputDir := Path.join [dir, settings.outputDir]
  match settings.passSet, disk.filesLike? sourceDir ("*" ++ settings.extension) with
  | .error fault, _ => ⟨start, some (.settings fault)⟩
  | .ok _, none => ⟨start, some (.pattern sourceDir)⟩
  | .ok passes, some names =>
    let s := start.say (p.log ⟨"compiling scenario",
      [("dir", dir), ("files", Text.ofNat names.length), ("passes", passes.name)]⟩)
    let options : CompileOptions :=
      { passes, maxExpansions := settings.maxExpansions
        layout := if settings.pretty then .pretty else .compact }
    let units := names.map (compileFile (disk.library sourceDir) options)
    let s := s.say ((units.flatMap Compilation.log).flatMap p.log)
    match s.disk.makeDirectory outputDir with
    | .error (path, fault) => ⟨s, some (.makeDirectory path fault)⟩
    | .ok disk =>
      match BuildState.finishAll p outputDir { s with disk } units with
      | ⟨s, none⟩ => ⟨s.say s.total.summary, none⟩
      | stopped => stopped

end HaloScript
