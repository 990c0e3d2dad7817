/-
# Project settings

What a scenario can settle for itself: where its sources are, where the output goes and how it
is compiled.  Settings are read as written and validated afterwards, so a setting that makes no
sense is only refused where it is going to be used.
-/
import HaloScript.Lowering.PassSet

namespace HaloScript

/-- When messages are painted. -/
inductive ColorMode where
  /-- On a terminal. -/
  | auto
  | always
  | never
deriving DecidableEq, Inhabited

/-- The settings of a project. -/
structure Settings where
  sourceDir : Text := "hscx_scripts"
  outputDir : Text := "scripts"
  extension : Text := ".hsc"
  passes : List Text := [("full" : Text)]
  pretty : Bool := true
  jobs : Int64 := 1
  maxExpansions : Int64 := 100000
  color : Text := "auto"
deriving DecidableEq, Inhabited

/-- Why settings are refused. -/
inductive SettingsFault where
  | pass (unknown : PassSet.UnknownPass)
  | jobs (n : Int64)
  | maxExpansions (n : Int64)
  | color (word : Text)
  | emptyDirectory
deriving DecidableEq

def SettingsFault.message : SettingsFault → Text
  | .pass unknown => unknown.message
  | .jobs n => "jobs must be at least 1, got " ++ Text.ofInt n.toInt
  | .maxExpansions n => "max_expansions must be at least 1, got " ++ Text.ofInt n.toInt
  | .color word => "color must be auto, always or never, got " ++ word.quote
  | .emptyDirectory => "source_dir and output_dir must not be empty"

/-- The mode a word names; no word means `auto`. -/
def ColorMode.ofName (word : Text) : Except SettingsFault ColorMode :=
  if word.isEmpty || word == ("auto" : Text) then .ok .auto
  else if word == ("always" : Text) then .ok .always
  else if word == ("never" : Text) then .ok .never
  else .error (.color word)

namespace Settings

def passSet (s : Settings) : Except SettingsFault PassSet :=
  (PassSet.ofNames s.passes).mapError .pass

/-- The first reason to refuse the settings, if there is one. -/
def validate (s : Settings) : Except SettingsFault Unit := do
  let _ ← s.passSet
  if s.jobs < 1 then throw (.jobs s.jobs)
  if s.maxExpansions < 1 then throw (.maxExpansions s.maxExpansions)
  let _ ← ColorMode.ofName s.color
  if s.sourceDir.isEmpty || s.outputDir.isEmpty then throw .emptyDirectory

end Settings

end HaloScript
