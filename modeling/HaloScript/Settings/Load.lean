/-
# Finding the settings of a project

A project keeps its settings in `hscx.toml` or, if there is no such file, in `hscx.yaml`.  A
project with neither has the usual settings.  A candidate that is there but cannot be read is
passed over; that only matters if no other candidate is found.
-/
import HaloScript.Files.Disk
import HaloScript.Settings.Toml
import HaloScript.Settings.Yaml

namespace HaloScript

/-- The formats of settings files. -/
inductive SettingsFormat where
  | toml
  | yaml
deriving DecidableEq, Inhabited

namespace SettingsFormat

def name : SettingsFormat → Text
  | .toml => "toml"
  | .yaml => "yaml"

def ofName? (t : Text) : Option SettingsFormat := [.toml, .yaml].find? (·.name == t)

def unsupported (t : Text) : Text := "unsupported config format " ++ t.quote

/-- Reads settings; none if the text does not have the format. -/
def read? : SettingsFormat → Text → Option Settings
  | .toml => Toml.settings?
  | .yaml => Yaml.settings?

def fileName : SettingsFormat → Text
  | .toml => "hscx.toml"
  | .yaml => "hscx.yaml"

end SettingsFormat

/-- Settings and the file they come from, if there is one. -/
structure FoundSettings where
  settings : Settings
  source : Option (Text × SettingsFormat) := none
deriving DecidableEq, Inhabited

/-- Why the settings of a project cannot be used. -/
inductive LoadFault where
  /-- The candidates that are there and cannot be read. -/
  | unreadable (paths : List (Text × DiskFault))
  /-- A file that does not have its format. -/
  | undecodable (path : Text) (format : SettingsFormat)
  | invalid (path : Text) (fault : SettingsFault)

def LoadFault.message : LoadFault → Text
  | .unreadable paths =>
    Text.join "\n" (paths.map fun p =>
      ("read config " : Text) ++ p.1.quote ++ ": " ++ Disk.readFailure p.1 p.2)
  | .undecodable path format =>
    "parse config " ++ path.quote ++ ": invalid " ++ format.name
  | .invalid path fault => "config " ++ path.quote ++ ": " ++ fault.message

namespace Settings

def decode (path : Text) (format : SettingsFormat) (content : Text) :
    Except LoadFault FoundSettings :=
  match format.read? content with
  | none => .error (.undecodable path format)
  | some s =>
    match s.validate with
    | .error fault => .error (.invalid path fault)
    | .ok _ => .ok ⟨s, some (path, format)⟩

/-- Tries candidates in order; `passed` are those that could not be read, the last one first. -/
def loadFrom (d : Disk) (dir : Text) (passed : List (Text × DiskFault)) :
    List SettingsFormat → Except LoadFault FoundSettings
  | [] => if passed.isEmpty then .ok { settings := {} } else .error (.unreadable passed.reverse)
  | format :: rest =>
    let path := Path.join [dir, format.fileName]
    match d.read path with
    | .ok content => decode path format content
    | .error .missing => loadFrom d dir passed rest
    | .error fault => loadFrom d dir ((path, fault) :: passed) rest

def load (d : Disk) (dir : Text) : Except LoadFault FoundSettings :=
  loadFrom d dir [] [.toml, .yaml]

end Settings

end HaloScript
