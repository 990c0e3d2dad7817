/-
# The command line

Reads the files that a command looks at, runs it on them, and carries out what it decided.
-/
import HaloScript.Command.Run

namespace HaloScript

def fileName (t : Text) : String := (String.fromUTF8? ⟨t.toArray⟩).getD ""

/-- The files and directories below a directory.  What cannot be read is left out. -/
partial def readBelow (dir : Text) : IO (List (Text × DiskEntry)) := do
  let place ← IO.FS.realPath (fileName dir)
  let found ← try place.readDir catch _ => pure #[]
  let below ← found.toList.mapM fun e => do
    let path := Path.join [dir, Text.ofString e.fileName]
    if ← e.path.isDir then
      return (path, DiskEntry.directory) :: (← readBelow path)
    try
      return [(path, DiskEntry.file (← IO.FS.readBinFile e.path).toList)]
    catch _ => return []
  return below.flatten

def writeBack (before after : Disk) : IO Unit := do
  for (path, entry) in after.entries do
    if entry == .directory then IO.FS.createDirAll (fileName path)
  for (path, content) in after.changedSince before do
    IO.FS.writeBinFile (fileName path) ⟨content.toArray⟩

end HaloScript

open HaloScript in
def main (args : List String) : IO UInt32 := do
  let args := args.map Text.ofString
  let entries ← match programPlace? args with
    | some dir => readBelow dir
    | none => pure []
  let stdout ← IO.getStdout
  let stderr ← IO.getStderr
  let before : Disk := ⟨entries⟩
  let outcome := runProgram (← stderr.isTty) before args
  writeBack before outcome.disk
  stderr.write ⟨outcome.errors.toArray⟩
  stdout.write ⟨outcome.output.toArray⟩
  return outcome.code.toUInt32
