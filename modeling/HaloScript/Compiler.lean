/-
# The compiler

One source and everything it imports is read, linked, lowered and printed.  There is output
only if no error has been reported; the program is left as it was when the compiler stopped.
-/
import HaloScript.Build.Import
import HaloScript.Lowering.Pipeline
import HaloScript.Program.Dump
import HaloScript.Program.Printer

namespace HaloScript

/-- How to compile. -/
structure CompileOptions where
  passes : PassSet := .full
  /-- The most that a step may add; the usual limit if this is not positive. -/
  maxExpansions : Int64 := 0
  layout : Layout := .compact

/-- The outcome of a compilation. -/
structure Compilation where
  /-- The name of the unit. -/
  name : Text
  program : Program
  /-- The files read, by path in normal form. -/
  files : List (Text × SourceFile)
  report : Report
  output : Text
  log : List LogEntry

namespace Compilation

def ok (c : Compilation) : Bool := !c.report.hasErrors

end Compilation

def compile (lib : Library) (options : CompileOptions) (name : Text) (entry : Entry) :
    Compilation :=
  let tagged := List.map fun e : LogEntry => e.tagged "unit" name
  let loaded := Program.load {} {} lib entry
  if loaded.ok then
    let lowered := loaded.program.lower loaded.report options.passes options.maxExpansions
    { name, program := lowered.program, files := loaded.files, report := lowered.report
      output := if lowered.report.hasErrors then [] else lowered.program.print options.layout
      log := tagged (loaded.log ++ lowered.log) }
  else
    { name, program := loaded.program, files := loaded.files, report := loaded.report
      output := [], log := tagged loaded.log }

def compileFile (lib : Library) (options : CompileOptions) (name : Text) : Compilation :=
  compile lib options name (.file name)

def compileSource (lib : Library) (options : CompileOptions) (name text : Text) : Compilation :=
  compile lib options name (.source ⟨name, text⟩)

end HaloScript
