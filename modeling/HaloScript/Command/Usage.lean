/-
# Commands and their descriptions

Which commands there are, what flags they take, and what is printed about them.
-/
import HaloScript.Command.Flags

namespace HaloScript

def programUsage : Text :=
  "hscx - HaloScript compiler with macros, loops and constant folding

Usage:
    hscx <command> [arguments]

Commands:
    build <dir>     Compile every script of a scenario directory
    check <file>    Compile a file and report problems without output
    print <file>    Compile a file and print the result
    diff <file>     Show what compiling a file changes
    eval <expr>     Evaluate an expression at compile time
    help            Show this help message

Examples:
    hscx build levels/a10
    hscx print -passes macro,loop ai.hsc
    hscx eval '(* 2 (+ 1 0.5))'

Use \"hscx <command> -h\" for more information about a command.
"

/-- A command that takes flags and one argument. -/
inductive Command where
  | build
  | check
  | print
  | diff
  | eval
deriving DecidableEq, Inhabited

namespace Command

def all : List Command := [.build, .check, .print, .diff, .eval]

def name : Command → Text
  | .build => "build"
  | .check => "check"
  | .print => "print"
  | .diff => "diff"
  | .eval => "eval"

def ofName? (t : Text) : Option Command := all.find? (·.name == t)

def knownNames : List Text := all.map name ++ [("help" : Text)]

def synopsis : Command → Text
  | .build => "[-v] [-j jobs] [-passes list] [-compact] [-color mode] <scenario-dir>"
  | .check => "[-v] [-passes list] <file>"
  | .print => "[-v] [-passes list] [-compact] [-color mode] <file>"
  | .diff => "[-v] [-passes list] [-compact] <file>"
  | .eval => "<expr>"

def description : Command → Text
  | .build =>
    "Compile every script in the scenario's source directory into its output directory.\n" ++
      "Settings come from hscx.toml or hscx.yaml in the scenario directory; " ++
      "flags override them."
  | .check => "Compile a file and report problems without writing output."
  | .print => "Compile a file and print the result."
  | .diff => "Show a unified diff between a file and its compiled form."
  | .eval => "Evaluate an expression the way constant folding does."

def operandName : Command → Text
  | .build => "directory"
  | .eval => "expression"
  | _ => "file"

def compactFlag : Flag := ⟨"compact", .truth false, "Print each declaration on one line"⟩

def unitFlags : Flags :=
  [⟨"color", .text "auto", "Colorize output: auto, always or never"⟩,
   compactFlag,
   ⟨"passes", .text "full",
     "Comma separated passes to run (macro, loop, constant_global, constant_eval, " ++
       "minimal, full, none)"⟩,
   ⟨"v", .truth false, "Log imports and passes"⟩]

def buildFlags : Flags :=
  [⟨"color", .text [], "Colorize diagnostics: auto, always or never (default from config)"⟩,
   compactFlag,
   ⟨"j", .number 0, "Files to compile in parallel (default from config)"⟩,
   ⟨"passes", .text [], "Comma separated passes to run (default from config)"⟩,
   ⟨"v", .truth false, "Log imports, passes and written files"⟩]

def flags : Command → Flags
  | .build => buildFlags
  | .eval => []
  | _ => unitFlags

def usage (c : Command) : Text :=
  "Usage: hscx " ++ c.name ++ " " ++ c.synopsis ++ "\n" ++ c.description ++ "\n\nFlags:\n" ++
    c.flags.usage

end Command

end HaloScript
