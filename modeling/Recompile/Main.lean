import Recompile.Disk
import Recompile.Notice

/-!
# The command

The command tells which sources of a build unit have to be compiled again. This
module only connects a command line with the disk and the terminal.
-/

set_option autoImplicit false

namespace Recompile.Cli

/-- The options and what they are for. -/
def optionTexts : List (String × String) :=
  [
    ("-u, --unit <UNIT>",
      "Build unit identity (state is kept per unit)"),
    ("-I, --include <DIR>",
      "Header search root, in search order (repeatable)"),
    ("-D, --define <NAME[=VALUE]>",
      "Macro definition NAME or NAME=VALUE (repeatable)"),
    ("    --imports-are-includes",
      "Treat #import like #include"),
    ("    --state-dir <STATE_DIR>",
      "Directory holding persisted compilation state [default: .native-state]"),
    ("    --clean",
      "Ignore previous state and recompile everything"),
    ("    --no-discover-inputs",
      "Do not expand search roots into inputs when a macro include is used"),
    ("-j, --jobs <JOBS>",
      "Parser worker threads"),
    ("    --header-deps <FILE>",
      "Write the sorted header dependency list to this file"),
    ("    --dry-run",
      "Compute the verdict without persisting state"),
    ("    --pending <FILE>",
      "Do not persist state now; write it to FILE for a later --commit-pending"),
    ("    --commit-pending <FILE>",
      "Persist the state written by an earlier --pending run, then delete FILE"),
    ("    --json",
      "Print the verdict as JSON"),
    ("-h, --help",
      "Print help"),
    ("-V, --version",
      "Print version")
  ]

/-- How the command is used. -/
def helpText : String :=
  let width := 29
  let row (o : String × String) : String :=
    "  " ++ o.1 ++ String.ofList (List.replicate (width - o.1.length) ' ') ++ o.2
  String.intercalate "\n"
    (["Incremental include discovery for C/C++ builds", "",
      "Usage: native-depend [OPTIONS] --unit <UNIT> [SOURCES]...", "",
      "Arguments:", "  [SOURCES]...  Source files to compile", "", "Options:"]
      ++ optionTexts.map row ++ [""])

/-- The wording of a failure. -/
def Failure.message : Failure → String
  | .config e => e.message
  | .io f => f.message
  | .os e => e.message
  | .undecodable => "the pending state cannot be decoded"

end Recompile.Cli

open Recompile

/-- Runs the command line on the disk. -/
def main (arguments : List String) : IO UInt32 := do
  let before ← match Cli.Request.ofArguments arguments with
    | .run o => Disk.snapshot o
    | _ => pure (FileTree.bare [])
  let (after, outcome) := Cli.run before arguments
  Disk.save before after
  match outcome with
  | .help => IO.print Cli.helpText
  | .version => IO.print Cli.versionText
  | .misuse => IO.eprintln "error: the arguments make no sense; try '--help'"
  | .failed f => IO.eprintln ("Error: " ++ f.message)
  | .printed text => IO.print (String.ofList text)
  return UInt32.ofNat outcome.exitCode
