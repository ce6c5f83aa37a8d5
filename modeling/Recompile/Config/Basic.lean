import Recompile.FileTree.Error
import Recompile.Path.Map
import Recompile.Text.Basic

/-!
# Configurations

What a build says about one run of one unit, and what makes a configuration valid.
Normalising checks it and makes all paths absolute: the sources become sorted and
distinct, the search roots keep their order and lose repetitions.
-/

set_option autoImplicit false

namespace Recompile

/-- Whether what is remembered of a unit may be used. -/
inductive CompileMode where
  | incremental
  /-- All sources are compiled again. -/
  | clean
  deriving DecidableEq, Repr, Inhabited

/-- The input of one run. -/
structure Config where
  unit : String
  /-- The search roots, in the order of the search. -/
  roots : List Path
  sources : List Path
  /-- Macros given on the command line of the compiler. -/
  macros : List (String × String)
  /-- Whether `#import` is an include. -/
  imports : Bool
  mode : CompileMode
  /-- Whether all files below the search roots become inputs when a macro is in doubt. -/
  discoverInputs : Bool
  /-- How many files may be scanned at a time; this changes no answer. -/
  maxParallel : Option Nat
  deriving DecidableEq, Repr

/-- Why a configuration is refused. -/
inductive ConfigError where
  | emptyUnit
  | noWorkers
  /-- A path has no absolute form. -/
  | noAbsolutePath (p : Path)
  deriving DecidableEq, Repr

namespace Config

/-- The configuration of a unit with nothing declared. -/
def ofUnit (unit : String) : Config where
  unit := unit
  roots := []
  sources := []
  macros := []
  imports := false
  mode := .incremental
  discoverInputs := true
  maxParallel := none

/-- A configuration with one more macro, in place of one with the same name. -/
def addMacro (c : Config) (name value : String) : Config :=
  { c with macros := c.macros.filter (fun m => m.1 ≠ name) ++ [(name, value)] }

/-- The absolute forms of paths. -/
def absolutes (workingDir : Path) (ps : List Path) : Except ConfigError (List Path) :=
  ps.mapM fun p =>
    match p.absolute? workingDir with
    | some q => .ok q
    | none => .error (.noAbsolutePath p)

/-- The configuration with absolute paths, if it is valid. -/
def normalized (workingDir : Path) (c : Config) : Except ConfigError Config :=
  if Text.trim c.unit.toList = [] then .error .emptyUnit
  else if c.maxParallel = some 0 then .error .noWorkers
  else do
    let roots ← absolutes workingDir c.roots
    let sources ← absolutes workingDir c.sources
    .ok { c with
      roots := Path.distinct roots
      sources := (PathSet.addAll ∅ sources).toList }

end Config

end Recompile
