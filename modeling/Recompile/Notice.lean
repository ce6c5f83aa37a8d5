import Recompile.Verdict
import Recompile.Workspace

/-!
# Notices

What a run tells its user on the way. A notice is made from the outcome of an operation
and never takes part in it.
-/

set_option autoImplicit false

namespace Recompile

/-- The wording of a failed access. -/
def IoFailure.message (f : IoFailure) : String :=
  "IO error on " ++ f.path.toString ++ ": " ++ f.error.message

/-- The wording of an error in a configuration. -/
def ConfigError.message : ConfigError → String
  | .emptyUnit => "Invalid configuration: unit id must not be empty"
  | .noWorkers => "Invalid configuration: max_parallel must be at least 1"
  | .noAbsolutePath p =>
    "IO error on " ++ p.toString ++ ": cannot make an empty path absolute"

/-- The wording of an error of a store. -/
def StoreError.message : StoreError → String
  | .io f => f.message
  | .full => "State store error: disk full"

/-- The wording of a defect. The cause why a document cannot be decoded is left open. -/
def Defect.message : Defect → String
  | .unreadable p e => "failed to read " ++ p.toString ++ ": " ++ e.message
  | .undecodable p => "failed to decode " ++ p.toString
  | .otherVersion version =>
    "format version " ++ Text.decimal version ++ " does not match "
      ++ Text.decimal Record.currentVersion
  | .otherUnit unit => "record belongs to unit '" ++ unit ++ "'"

/-- How much a notice matters. -/
inductive Level where
  | info
  | warning
  deriving DecidableEq, Repr

/-- Something that a run tells its user. -/
inductive Notice where
  | unreadableFile (p : Path) (e : OsError)
  | inexactInputs
  | rootAsInputs (root : Path)
  | processed (sources files recompiled removed inputs : Nat)
  | cleanRequested (unit : String)
  | macroIncludeUsed (unit : String)
  | noPreviousState (unit : String)
  | stateDiscarded (unit : String) (d : Defect)
  | saveFailed (unit : String) (e : StoreError)
  | forgetFailed (unit : String) (e : StoreError)
  | rootAsHeaders (root : Path)
  deriving DecidableEq, Repr

namespace Notice

/-- How much a notice matters. -/
def level : Notice → Level
  | .unreadableFile _ _ | .stateDiscarded _ _ | .saveFailed _ _ | .forgetFailed _ _ => .warning
  | _ => .info

/-- The wording of a notice. -/
def message : Notice → String
  | .unreadableFile p e =>
    "Cannot read " ++ p.toString ++ ": " ++ e.message
      ++ "; treating its dependencies as unknown"
  | .inexactInputs =>
    "Cannot calculate the exact set of include files; every file in the include search path "
      ++ "is considered an input"
  | .rootAsInputs root => "Adding files in " ++ root.toString ++ " to discovered inputs"
  | .processed sources files recompiled removed inputs =>
    "Processed " ++ Text.decimal sources ++ " sources (" ++ Text.decimal files ++ " files): "
      ++ Text.decimal recompiled ++ " to recompile, " ++ Text.decimal removed ++ " removed, "
      ++ Text.decimal inputs ++ " discovered inputs"
  | .cleanRequested unit => "Clean compile requested for " ++ unit ++ "; ignoring previous state"
  | .macroIncludeUsed unit =>
    "Macro include used in " ++ unit ++ "; include search paths are treated as inputs"
  | .noPreviousState unit => "No previous compilation state for " ++ unit
  | .stateDiscarded unit d =>
    "Discarding unreadable compilation state for " ++ unit ++ ": " ++ d.message
  | .saveFailed unit e => "Failed to store compilation state for " ++ unit ++ ": " ++ e.message
  | .forgetFailed unit e =>
    "Failed to invalidate compilation state for " ++ unit ++ ": " ++ e.message
  | .rootAsHeaders root => "Adding files in " ++ root.toString ++ " to header dependencies"

/-- A notice as a line of a log. -/
def line (n : Notice) : String :=
  match n.level with
  | .info => "INFO " ++ n.message
  | .warning => "WARN " ++ n.message

/-- What the scan of a graph tells. -/
def ofGraph (g : Graph) : List Notice :=
  g.nodes.entries.filterMap fun e =>
    match e.2 with
    | .unreadable cause => some (.unreadableFile e.1 cause)
    | .scanned _ => none

/-- What loading the state of a unit tells. Only files are spoken of. -/
def ofLoad (store : Store) (unit : String) (loaded : Loaded) : List Notice :=
  match store, loaded with
  | .directory _, .missing => [.noPreviousState unit]
  | .directory _, .discarded d => [.stateDiscarded unit d]
  | _, _ => []

/-- What the judgement of sources tells. -/
def ofJudgement (c : Config) (result : Compilation) : List Notice :=
  ofGraph result.graph
    ++ (if result.usedMacroInclude && c.discoverInputs then
      .inexactInputs :: c.resolver.roots.map .rootAsInputs else [])
    ++ [.processed c.declared.size result.graph.nodes.size result.recompile.size
      result.removed.size result.discoveredInputs.size]

/-- What a commit tells. -/
def ofCommit (unit : String) : Committed → List Notice
  | .stored => []
  | .forgotten e => [.saveFailed unit e]
  | .stuck e e' => [.saveFailed unit e, .forgetFailed unit e']

/-- What a run tells before anything is stored. -/
def ofProcess (w : Workspace) (c : Config) : List Notice :=
  match c.normalized w.tree.workingPath with
  | .error _ => []
  | .ok n =>
    let result := n.judge w.tree (w.previous n)
    (match n.mode with
      | .incremental => ofLoad w.store n.unit (w.load n.unit)
      | .clean => [.cleanRequested n.unit])
    ++ ofJudgement n result
    ++ (if result.usedMacroInclude then [.macroIncludeUsed n.unit] else [])

/-- What listing headers tells. -/
def ofHeaders (c : Compilation) (roots : List Path) : List Notice :=
  if c.usedMacroInclude then roots.map .rootAsHeaders else []

end Notice

end Recompile
