import Recompile.Config.Basic
import Recompile.FileTree.Edit
import Recompile.FileTree.Walk
import Recompile.Graph.Basic
import Recompile.State.Basic
import Recompile.Text.Quoted

/-!
# Verdicts

A run compares what its scan found with what is remembered of the unit. A file is dirty
if it cannot be read, was not known, has another fingerprint, or includes other files. A
source is compiled again if nothing is remembered, if it was no source, or if it or a
file that it reaches is dirty; each such source is given its first reason. Sources that
are no longer declared are removed. If the target of some directive is in doubt, every
file below the search roots is taken for an input.

The files on which the outcome depends can be published as a header list, one path a line in
path order.
-/

set_option autoImplicit false

namespace Recompile

/-- Why a source is compiled again. -/
inductive Reason where
  /-- Nothing is remembered of the unit. -/
  | noPreviousState
  /-- The source was not declared before. -/
  | newSource
  /-- The source cannot be read. -/
  | unreadable
  /-- The source itself is dirty. -/
  | changed
  /-- A file that the source reaches is dirty. -/
  | dependencyChanged (p : Path)
  deriving DecidableEq, Repr, Inhabited

/-- A reason in words. -/
def Reason.describe : Reason → String
  | .noPreviousState => "NoPreviousState"
  | .newSource => "NewSource"
  | .unreadable => "Unreadable"
  | .changed => "Changed"
  | .dependencyChanged p => "DependencyChanged(" ++ Text.quoted p.toString ++ ")"

namespace Scan

/-- Whether a file is as it is remembered. -/
def Agrees (s : Scan) (f : FileState) : Prop :=
  s.fingerprint = f.fingerprint ∧ PathSet.Same s.resolved f.resolved

instance (s : Scan) (f : FileState) : Decidable (s.Agrees f) :=
  inferInstanceAs (Decidable (_ ∧ _))

/-- What is to be remembered of a file. -/
def remembered (s : Scan) : FileState :=
  ⟨s.fingerprint, s.resolved⟩

end Scan

namespace Graph

/-- Whether a file of the graph is not as it is remembered. -/
def isDirty (g : Graph) (previous : State) (p : Path) : Bool :=
  match g.node? p with
  | none => false
  | some (.unreadable _) => true
  | some (.scanned s) =>
    match previous.file? p with
    | none => true
    | some f => decide (¬ s.Agrees f)

/-- The first reason to compile a source again, if there is any. Of the dirty files that
it reaches, the first in path order counts. -/
def reason? (g : Graph) (previous : Option State) (source : Path) : Option Reason :=
  match previous with
  | none => some .noPreviousState
  | some state =>
    if (g.scan? source).isNone then some .unreadable
    else if !state.isSource source then some .newSource
    else if g.isDirty state source then some .changed
    else ((g.reachable source).toList.find? (g.isDirty state)).map .dependencyChanged

end Graph

/-- The outcome of a run. -/
structure Compilation where
  /-- The sources to compile again, with the reasons. -/
  recompile : PathMap Reason
  /-- The sources whose outputs are to be deleted. -/
  removed : PathSet
  /-- The files that the build has to watch as inputs of the unit. -/
  discoveredInputs : PathSet
  /-- The include directives of each source. -/
  sourceIncludes : PathMap (List Include)
  /-- Whether the target of some directive is in doubt. -/
  usedMacroInclude : Bool
  /-- What is to be remembered for the next run. -/
  finalState : State
  /-- What the scan found. -/
  graph : Graph
  deriving DecidableEq, Repr

namespace Compilation

/-- The outcome for no source at all. -/
def empty : Compilation :=
  ⟨∅, ∅, ∅, ∅, false, .empty, ⟨∅⟩⟩

/-- The sources to compile again. -/
def toRecompile (c : Compilation) : PathSet :=
  c.recompile.map fun _ _ => ()

/-- Whether there is nothing to compile and nothing to delete. -/
def isUpToDate (c : Compilation) : Bool :=
  c.recompile.isEmpty && c.removed.isEmpty

end Compilation

namespace Config

/-- The resolver of a configuration. -/
def resolver (c : Config) : Resolver :=
  .ofRoots c.roots c.macros

/-- The scanner of a configuration. -/
def scanner (c : Config) : Scanner :=
  ⟨c.imports, c.resolver⟩

/-- The declared sources; of several spellings of one source the last stays. -/
def declared (c : Config) : PathSet :=
  .ofList c.sources

/-- The graph of a configuration. -/
def graph (c : Config) (t : FileTree) : Graph :=
  .build c.scanner t c.sources

/-- Whether some directive is in doubt, now or, as far as that can be told, still. -/
def usesMacroInclude (g : Graph) (previous : Option State) : Bool :=
  g.isUndecided || (previous.any State.usedMacroInclude && g.hasUnreadable)

/-- The files that the sources reach. -/
def reached (c : Config) (g : Graph) : List Path :=
  c.declared.toList.flatMap fun source => (g.reachable source).toList

/-- The files below the search roots, if they count as inputs. -/
def fallbackInputs (c : Config) (t : FileTree) (used : Bool) : List Path :=
  if used && c.discoverInputs then (t.filesUnder c.resolver.roots).toList else []

/-- What is remembered of a graph. -/
def stateOf (sources : PathSet) (g : Graph) (used : Bool) : State where
  sources := sources
  files := g.nodes.filterMap fun _ node => node.scan?.map Scan.remembered
  usedMacroInclude := used

/-- The outcome of a run on a file tree, given what is remembered of the unit. The paths
of the configuration are taken as they are. -/
def judge (c : Config) (t : FileTree) (previous : Option State) : Compilation :=
  let g := c.graph t
  let used := usesMacroInclude g previous
  { recompile := c.declared.filterMap fun source _ => g.reason? previous source
    removed := ((previous.map State.sources).getD ∅).diff c.declared
    discoveredInputs := PathSet.addAll ∅ (c.reached g ++ c.fallbackInputs t used)
    sourceIncludes :=
      c.declared.map fun source _ => ((g.scan? source).map Scan.includes).getD []
    usedMacroInclude := used
    finalState := stateOf c.declared g used
    graph := g }

end Config

/-! ## Header lists -/

/-- The files that the outcome of a run depends on. -/
def headersOf (t : FileTree) (c : Compilation) (roots : List Path) : PathSet :=
  if c.usedMacroInclude then c.discoveredInputs.addAll (t.filesUnder roots).toList
  else c.discoveredInputs

/-- The text of a header list. -/
def renderHeaders (headers : PathSet) : List Char :=
  headers.toList.flatMap fun p => p.chars ++ ['\n']

/-- The directory in which a header list is published. -/
def headerDirectory (p : Path) : Path :=
  match p.parent? with
  | some dir => if dir.chars = [] then .here else dir
  | none => .here

/-- Publishes a header list. -/
def writeHeaders (t : FileTree) (headers : PathSet) (p : Path) :
    FileTree × Except IoFailure Unit :=
  t.publish (headerDirectory p) p (Utf8.encode (renderHeaders headers))

end Recompile
