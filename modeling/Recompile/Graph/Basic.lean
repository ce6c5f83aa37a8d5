import Recompile.Digest
import Recompile.Directive.Parser
import Recompile.Path.Map
import Recompile.Resolver

/-!
# The include graph

The graph has one node for each source and for each file that is included, directly or
through others: what its scan showed, or why it could not be read. Nothing is known
about the includes of a file that could not be read, so no edge leaves it.

Paths are visited wave by wave: a wave is what the wave before it named and no wave has
visited. Each path is visited once, and the exploration ends with the first wave that is empty.
Both the scan of a file with all that it includes and the question which files a file reaches
are explorations. The length of a path is limited, so only finitely many files can be included,
and the scan ends after at most `Graph.waveLimit` waves.
-/

set_option autoImplicit false

namespace Recompile

/-! ## Exploring in waves -/

section Exploring

variable {α : Type}

/-- Adds what the paths of a wave show. -/
def visitWave (visit : Path → α) (seen : PathMap α) (wave : PathSet) : PathMap α :=
  seen.insertAll (wave.toList.map fun p => (p, visit p))

/-- The paths that a wave names and nothing has visited. -/
def nextWave (visit : Path → α) (next : α → List Path) (seen : PathMap α) (wave : PathSet) :
    PathSet :=
  PathMap.filter (PathSet.addAll ∅ (wave.toList.flatMap fun p => next (visit p)))
    fun p _ => !seen.contains p

/-- Visits a wave and at most the given number of waves after it. -/
def explore (visit : Path → α) (next : α → List Path) :
    Nat → PathMap α → PathSet → PathMap α
  | 0, seen, wave => visitWave visit seen wave
  | waves + 1, seen, wave =>
    if wave.isEmpty then seen
    else
      let seen := visitWave visit seen wave
      explore visit next waves seen (nextWave visit next seen wave)

end Exploring

/-! ## Nodes -/

/-- What the scan of a file showed. -/
structure Scan where
  fingerprint : Fingerprint
  /-- The include directives, in the order of their lines. -/
  includes : List Include
  /-- The files to which they lead. -/
  resolved : PathSet
  /-- Whether the target of a directive is in doubt. -/
  undecided : Bool
  deriving DecidableEq, Repr

/-- What is known about a file. -/
inductive Node where
  | scanned (s : Scan)
  | unreadable (e : OsError)
  deriving DecidableEq, Repr

namespace Node

/-- The scan of a file that could be read. -/
def scan? : Node → Option Scan
  | .scanned s => some s
  | .unreadable _ => none

/-- The files that a file includes. -/
def resolved : Node → List Path
  | .scanned s => s.resolved.toList
  | .unreadable _ => []

/-- Whether a file could not be read. -/
def isUnreadable : Node → Bool
  | .scanned _ => false
  | .unreadable _ => true

/-- Whether a file has a directive in doubt. -/
def isUndecided : Node → Bool
  | .scanned s => s.undecided
  | .unreadable _ => false

end Node

/-- How files are scanned: whether `#import` is an include, and how directives are
resolved. -/
structure Scanner where
  imports : Bool
  resolver : Resolver
  deriving DecidableEq, Repr

namespace Scanner

/-- The scan of a file with the given content. -/
def scanBytes (s : Scanner) (t : FileTree) (file : Path) (bytes : List UInt8) : Scan :=
  let ds := Directives.ofBytes s.imports bytes
  let results := (s.resolver.resolveAll t ds file).map Prod.snd
  { fingerprint := .ofBytes bytes
    includes := ds.includes
    resolved := PathSet.ofList (results.filterMap Resolution.file?)
    undecided := results.any (· == .undecided) }

/-- The node of a file. -/
def scanFile (s : Scanner) (t : FileTree) (file : Path) : Node :=
  match t.read file with
  | .ok bytes => .scanned (s.scanBytes t file bytes)
  | .error e => .unreadable e

end Scanner

/-- The nodes of the files that a scan came to. -/
structure Graph where
  nodes : PathMap Node
  deriving DecidableEq, Repr

namespace Graph

/-- More waves than any scan has: each but the last one finds a path of fewer than 4096
characters that no wave has found before. -/
def waveLimit : Nat :=
  Nat.pow 0x110000 Path.byteLimit

/-- Scans sources and all that they include. -/
def build (s : Scanner) (t : FileTree) (sources : List Path) : Graph :=
  ⟨explore (s.scanFile t) Node.resolved waveLimit ∅ (.ofList sources)⟩

/-- The node of a file that the scan came to. -/
def node? (g : Graph) (p : Path) : Option Node :=
  g.nodes.get? p

/-- The scan of a file that the scan came to and could read. -/
def scan? (g : Graph) (p : Path) : Option Scan :=
  (g.node? p).bind Node.scan?

/-- Whether some file could not be read. -/
def hasUnreadable (g : Graph) : Bool :=
  g.nodes.values.any Node.isUnreadable

/-- Whether some file has a directive in doubt. -/
def isUndecided (g : Graph) : Bool :=
  g.nodes.values.any Node.isUndecided

/-- The files that a file includes, other than the given one. -/
def resolvedBeside (root : Path) (node : Option Node) : List Path :=
  ((node.map Node.resolved).getD []).filter fun p => ¬ p.Same root

/-- The number of edges. -/
def edgeCount (g : Graph) : Nat :=
  (g.nodes.values.flatMap Node.resolved).length

/-- The files that a file includes, directly or through others, other than itself. -/
def reachable (g : Graph) (root : Path) : PathSet :=
  (explore g.node? (resolvedBeside root) g.edgeCount ∅
    (PathSet.addAll ∅ (resolvedBeside root (g.node? root)))).map fun _ _ => ()

end Graph

end Recompile
