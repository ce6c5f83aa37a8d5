import Recompile.Digest
import Recompile.Path.Map

/-!
# Compilation states

What is remembered of a build unit from one run to the next: its sources, the
fingerprint of each file that its scan came to with the files that were included by it,
and whether the target of some directive was in doubt.
-/

set_option autoImplicit false

namespace Recompile

/-- What is remembered of a file. -/
structure FileState where
  fingerprint : Fingerprint
  /-- The files to which its include directives led. -/
  resolved : PathSet
  deriving DecidableEq, Repr

/-- What is remembered of a build unit. -/
structure State where
  sources : PathSet
  files : PathMap FileState
  usedMacroInclude : Bool
  deriving DecidableEq, Repr

namespace State

/-- The state of a unit without any source. -/
def empty : State :=
  ⟨∅, ∅, false⟩

instance : Inhabited State :=
  ⟨empty⟩

/-- What is remembered of a file. -/
def file? (s : State) (p : Path) : Option FileState :=
  s.files.get? p

/-- Whether a path was a source. -/
def isSource (s : State) (p : Path) : Bool :=
  s.sources.contains p

end State

end Recompile
