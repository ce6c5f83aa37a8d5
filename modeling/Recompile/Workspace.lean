import Recompile.Store.Basic
import Recompile.Verdict

/-!
# Running a unit

A run loads what is remembered of its unit, judges the sources and, if it is to be
committed, stores the new state. A state that cannot be stored must not leave the old one
behind, since the next run would trust it: it is forgotten instead.
-/

set_option autoImplicit false

namespace Recompile

/-- What became of a state that was to be stored. -/
inductive Committed where
  | stored
  /-- It could not be stored, so the unit has no state now. -/
  | forgotten (e : StoreError)
  /-- It could neither be stored nor could the old one be removed. -/
  | stuck (save forget : StoreError)
  deriving DecidableEq, Repr

namespace Workspace

/-- Stores the state of a unit, or else forgets what the store has for it. -/
def commit (w : Workspace) (unit : String) (s : State) : Workspace × Committed :=
  match w.save unit s with
  | (w', .ok ()) => (w', .stored)
  | (w', .error e) =>
    match w'.forget unit with
    | (w'', .ok ()) => (w'', .forgotten e)
    | (w'', .error e') => (w'', .stuck e e')

/-- What may be used of what the store has for the unit of a configuration. -/
def previous (w : Workspace) (c : Config) : Option State :=
  match c.mode with
  | .incremental => (w.load c.unit).state?
  | .clean => none

/-- The outcome of a run, nothing being stored. -/
def process (w : Workspace) (c : Config) : Except ConfigError Compilation :=
  match c.normalized w.tree.workingPath with
  | .error e => .error e
  | .ok n => .ok (n.judge w.tree (w.previous n))

/-- Runs a unit and commits the new state. -/
def execute (w : Workspace) (c : Config) :
    Workspace × Except ConfigError (Compilation × Committed) :=
  match w.process c with
  | .error e => (w, .error e)
  | .ok result =>
    let (w', committed) := w.commit c.unit result.finalState
    (w', .ok (result, committed))

end Workspace

end Recompile
