import Recompile.Proofs.Config.Normal
import Recompile.Proofs.Store.Order

/-!
# One run of a unit

A run judges its normalised configuration by what the store has for its unit, and commits
what is to be remembered. With a store that takes states the run of a valid configuration
succeeds (`Workspace.Working.execute_eq`).
-/

set_option autoImplicit false

namespace Recompile

namespace Workspace

variable {w w' : Workspace} {c n : Config} {result : Compilation} {committed : Committed}

/-- A run judges its normalised configuration and commits the outcome. -/
theorem execute_eq_ok (h : w.execute c = (w', .ok (result, committed))) :
    ∃ n, c.normalized w.tree.workingPath = .ok n ∧
      result = n.judge w.tree (w.previous n) ∧
      w' = (w.commit c.unit result.finalState).1 := by
  unfold execute process at h
  cases hn : c.normalized w.tree.workingPath with
  | error e =>
    rw [hn] at h
    cases h
  | ok n =>
    rw [hn] at h
    cases h
    exact ⟨n, rfl, rfl, rfl⟩

/-- Executing a configuration with a normal form judges it and commits the state. -/
theorem execute_of_normalized (h : c.normalized w.tree.workingPath = .ok n) :
    w.execute c =
      let result := n.judge w.tree (w.previous n)
      ((w.commit c.unit result.finalState).1,
        .ok (result, (w.commit c.unit result.finalState).2)) := by
  simp only [execute, process, h]

/-- A configuration that is refused leaves the workspace as it was. -/
theorem execute_eq_error {e : ConfigError} (h : w.execute c = (w', .error e)) : w' = w := by
  unfold execute at h
  split at h
  · cases h
    rfl
  · cases h

/-- What a run uses is what the store has for its unit. -/
theorem state?_of_previous {state : State} (h : w.previous n = some state) :
    w.state? n.unit = some state := by
  unfold previous at h
  split at h
  · exact h
  · cases h

/-- An incremental run goes by the state in the store. -/
theorem previous_of_incremental (h : n.mode = .incremental) : w.previous n = w.state? n.unit := by
  unfold previous
  rw [h]
  rfl

/-- With a store that takes states a valid configuration is judged by the state of its unit,
and the outcome is stored. -/
theorem Working.execute_eq (working : w.Working) (mode : c.mode = .incremental)
    (normalized : c.normalized w.tree.workingPath = .ok n) :
    w.execute c =
      let result := n.judge w.tree (w.state? c.unit)
      ((w.commit c.unit result.finalState).1, .ok (result, .stored)) := by
  have hmode : n.mode = .incremental := (Config.mode_of_normalized normalized).trans mode
  rw [execute_of_normalized normalized, previous_of_incremental hmode,
    Config.unit_of_normalized normalized]
  dsimp only
  rw [working.commit_eq]

end Workspace

end Recompile
