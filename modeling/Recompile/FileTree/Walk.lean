import Recompile.FileTree.Lookup
import Recompile.Path.Map

/-!
# The files below a directory

All regular files below given roots, links followed. A link that leads nowhere is
skipped, and so is one that leads back to a directory on the way from the root to it,
so the walk ends. A directory whose path is too long to be opened is skipped as well; a
file is listed however long its path is, since the directory names it. A root that is
missing has no files, and one that is a file is its own only file.
-/

set_option autoImplicit false

namespace Recompile.FileTree

/-- The files below a directory that is reached by a path, at most the given number of
levels down. `above` has the directories on the way, this one included. -/
def filesBelow (t : FileTree) : Nat → List Location → Path → Location → List Path
  | 0, _, _, _ => []
  | levels + 1, above, path, dir =>
    (t.children dir).flatMap fun child =>
      let p := path.join ⟨child.1⟩
      match child.2 with
      | .file _ | .locked => [p]
      | .directory =>
        if p.refusal?.isSome then []
        else t.filesBelow levels ((child.1 :: dir) :: above) p (child.1 :: dir)
      | .link _ =>
        match t.find p with
        | .ok (_, .file _) | .ok (_, .locked) => [p]
        | .ok (loc, .directory) =>
          if loc ∈ above then [] else t.filesBelow levels (loc :: above) p loc
        | _ => []

/-- More levels than any walk goes down: between two links it goes down real
directories, and no two links on the way lead to one directory. -/
def walkLevels (t : FileTree) : Nat :=
  (t.entries.length + 2) * (t.entries.length + 2)

/-- The files below one root. -/
def filesAt (t : FileTree) (root : Path) : List Path :=
  match t.find root with
  | .ok (_, .file _) | .ok (_, .locked) => [root]
  | .ok (loc, .directory) => t.filesBelow t.walkLevels [loc] root loc
  | _ => []

/-- The files below any of the roots. -/
def filesUnder (t : FileTree) (roots : List Path) : PathSet :=
  PathSet.ofList (roots.flatMap t.filesAt)

end Recompile.FileTree
