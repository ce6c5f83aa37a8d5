import Recompile.Cli.Run

/-!
# The disk

The outer layer between file trees and the disk of the machine. What an invocation is
going to look at is loaded into a tree, the invocation runs on the tree, and what it
changed there is written back. Files that it did not look at are never touched.
-/

set_option autoImplicit false

namespace Recompile.Disk

/-- The paths that judging the sources of a configuration looks at, as far as the files
that they are listed in are loaded. -/
def consulted (c : Config) (t : FileTree) : List Path :=
  c.sources ++ (c.graph t).nodes.keys.flatMap fun file =>
    match t.read file with
    | .ok bytes => c.resolver.consulted (Directives.ofBytes c.imports bytes) file
    | .error _ => []

/-- The paths that an invocation looks at besides. -/
def consultedBeside (o : Cli.Options) : List Path :=
  Store.recordPath o.storeRoot o.unitName
    :: o.pending.toList ++ o.commitPending.toList
    ++ (o.headerList.map fun p => [headerDirectory p, p]).getD []

/-- The location of an absolute path without `.` and `..` steps. -/
def locationOf (text : String) : Location :=
  (Path.ofString text).steps.reverse

/-- A path that leads nowhere, since no name has a NUL character. -/
def nowhere : Path :=
  ⟨['/', '\x00']⟩

/-- What the disk has under a name in a directory. -/
def entryAt (dir : Location) (name : Name) : IO (Option Entry) := do
  let place := (IO.FS.DirEntry.mk (FileTree.pathOf dir).toString (String.ofList name)).path
  try
    match (← place.symlinkMetadata).type with
    | .dir => return some .directory
    | .file =>
      try return some (.file (← IO.FS.readBinFile place).toList)
      catch _ => return some .locked
    | .symlink =>
      try return some (.link (.ofString (← IO.FS.realPath place).toString))
      catch _ => return some (.link nowhere)
    | .other => return none
  catch _ => return none

/-- Loads all that following a path meets. -/
partial def load (t : FileTree) (p : Path) : IO FileTree := do
  let start := if p.isAbsolute then Path.ofString "/" else t.workingPath
  let mut t := t
  let mut reached := start
  for step in p.steps do
    reached := reached.join ⟨step⟩
    match t.walk false reached with
    | .before dir name =>
      if (t.entry? (name :: dir)).isNone then
        match ← entryAt dir name with
        | none => return t
        | some entry =>
          t := t.put (name :: dir) entry
          if let .link target := entry then t ← load t target
    | .inside _ => pure ()
    | _ => return t
  return t

/-- Loads the names of all files below a directory, without their contents. -/
partial def loadNames (t : FileTree) (p : Path) : IO FileTree := do
  let mut t ← load t p
  if !t.isDirectory p then return t
  let place := (IO.FS.DirEntry.mk t.workingPath.toString p.toString).path
  let children ← try place.readDir catch _ => pure #[]
  for child in children do
    let q := p.join (.ofString child.fileName)
    match (← child.path.symlinkMetadata).type with
    | .file =>
      if let .before dir name := t.walk false q then
        if (t.entry? (name :: dir)).isNone then t := t.put (name :: dir) (.file [])
    | .dir => t ← loadNames t q
    | _ => t ← load t q
  return t

/-- Loads all that a configuration looks at: what is loaded shows what to load next. -/
partial def settle (t : FileTree) (c : Config) : IO FileTree := do
  let t' ← (consulted c t).foldlM load t
  if t'.entries.length = t.entries.length then return t' else settle t' c

/-- The part of the disk that an invocation looks at. -/
def snapshot (o : Cli.Options) : IO FileTree := do
  let t := FileTree.bare (locationOf (← IO.currentDir).toString)
  let t ← (consultedBeside o).foldlM load t
  match o.config.normalized t.workingPath with
  | .error _ => return t
  | .ok c =>
    let t ← settle t c
    let w : Workspace := ⟨t, .directory o.storeRoot⟩
    if (c.judge t (w.previous c)).usedMacroInclude then c.roots.foldlM loadNames t
    else return t

/-- Writes what has changed between two trees to the disk; a changed file appears under
its name as a whole. -/
def save (before after : FileTree) : IO Unit := do
  for e in before.entries do
    if (after.entry? e.1).isNone then IO.FS.removeFile (FileTree.pathOf e.1).toString
  for e in after.entries.mergeSort fun a b => decide (a.1.length ≤ b.1.length) do
    if before.entry? e.1 ≠ some e.2 then
      let place := (FileTree.pathOf e.1).toString
      match e.2 with
      | .directory => IO.FS.createDirAll place
      | .file bytes =>
        IO.FS.writeBinFile (place ++ ".new") ⟨bytes.toArray⟩
        IO.FS.rename (place ++ ".new") place
      | .locked | .link _ => pure ()

end Recompile.Disk
