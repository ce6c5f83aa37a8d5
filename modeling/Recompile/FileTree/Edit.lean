import Recompile.FileTree.Lookup

/-!
# Changing a file tree

Each operation either gives the changed tree or says why it cannot be done; only
making a chain of directories may stop half way, so it gives the tree in both cases.
A file is published by `FileTree.publish`: its directory is made first, the whole content
is written to a temporary file in that directory, and the temporary file takes the place of
whatever has the name of the file, so nobody sees a part of it. What a temporary file does
to the tree in between is left out here; that its path must not be too long is not.
-/

set_option autoImplicit false

namespace Recompile

/-- An access that failed, and the path it was meant for. -/
structure IoFailure where
  path : Path
  error : OsError
  deriving DecidableEq, Repr

namespace FileTree

/-- Gives a file its content, through links; a missing file is made if its directory
is there. -/
def write (t : FileTree) (p : Path) (bytes : List UInt8) : Except OsError FileTree :=
  match t.walk true p with
  | .inside _ => .error .isDirectory
  | .before dir n =>
    match t.entry? (n :: dir) with
    | some .directory => .error .isDirectory
    | some .locked => .error .permissionDenied
    | _ => .ok (t.put (n :: dir) (.file bytes))
  | .link _ _ _ => .error .tooManyLinks
  | .failed e => .error e

/-- Makes one directory. -/
def makeDirectory (t : FileTree) (p : Path) : Except OsError FileTree :=
  match t.walkToLast p with
  | .inside _ => .error .exists
  | .before dir n =>
    match t.entry? (n :: dir) with
    | some _ => .error .exists
    | none => .ok (t.put (n :: dir) .directory)
  | .link _ _ _ => .error .tooManyLinks
  | .failed e => .error e

/-- Makes a link; what it leads to need not exist. -/
def makeLink (t : FileTree) (p target : Path) : Except OsError FileTree :=
  match t.walkToLast p with
  | .inside _ => .error .exists
  | .before dir n =>
    match t.entry? (n :: dir) with
    | some _ => .error .exists
    | none => .ok (t.put (n :: dir) (.link target))
  | .link _ _ _ => .error .tooManyLinks
  | .failed e => .error e

/-- Removes a file or a link. -/
def unlink (t : FileTree) (p : Path) : Except OsError FileTree :=
  match t.walk false p with
  | .inside _ => .error .isDirectory
  | .before dir n =>
    match t.entry? (n :: dir) with
    | some .directory => .error .isDirectory
    | some _ => .ok (t.erase (n :: dir))
    | none => .error .notFound
  | .link _ _ _ => .error .tooManyLinks
  | .failed e => .error e

/-- Removes what a location holds and all that is below it, unless the working directory is
there. -/
def removeAt (t : FileTree) (loc : Location) : Except OsError FileTree :=
  if loc <:+ t.workingDir then .error .busy else .ok (t.erase loc)

/-- Removes a file, a link or a directory with all that is in it. -/
def remove (t : FileTree) (p : Path) : Except OsError FileTree :=
  match t.walk false p with
  | .inside dir => t.removeAt dir
  | .before dir n =>
    match t.entry? (n :: dir) with
    | some _ => t.removeAt (n :: dir)
    | none => .error .notFound
  | .link _ _ _ => .error .tooManyLinks
  | .failed e => .error e

/-- Puts a complete file in the place of the file or link that has its name. A new name
with a NUL character is refused as an argument before any file is looked at. -/
def replace (t : FileTree) (p : Path) (bytes : List UInt8) : Except OsError FileTree :=
  if '\x00' ∈ p.chars then .error .invalidArgument
  else
    match t.walkToLast p with
    | .inside _ => .error .busy
    | .before dir n =>
      if p.endsWithSlash then .error .notDirectory
      else
        match t.entry? (n :: dir) with
        | some .directory => .error .isDirectory
        | _ => .ok (t.put (n :: dir) (.file bytes))
    | .link _ _ _ => .error .tooManyLinks
    | .failed e => .error e

/-- Makes a directory and those above it that are missing, over at most the given
number of levels. -/
def makeDirectoriesWithin (t : FileTree) : Nat → Path → FileTree × Except OsError Unit
  | 0, _ => (t, .ok ())
  | levels + 1, p =>
    if p.chars = [] then (t, .ok ())
    else
      match t.makeDirectory p with
      | .ok t' => (t', .ok ())
      | .error .notFound =>
        match p.parent? with
        | none => (t, .error .rootless)
        | some above =>
          match t.makeDirectoriesWithin levels above with
          | (t', .error e) => (t', .error e)
          | (t', .ok ()) =>
            match t'.makeDirectory p with
            | .ok t'' => (t'', .ok ())
            | .error e => (t', if t'.isDirectory p then .ok () else .error e)
      | .error e => (t, if t.isDirectory p then .ok () else .error e)

/-- Makes a directory and those above it that are missing. Each level is shorter than
the one below it, so the length of the path bounds their number. -/
def makeDirectories (t : FileTree) (p : Path) : FileTree × Except OsError Unit :=
  t.makeDirectoriesWithin (p.chars.length + 1) p

/-- A name for a temporary file: a fixed beginning and six characters, whichever is free. -/
def temporaryName : Name :=
  ".tmpXXXXXX".toList

/-- The path of a temporary file in a directory. It is absolute, so that it stays the path of
this file. -/
def temporaryPath (t : FileTree) (dir : Path) (name : Name) : Path :=
  (t.workingPath.join dir).join ⟨name⟩

/-- Publishes a file in a directory, which is made if it is missing. -/
def publish (t : FileTree) (dir p : Path) (bytes : List UInt8) :
    FileTree × Except IoFailure Unit :=
  match t.makeDirectories dir with
  | (t', .error e) => (t', .error ⟨dir, e⟩)
  | (t', .ok ()) =>
    match (t'.temporaryPath dir temporaryName).refusal? with
    | some e => (t', .error ⟨dir, e⟩)
    | none =>
      match t'.replace p bytes with
      | .ok t'' => (t'', .ok ())
      | .error e => (t', .error ⟨p, e⟩)

end FileTree

end Recompile
