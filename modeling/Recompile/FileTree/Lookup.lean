import Recompile.FileTree.Basic
import Recompile.FileTree.Error

/-!
# Finding what a path leads to

A path is followed name by name. Every name but the last has to be a directory or a
link to one; a `..` step goes to the directory above the one reached, so `x/..` needs a
directory `x`. A link is replaced by its target, at most forty times in one access. A
trailing slash asks for a directory, which is why it counts as one more `.` step.
-/

set_option autoImplicit false

namespace Recompile

namespace Path

/-- The steps of a path, `.` and `..` included. -/
def steps (p : Path) : List Name :=
  (pieces p.chars).filter (· ≠ [])

/-- The steps of a path that has to lead to something: a trailing slash is a step into
the directory before it. -/
def lookupSteps (p : Path) : List Name :=
  if p.endsWithSlash then p.steps ++ [['.']] else p.steps

/-- Why no access can begin with a path, if so. -/
def refusal? (p : Path) : Option OsError :=
  if '\x00' ∈ p.chars then some .nulCharacter
  else if p.chars = [] then some .notFound
  else if byteLimit ≤ byteSize p.chars then some .nameTooLong
  else none

end Path

namespace FileTree

/-- Where following a path comes to a halt. -/
inductive Halt where
  /-- In a directory, after a `.` or `..` step or no step at all. -/
  | inside (dir : Location)
  /-- Before the last name, which stands in the given directory. -/
  | before (dir : Location) (name : Name)
  /-- At a link in the given directory, with the steps that are left after it. -/
  | link (dir : Location) (target : Path) (rest : List Name)
  | failed (e : OsError)
  deriving DecidableEq, Repr

/-- The most links that one access follows. -/
def linkLimit : Nat :=
  40

/-- Follows steps from a directory up to the first link. A link at the end counts only
if `last` says so. -/
def advance (t : FileTree) (last : Bool) : Location → List Name → Halt
  | dir, [] => .inside dir
  | dir, ['.'] :: rest => t.advance last dir rest
  | dir, ['.', '.'] :: rest => t.advance last dir.tail rest
  | dir, n :: rest =>
    if Path.nameByteLimit < Path.byteSize n then .failed .nameTooLong
    else
      match t.entry? (n :: dir), rest with
      | some (.link target), [] => if last then .link dir target [] else .before dir n
      | _, [] => .before dir n
      | some (.link target), rest => .link dir target rest
      | some .directory, rest => t.advance last (n :: dir) rest
      | some (.file _), _ | some .locked, _ => .failed .notDirectory
      | none, _ => .failed .notFound

/-- The directory in which a path starts. -/
def origin (dir : Location) (p : Path) : Location :=
  if p.isAbsolute then [] else dir

/-- Follows steps from a directory, through as many links as the number allows. -/
def follow (t : FileTree) (last : Bool) : Nat → Location → List Name → Halt
  | 0, dir, steps =>
    match t.advance last dir steps with
    | .link _ _ _ => .failed .tooManyLinks
    | halt => halt
  | links + 1, dir, steps =>
    match t.advance last dir steps with
    | .link d target rest => t.follow last links (origin d target) (target.lookupSteps ++ rest)
    | halt => halt

/-- Follows a path that has to lead to something. -/
def walk (t : FileTree) (last : Bool) (p : Path) : Halt :=
  match p.refusal? with
  | some e => .failed e
  | none => t.follow last linkLimit (origin t.workingDir p) p.lookupSteps

/-- Follows a path to the place of its last name; slashes at its end do not count. -/
def walkToLast (t : FileTree) (p : Path) : Halt :=
  match p.refusal? with
  | some e => .failed e
  | none => t.follow false linkLimit (origin t.workingDir p) p.steps

/-- What a path leads to, all links followed, and where that is. -/
def find (t : FileTree) (p : Path) : Except OsError (Location × Entry) :=
  match t.walk true p with
  | .inside dir => .ok (dir, .directory)
  | .before dir n =>
    match t.entry? (n :: dir) with
    | some entry => .ok (n :: dir, entry)
    | none => .error .notFound
  | .link _ _ _ => .error .tooManyLinks
  | .failed e => .error e

/-- The bytes of the file that a path leads to. -/
def read (t : FileTree) (p : Path) : Except OsError (List UInt8) :=
  match t.find p with
  | .ok (_, .file bytes) => .ok bytes
  | .ok (_, .locked) => .error .permissionDenied
  | .ok (_, _) => .error .isDirectory
  | .error e => .error e

/-- Whether a path leads to a file, which need not be one that can be read. -/
def isFile (t : FileTree) (p : Path) : Bool :=
  match t.find p with
  | .ok (_, entry) => entry.isFile
  | .error _ => false

/-- Whether a path leads to a directory. -/
def isDirectory (t : FileTree) (p : Path) : Bool :=
  match t.find p with
  | .ok (_, .directory) => true
  | _ => false

end FileTree

end Recompile
