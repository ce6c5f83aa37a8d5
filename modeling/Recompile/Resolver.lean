import Recompile.Directive.Basic
import Recompile.FileTree.Lookup
import Recompile.Macro.Scope

/-!
# Resolving include directives

A directive is resolved to the first file that its target names: a quoted target in the
directory of the file that has the directive and then in the search roots, a bracketed
one in the search roots alone. A directive that names a macro is resolved to what the
macro stands for at that place of the file; if that is in doubt, it stays undecided.
-/

set_option autoImplicit false

namespace Recompile

/-- What a directive leads to. -/
inductive Resolution where
  | file (p : Path)
  /-- No file has the name of the target. -/
  | missing
  /-- It is not known which target the macro names. -/
  | undecided
  deriving DecidableEq, Repr, Inhabited

namespace Resolution

/-- The file, if there is one. -/
def file? : Resolution → Option Path
  | .file p => some p
  | _ => none

end Resolution

/-- Where targets are searched, and the macros given from outside. -/
structure Resolver where
  /-- The search roots in the order of the search, each once. -/
  roots : List Path
  macros : List (String × String)
  deriving DecidableEq, Repr

namespace Resolver

/-- A resolver for search roots that may have repetitions. -/
def ofRoots (roots : List Path) (macros : List (String × String)) : Resolver :=
  ⟨Path.distinct roots, macros⟩

/-- The paths that a target may mean in the given directories. An absolute target needs
none of them. -/
def candidates (dirs : List Path) (target : Path) : List Path :=
  if target.isAbsolute then [target] else dirs.map (·.join target)

/-- The first file that a target names in the given directories. -/
def search (t : FileTree) (dirs : List Path) (target : Path) : Option Path :=
  ((candidates dirs target).find? t.isFile).map Path.clean

/-- The directories in which a target is searched, for a directive in a file of the
given directory. -/
def searchDirs (r : Resolver) (dir : Path) (form : IncludeForm) : List Path :=
  match form with
  | .quoted => dir :: r.roots
  | _ => r.roots

/-- What the target of a directive leads to, for a file of the given directory; no target
means that it is in doubt. -/
def locate (r : Resolver) (t : FileTree) (dir : Path) :
    Option (IncludeForm × String) → Resolution
  | none => .undecided
  | some (form, target) =>
    match search t (r.searchDirs dir form) (.ofString target) with
    | some p => .file p
    | none => .missing

/-- The target that a directive names in a scope. -/
def target? (scope : MacroScope) (i : Include) : Option (IncludeForm × String) :=
  match i.form with
  | .macroName => scope.expand i.target
  | form => some (form, i.target)

/-- Resolves one directive of a file in the given directory. -/
def resolve (r : Resolver) (t : FileTree) (scope : MacroScope) (dir : Path) (i : Include) :
    Resolution :=
  r.locate t dir (target? scope i)

/-- The targets of directives, in a scope to which the macro events are applied whose
lines come before the line of the directive. -/
def targetsFrom : MacroScope → List MacroEvent → List Include →
    List (Include × Option (IncludeForm × String))
  | _, _, [] => []
  | scope, events, i :: is =>
    let scope := scope.applyAll (events.takeWhile fun e => e.line < i.line)
    (i, target? scope i) :: targetsFrom scope (events.dropWhile fun e => e.line < i.line) is

/-- The targets of all directives of a file. No file is looked at for them. -/
def targets (r : Resolver) (ds : Directives) : List (Include × Option (IncludeForm × String)) :=
  targetsFrom (.ofExternal r.macros) ds.macros ds.includes

/-- The directory that the directives of a file are resolved in. -/
def directoryOf (file : Path) : Path :=
  file.parent?.getD .here

/-- Resolves all directives of a file. -/
def resolveAll (r : Resolver) (t : FileTree) (ds : Directives) (file : Path) :
    List (Include × Resolution) :=
  (r.targets ds).map fun found => (found.1, r.locate t (directoryOf file) found.2)

/-- The paths that are looked at to resolve all directives of a file. -/
def consulted (r : Resolver) (ds : Directives) (file : Path) : List Path :=
  (r.targets ds).flatMap fun found =>
    match found.2 with
    | none => []
    | some (form, target) =>
      candidates (r.searchDirs (directoryOf file) form) (.ofString target)

end Resolver

end Recompile
