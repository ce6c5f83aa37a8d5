/-!
# Paths

A path keeps the spelling it was given, because answers show it, but it is compared
by its components: repeated slashes, a trailing slash and `.` steps do not count, only
a leading `.` does. `Path.clean` gives the one spelling that equal paths share, and
`Path.parent?` and `Path.join` work on spellings.
-/

set_option autoImplicit false

namespace Recompile

/-- The name of an entry in a directory. -/
abbrev Name := List Char

/-- A path, as it is spelled. -/
structure Path where
  chars : List Char
  deriving DecidableEq, Repr, Inhabited

namespace Path

/-- The path with a given spelling. -/
def ofString (text : String) : Path :=
  ⟨text.toList⟩

/-- The spelling of a path. -/
def toString (p : Path) : String :=
  String.ofList p.chars

/-- The path that is spelled with no character at all. -/
def empty : Path :=
  ⟨[]⟩

/-- The path of the directory that paths are relative to. -/
def here : Path :=
  ⟨['.']⟩

/-- Whether a path starts at the root directory. -/
def isAbsolute (p : Path) : Bool :=
  p.chars.head? == some '/'

/-- Whether the last character of a path is a slash. -/
def endsWithSlash (p : Path) : Bool :=
  p.chars.getLast? == some '/'

/-- The pieces of a text between its slashes: always one more than there are slashes. -/
def pieces : List Char → List Name
  | [] => [[]]
  | c :: cs =>
    if c = '/' then [] :: pieces cs
    else
      match pieces cs with
      | [] => [[c]]
      | p :: ps => (c :: p) :: ps

/-- One component of a path. -/
inductive Component where
  /-- The root directory, at the start of an absolute path. -/
  | root
  /-- A leading `.` of a relative path. -/
  | current
  /-- The directory above. -/
  | up
  /-- An entry of the directory reached so far. -/
  | name (n : Name)
  deriving DecidableEq, Repr

/-- The component that a piece stands for, if it counts. -/
def Component.ofPiece? : Name → Option Component
  | [] => none
  | ['.'] => none
  | ['.', '.'] => some .up
  | n => some (.name n)

/-- The spelling of a component. -/
def Component.chars : Component → List Char
  | .root => ['/']
  | .current => ['.']
  | .up => ['.', '.']
  | .name n => n

/-- The component that stands in front of those that the pieces give: the root, or a
leading `.`. -/
def leading (p : Path) : List Component :=
  if p.isAbsolute then [.root]
  else if (pieces p.chars).head? = some ['.'] then [.current]
  else []

/-- What a path means, regardless of its spelling. -/
def components (p : Path) : List Component :=
  p.leading ++ (pieces p.chars).filterMap Component.ofPiece?

/-- Whether two spellings are of one path. -/
def Same (p q : Path) : Prop :=
  p.components = q.components

instance (p q : Path) : Decidable (p.Same q) :=
  inferInstanceAs (Decidable (p.components = q.components))

/-- The paths of a list without those that came up before. -/
def distinct : List Path → List Path
  | [] => []
  | p :: ps => p :: (distinct ps).filter fun q => ¬ p.Same q

/-- A path below a directory; an absolute path stands for itself. -/
def join (dir target : Path) : Path :=
  if target.isAbsolute then target
  else if dir.chars = [] ∨ dir.endsWithSlash then ⟨dir.chars ++ target.chars⟩
  else ⟨dir.chars ++ '/' :: target.chars⟩

/-- A path followed by further components, one slash between any two. -/
def extend (base : Path) (cs : List Component) : Path :=
  cs.foldl (fun p c => p.join ⟨c.chars⟩) base

/-- The spelling without `.` steps and with single slashes. -/
def clean (p : Path) : Path :=
  empty.extend (p.components.filter (· ≠ .current))

/-- Whether a piece after the first says nothing: it is empty or a `.`. -/
def isIdle (piece : Name) : Bool :=
  piece = [] ∨ piece = ['.']

/-- Pieces without the idle ones at the end. -/
def dropIdleEnd (ps : List Name) : List Name :=
  (ps.reverse.dropWhile isIdle).reverse

/-- The path without its last component, as it is spelled up to there; none for the
root and for the empty path. -/
def parent? (p : Path) : Option Path :=
  match pieces p.chars with
  | [] => none
  | first :: rest =>
    let rest := dropIdleEnd rest
    if p.isAbsolute then
      if rest = [] then none
      else some ⟨'/' :: ['/'].intercalate (dropIdleEnd rest.dropLast)⟩
    else if rest = [] then
      if first = [] then none else some empty
    else some ⟨['/'].intercalate (first :: dropIdleEnd rest.dropLast)⟩

/-- The start of an absolute path: exactly two leading slashes stay two, any other
number is one. -/
def rootSpelling (p : Path) : Path :=
  match p.chars with
  | '/' :: '/' :: '/' :: _ => ⟨['/']⟩
  | '/' :: '/' :: _ => ⟨['/', '/']⟩
  | _ => ⟨['/']⟩

/-- A path made absolute without looking at any file: a relative path starts at the
working directory, `.` steps and repeated slashes go, `..` steps and a trailing slash
stay. The empty path has no absolute form. -/
def absolute? (p workingDir : Path) : Option Path :=
  if p.chars = [] then none
  else
    let base := if p.isAbsolute then p.rootSpelling else workingDir
    let path := base.extend ((pieces p.chars).filterMap Component.ofPiece?)
    some (if p.endsWithSlash then path.join empty else path)

end Path

end Recompile
