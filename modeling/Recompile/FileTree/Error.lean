/-!
# Errors of the file system

The causes for which an access to a file can fail, with the wording that the system
has for them.
-/

set_option autoImplicit false

namespace Recompile

/-- Why an access to a file failed. -/
inductive OsError where
  /-- Nothing has that name. -/
  | notFound
  /-- The file may not be opened. -/
  | permissionDenied
  /-- The entry is in use as a directory that paths go through. -/
  | busy
  /-- Something has that name already. -/
  | exists
  /-- A step leads through something that is no directory. -/
  | notDirectory
  /-- A directory stands where a file is needed. -/
  | isDirectory
  /-- An argument that the operation cannot take. -/
  | invalidArgument
  /-- A name or a whole path is too long. -/
  | nameTooLong
  /-- More links than may be followed in one access. -/
  | tooManyLinks
  /-- The path has a NUL character, which no system call can take. -/
  | nulCharacter
  /-- No directory above the path can be made. -/
  | rootless
  deriving DecidableEq, Repr, Inhabited

/-- The wording of an error. -/
def OsError.message : OsError → String
  | .notFound => "No such file or directory (os error 2)"
  | .permissionDenied => "Permission denied (os error 13)"
  | .busy => "Device or resource busy (os error 16)"
  | .exists => "File exists (os error 17)"
  | .notDirectory => "Not a directory (os error 20)"
  | .isDirectory => "Is a directory (os error 21)"
  | .invalidArgument => "Invalid argument (os error 22)"
  | .nameTooLong => "File name too long (os error 36)"
  | .tooManyLinks => "Too many levels of symbolic links (os error 40)"
  | .nulCharacter => "file name contained an unexpected NUL byte"
  | .rootless => "failed to create whole tree"

end Recompile
