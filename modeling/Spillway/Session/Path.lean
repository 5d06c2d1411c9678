/-!
# Creating a file in an empty directory

The output path is taken relative to a directory that has nothing in it. Such a path can be created
exactly if it names a file of that directory itself: a directory on the way does not exist, and a path
that ends in a directory is no file.
-/

namespace Spillway.Session

/-- Why a file could not be created. -/
inductive CreateError where
  | notFound
  | isDirectory
  | nameTooLong
  | zeroByte
  deriving DecidableEq, Repr

/-- How the system words it. -/
def CreateError.message : CreateError → String
  | .notFound => "No such file or directory (os error 2)"
  | .isDirectory => "Is a directory (os error 21)"
  | .nameTooLong => "File name too long (os error 36)"
  | .zeroByte => "file name contained an unexpected NUL byte"

/-- The most bytes that a name in a directory may have. -/
def maxNameBytes : Nat := 255

/-- The most bytes that a path may have. -/
def maxPathBytes : Nat := 4095

/-- Whether a component of a path stays in a directory that exists. -/
def staysInPlace (component : String) : Bool :=
  component = "" || component = "." || component = ".."

/-- Follows the components of a path from a directory without files. A slash at the end asks for a
directory, whatever the name before it is. -/
def walk : List String → Except CreateError Unit
  | [] => .error .isDirectory
  | component :: rest =>
    if rest.all (· = "") then
      if staysInPlace component || !rest.isEmpty then .error .isDirectory
      else if maxNameBytes < component.utf8ByteSize then .error .nameTooLong
      else .ok ()
    else if staysInPlace component then walk rest
    else if maxNameBytes < component.utf8ByteSize then .error .nameTooLong
    else .error .notFound

/-- Whether a file can be created at a path, and why not. The assembly does not depend on it: `compile_eval_output`. -/
def create (path : String) : Except CreateError Unit :=
  if path.contains (Char.ofNat 0) then .error .zeroByte
  else if path = "" then .error .notFound
  else if maxPathBytes < path.utf8ByteSize then .error .nameTooLong
  else walk (path.splitOn "/")

end Spillway.Session
