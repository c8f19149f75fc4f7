/-!
# `ImageBuild.Tree.Fault`: why the file system refuses

The faults of walking, making, opening, listing and starting, each with the text and number that
the operating system gives it.
-/

set_option autoImplicit false

namespace ImageBuild

/-- Why an operation on the file tree fails. -/
inductive FileFault
  | notFound
  | denied
  | alreadyExists
  | notADirectory
  | isADirectory
  | invalidArgument
  | nameTooLong
  | tooManyLinks
  /-- The content of a file cannot be run. -/
  | notAProgram
  /-- The path holds a NUL byte, so it was never handed to the system. -/
  | nulInPath
  /-- A command line holds a NUL byte. -/
  | nulInCommand
  deriving DecidableEq, Repr

/-- The fault in words. -/
def FileFault.message : FileFault → String
  | .notFound => "No such file or directory (os error 2)"
  | .denied => "Permission denied (os error 13)"
  | .alreadyExists => "File exists (os error 17)"
  | .notADirectory => "Not a directory (os error 20)"
  | .isADirectory => "Is a directory (os error 21)"
  | .invalidArgument => "Invalid argument (os error 22)"
  | .nameTooLong => "File name too long (os error 36)"
  | .tooManyLinks => "Too many levels of symbolic links (os error 40)"
  | .notAProgram => "Exec format error (os error 8)"
  | .nulInPath => "file name contained an unexpected NUL byte"
  | .nulInCommand => "nul byte found in provided data"

end ImageBuild
