/-!
# File errors

Why a file cannot be read or written, in the words of the operating system.
-/

namespace LogicCircuit

/-- The ways in which reading or writing a file fails. -/
inductive FileError where
  | notFound
  | notDirectory
  | isDirectory
  | nameTooLong
  /-- A path that holds a NUL character. -/
  | nulInPath
  /-- The destination takes no more bytes. -/
  | full
  /-- Any other failure, in the words of the system. -/
  | other (message : String)
  deriving DecidableEq, Repr

/-- The wording of a file error. -/
def FileError.message : FileError → String
  | notFound => "No such file or directory (os error 2)"
  | notDirectory => "Not a directory (os error 20)"
  | isDirectory => "Is a directory (os error 21)"
  | nameTooLong => "File name too long (os error 36)"
  | nulInPath => "file name contained an unexpected NUL byte"
  | full => "writer is full"
  | other message => message

end LogicCircuit
