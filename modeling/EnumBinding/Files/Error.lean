/-!
# File errors

Why a file could not be read or written, with the wording of the operating system.
-/

namespace EnumBinding

inductive FileError where
  | missing
  | alreadyExists
  | notDirectory
  | isDirectory
  | invalidText
  /-- A path holds the character U+0000. -/
  | invalidPath
  /-- Any other reason, in the words of the system. -/
  | other (reason : String)
deriving DecidableEq, Repr

def FileError.message : FileError → String
  | .missing => "No such file or directory (os error 2)"
  | .alreadyExists => "File exists (os error 17)"
  | .notDirectory => "Not a directory (os error 20)"
  | .isDirectory => "Is a directory (os error 21)"
  | .invalidText => "stream did not contain valid UTF-8"
  | .invalidPath => "file name contained an unexpected NUL byte"
  | .other reason => reason

end EnumBinding
