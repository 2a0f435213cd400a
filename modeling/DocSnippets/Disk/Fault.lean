/-!
# Faults

Why an operation on the file tree failed or a program could not be started, with the wording that
reports show.
-/

namespace DocSnippets.Disk

inductive Fault where
  | missing
  | denied
  | exists
  | notDirectory
  | isDirectory
  | nameTooLong
  | notText
  /-- A path with a NUL character. -/
  | nulInPath
  /-- A NUL character in what a program is started with. -/
  | nulInCommand
deriving DecidableEq, Repr

def Fault.message : Fault → String
  | .missing => "No such file or directory (os error 2)"
  | .denied => "Permission denied (os error 13)"
  | .exists => "File exists (os error 17)"
  | .notDirectory => "Not a directory (os error 20)"
  | .isDirectory => "Is a directory (os error 21)"
  | .nameTooLong => "File name too long (os error 36)"
  | .notText => "stream did not contain valid UTF-8"
  | .nulInPath => "file name contained an unexpected NUL byte"
  | .nulInCommand => "nul byte found in provided data"

end DocSnippets.Disk
