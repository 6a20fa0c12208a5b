/-!
# Faults of the file system
-/

namespace CommitLog.Disk

/-- Why an operation on files fails. -/
inductive Fault where
  /-- Nothing has this name. -/
  | notFound
  /-- Something has this name already. -/
  | exists
  /-- A directory is needed where a file is. -/
  | notDirectory
  /-- A file is needed where a directory is. -/
  | isDirectory
  /-- A name is longer than names may be. -/
  | nameTooLong
  /-- A name has a null character. -/
  | nullInName
  deriving DecidableEq, Repr

/-- The wording of a fault, with the number that the operating system gives it, if it has one. -/
def Fault.message : Fault → String
  | .notFound => "No such file or directory (os error 2)"
  | .exists => "File exists (os error 17)"
  | .notDirectory => "Not a directory (os error 20)"
  | .isDirectory => "Is a directory (os error 21)"
  | .nameTooLong => "File name too long (os error 36)"
  | .nullInName => "file name contained an unexpected NUL byte"

end CommitLog.Disk
