/-
What the file system answers instead of data.
-/
namespace AtomicCss

/-- Why a file could not be read or written. -/
inductive Fault
  /-- Nothing has the name. -/
  | notFound
  /-- Something has the name that should not. -/
  | alreadyExists
  /-- A file stands where a directory has to. -/
  | notDirectory
  /-- A directory stands where a file has to. -/
  | isDirectory
  /-- A name or a whole path has more bytes than names and paths can have. -/
  | nameTooLong
  /-- The path holds a null character. -/
  | nullInPath
  /-- The bytes are not UTF-8. -/
  | notText
  deriving DecidableEq

/-- The text of a fault. -/
def Fault.message : Fault → String
  | .notFound => "No such file or directory (os error 2)"
  | .alreadyExists => "File exists (os error 17)"
  | .notDirectory => "Not a directory (os error 20)"
  | .isDirectory => "Is a directory (os error 21)"
  | .nameTooLong => "File name too long (os error 36)"
  | .nullInPath => "file name contained an unexpected NUL byte"
  | .notText => "stream did not contain valid UTF-8"

end AtomicCss
