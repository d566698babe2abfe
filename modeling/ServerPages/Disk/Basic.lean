import ServerPages.Text.Encoding

/-!
# Disks

A disk answers the questions that compiling a page asks about files. It is a value, so that a
compilation is a function of the files it sees.
-/

namespace ServerPages

/-- Why the operating system refuses a file. -/
inductive OsError where
  | notFound
  | notADirectory
  | isADirectory
  | nameTooLong
  | busy
  | nulInPath
  | other (words : Text)
  deriving DecidableEq, Repr

/-- The operating system's own words. -/
def OsError.message : OsError → Text
  | notFound => "No such file or directory (os error 2)"
  | notADirectory => "Not a directory (os error 20)"
  | isADirectory => "Is a directory (os error 21)"
  | nameTooLong => "File name too long (os error 36)"
  | busy => "Device or resource busy (os error 16)"
  | nulInPath => "file name contained an unexpected NUL byte"
  | other words => words

/-- What can be asked about a path. -/
structure Disk where
  /-- The contents of a file. -/
  read : Text → Except OsError Octets
  /-- A name that two paths share exactly when they lead to the same file. -/
  canonical? : Text → Option Text
  /-- Whether a path leads to a file and not to a directory or nowhere. -/
  isFile : Text → Bool

/-- The disk without files. -/
def Disk.empty : Disk := ⟨fun _ => .error .notFound, fun _ => none, fun _ => false⟩

end ServerPages
