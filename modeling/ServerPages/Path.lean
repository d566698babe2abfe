import ServerPages.Text.Basic

/-!
# Paths

Paths are texts with `/` between their components. They are never normalised: joining, taking the
parent and taking the file name work on the text as it was written.
-/

namespace ServerPages.Path

/-- A path that starts from the root of the file system. -/
def isAbsolute (path : Text) : Bool := path.head? = some '/'

/-- A path below a directory; an absolute path stands for itself. -/
def join (directory path : Text) : Text :=
  if isAbsolute path ∨ directory = [] then path
  else if directory.getLast? = some '/' then directory ++ path
  else directory ++ '/' :: path

/-- A component that leads nowhere else. -/
def isIdle (component : Text) : Bool := component = [] || component = ['.']

/-- A leading `/`, or a leading `.` that is a component, is not part of the body of a path. -/
def splitAnchor : Text → Text × Text
  | '/' :: body => (['/'], body)
  | ['.'] => (['.'], [])
  | '.' :: '/' :: body => (['.'], '/' :: body)
  | body => ([], body)

/-- The components of the body, last first, from the last one that is not idle. -/
def namesBackwards (body : Text) : List Text := (body.splitOn '/').reverse.dropWhile isIdle

/-- The directory that holds a path. Idle components next to the cut go with it. -/
def parent? (path : Text) : Option Text :=
  let (anchor, body) := splitAnchor path
  match namesBackwards body with
  | _ :: above => some (anchor ++ Text.join ['/'] (above.dropWhile isIdle).reverse)
  | [] => if anchor = ['.'] then some [] else none

/-- The directory against which a file's own relative paths are taken. -/
def directoryOf (path : Text) : Text :=
  match parent? path with
  | none | some [] => ['.']
  | some directory => directory

/-- The last component, unless it leads upwards. -/
def fileName? (path : Text) : Option Text :=
  match namesBackwards (splitAnchor path).2 with
  | name :: _ => if name = ['.', '.'] then none else some name
  | [] => none

end ServerPages.Path
