import ServerPages.Disk.Basic
import ServerPages.Path

/-!
# File trees

A file tree is a directory with all that lies below it, as a value. Paths are followed name by name
from its top, as an operating system does it, and every way in which a path can lead nowhere has its
own error. What lies outside of the tree is taken to hold no files.
-/

namespace ServerPages

/-- What a name of a directory stands for. -/
inductive Entry where
  | file (contents : Octets)
  | directory
  deriving DecidableEq, Repr

/-- The entries below a directory, each under the names that lead to it from the top. -/
structure FileTree where
  /-- Directories have entries of their own, except the top. -/
  entries : List (List Text × Entry)
  deriving DecidableEq, Repr

/-- Where a path can lead. -/
inductive Place where
  /-- The entry at the end of some names. -/
  | inside (names : List Text)
  /-- A directory that is not part of the tree. -/
  | outside
  deriving DecidableEq, Repr

/-- The directory above a place. -/
def Place.up : Place → Place
  | inside (name :: names) => inside (name :: names).dropLast
  | _ => outside

/-- The longest name of a file, in bytes. -/
def maxNameLength : Nat := 255

/-- The length in bytes that a path cannot reach. -/
def pathLimit : Nat := 4096

namespace FileTree

/-- The tree without files. -/
def empty : FileTree := ⟨[]⟩

/-- The entry at the end of some names. -/
def entry? (t : FileTree) (names : List Text) : Option Entry :=
  if names = [] then some .directory else t.entries.lookup names

/-- Put an entry at the end of some names, in place of one that is there. -/
def set (t : FileTree) (names : List Text) (entry : Entry) : FileTree :=
  ⟨t.entries.filter (·.1 ≠ names) ++ [(names, entry)]⟩

/-- The names of a path. -/
def namesOf (path : Text) : List Text := (path.splitOn '/').filter fun name => !name.isEmpty

/-- Put an entry at a path, together with the directories that lead to it. -/
def add (t : FileTree) (path : Text) (entry : Entry) : FileTree :=
  let names := namesOf path
  let above := (List.range names.length).map fun n => names.take n
  let missing := above.filter fun directory => (t.entry? directory).isNone
  (missing.foldl (fun t directory => t.set directory .directory) t).set names entry

/-- The contents of the file at a place. -/
def contents? (t : FileTree) : Place → Option Octets
  | .outside => none
  | .inside names =>
    match t.entry? names with
    | some (.file contents) => some contents
    | _ => none

/-- Follow one name. -/
def follow (t : FileTree) (place : Place) (name : Text) : Except OsError Place :=
  if (t.contents? place).isSome then .error .notADirectory
  else if name = "." then .ok place
  else if name = ".." then .ok place.up
  else if maxNameLength < name.byteLength then .error .nameTooLong
  else
    match place with
    | .outside => .error .notFound
    | .inside names =>
      if (t.entry? (names ++ [name])).isSome then .ok (.inside (names ++ [name]))
      else .error .notFound

/-- Follow names one after the other. -/
def followAll (t : FileTree) (place : Place) : List Text → Except OsError Place
  | [] => .ok place
  | name :: rest =>
    match t.follow place name with
    | .ok next => t.followAll next rest
    | .error error => .error error

/-- Where following a path starts. -/
def origin (path : Text) : Place := if Path.isAbsolute path then .outside else .inside []

/-- A path that the operating system does not even try to follow. -/
def invalid? (path : Text) : Option OsError :=
  if path.contains '\x00' then some .nulInPath
  else if path = [] then some .notFound
  else if pathLimit ≤ path.byteLength then some .nameTooLong
  else none

/-- Where a path leads. A path that ends in `/` must lead to a directory. -/
def locate (t : FileTree) (path : Text) : Except OsError Place :=
  match invalid? path, t.followAll (origin path) (namesOf path) with
  | some error, _ => .error error
  | none, .error error => .error error
  | none, .ok place =>
    if path.getLast? = some '/' ∧ (t.contents? place).isSome then .error .notADirectory
    else .ok place

/-- The contents of the file to which a path leads. -/
def read (t : FileTree) (path : Text) : Except OsError Octets :=
  match t.locate path with
  | .error error => .error error
  | .ok place =>
    match t.contents? place with
    | some contents => .ok contents
    | none => .error .isADirectory

/-- The disk that holds just this tree. -/
def disk (t : FileTree) : Disk where
  read := t.read
  canonical? path :=
    match t.locate path with
    | .ok (.inside names) => some ('/' :: Text.join ['/'] names)
    | _ => none
  isFile path :=
    match t.read path with
    | .ok _ => true
    | .error _ => false

/-- Put a complete file in place of whatever file the path leads to. The file is prepared in the
directory of the path and then takes the name, so its directory must exist, and the name must not
belong to a directory. A file outside of the tree leaves no trace. -/
def replace (t : FileTree) (path : Text) (contents : Octets) : Except OsError FileTree := do
  let place ← t.locate (Path.directoryOf path)
  if (t.contents? place).isSome then throw .notADirectory
  if let some error := invalid? path then throw error
  let names := namesOf path
  let name := names.getLast?.getD ['.']
  let directory ← t.followAll (origin path) names.dropLast
  if (t.contents? directory).isSome then throw .notADirectory
  if name = "." ∨ name = ".." then throw .busy
  if maxNameLength < name.byteLength then throw .nameTooLong
  if path.getLast? = some '/' then throw .notADirectory
  match directory with
  | .outside => pure t
  | .inside above =>
    match t.entry? (above ++ [name]) with
    | some .directory => throw .isADirectory
    | _ => pure (t.set (above ++ [name]) (.file contents))

end FileTree

end ServerPages
