import ServerPages.Compile

/-!
# Snapshots of a disk

Compiling is a function of the files that it reads, and which these are turns out only on the way. A
snapshot holds what is known about some paths. Compiling with a snapshot that lacks a file fails at
that file, and the failure tells which path to look up before trying again.
-/

namespace ServerPages

/-- What looking up a path gave. -/
inductive Finding where
  | file (contents : Octets) (canonical : Text)
  | refused (error : OsError)
  deriving DecidableEq, Repr

/-- What is known about paths. -/
structure Snapshot where
  /-- The paths that have been looked up. -/
  findings : List (Text × Finding)
  deriving DecidableEq, Repr

namespace Snapshot

/-- Nothing known yet. -/
def empty : Snapshot := ⟨[]⟩

/-- Add what looking up a path gave. -/
def add (s : Snapshot) (path : Text) (finding : Finding) : Snapshot :=
  ⟨(path, finding) :: s.findings⟩

/-- Whether a path has been looked up. -/
def knows (s : Snapshot) (path : Text) : Bool := (s.findings.lookup path).isSome

/-- The disk of the files that are known. -/
def disk (s : Snapshot) : Disk where
  read path :=
    match s.findings.lookup path with
    | some (.file contents _) => .ok contents
    | some (.refused error) => .error error
    | none => .error .notFound
  canonical? path :=
    match s.findings.lookup path with
    | some (.file _ canonical) => some canonical
    | _ => none
  isFile path :=
    match s.findings.lookup path with
    | some (.file ..) => true
    | _ => false

/-- The path at which a compilation failed although it has not been looked up. -/
def wanted? (s : Snapshot) (c : Compilation) : Option Text :=
  let path? :=
    match c.result with
    | .error ⟨.resource _ (.unreadable resolved _), _⟩ => some resolved
    | .error ⟨.resource _ (.missing resolved), _⟩ => some resolved
    | _ => none
  path?.filter fun path => !s.knows path

end Snapshot

end ServerPages
