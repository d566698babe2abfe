import ServerPages.Program.Outcome
import ServerPages.Program.Snapshot

/-!
# The command line

This layer looks up files, replaces files and prints. What to look up, write and print is decided by
the program, which is a function of a snapshot of the disk.
-/

namespace ServerPages

namespace CommandLine

/-- The refusal that a code of the operating system stands for. Codes may come negated. -/
def refusalOfCode (code : UInt32) (words : String) : OsError :=
  let number := if code.toNat < UInt32.size / 2 then code.toNat else UInt32.size - code.toNat
  match number with
  | 2 => .notFound
  | 16 => .busy
  | 20 => .notADirectory
  | 21 => .isADirectory
  | 36 => .nameTooLong
  | _ => .other (words ++ " (os error " ++ Text.ofNat number ++ ")")

/-- The refusal behind a failed operation on a file. -/
def refusal : IO.Error → OsError
  | .alreadyExists _ code words | .otherError code words | .resourceBusy code words
  | .resourceVanished code words | .unsupportedOperation code words | .hardwareFault code words
  | .unsatisfiedConstraints code words | .illegalOperation code words | .protocolError code words
  | .timeExpired code words | .interrupted _ code words | .noFileOrDirectory _ code words
  | .invalidArgument _ code words | .permissionDenied _ code words
  | .resourceExhausted _ code words | .inappropriateType _ code words
  | .noSuchThing _ code words => refusalOfCode code words
  | .unexpectedEof => .other "unexpected end of file"
  | .userError words => .other words

/-- Look up one path. -/
def lookUp (path : Text) : IO Finding := do
  if path.contains (Char.ofNat 0) then return .refused .nulInPath
  let name := String.ofList path
  match ← (IO.FS.readBinFile name).toBaseIO with
  | .error error => return .refused (refusal error)
  | .ok contents =>
    let canonical ← IO.FS.realPath name
    return .file contents.toList canonical.toString.toList

/-- Compile one template, looking up files until nothing more is wanted. -/
partial def gather (o : Options) (snapshot : Snapshot) (file : Text) : IO Snapshot := do
  match snapshot.wanted? (compileFile snapshot.disk o file) with
  | none => return snapshot
  | some path => gather o (snapshot.add path (← lookUp path)) file

/-- The files that a run with these arguments reads. -/
def gatherAll (arguments : List Text) : IO Snapshot := do
  match Arguments.parse arguments with
  | .error _ => return .empty
  | .ok a =>
    if a.printConfig then return .empty
    a.files.foldlM (gather a.options) .empty

/-- Replace the contents of a file, so that a reader finds either all of the old or all of the new.
-/
def replaceFile (path contents : Text) : IO (Except OsError Unit) := do
  if path.contains (Char.ofNat 0) then return .error .nulInPath
  let fresh := Path.join (Path.directoryOf path)
    (".pspc" ++ Text.ofNat (← IO.rand 0 (Nat.pow 10 12)) ++ ".py.tmp")
  let name := String.ofList fresh
  match ← (IO.FS.Handle.mk name .writeNew).toBaseIO with
  | .error error => return .error (refusal error)
  | .ok handle =>
    let attempt : IO Unit := do
      handle.write ⟨(Encoding.encode contents).toArray⟩
      handle.flush
      IO.FS.rename name (String.ofList path)
    match ← attempt.toBaseIO with
    | .ok () => return .ok ()
    | .error error =>
      let _ ← (IO.FS.removeFile name).toBaseIO
      return .error (refusal error)

/-- Run the program on the real disk, print what it leaves and give its exit code. -/
def run (arguments : List Text) : IO UInt32 := do
  let snapshot ← gatherAll arguments
  let outcome ← Program.run replaceFile snapshot.disk arguments
  IO.print (String.ofList outcome.output)
  IO.eprint (String.ofList outcome.errors)
  return outcome.exitCode.toUInt32

end CommandLine

end ServerPages

/-- The entry point of the program. -/
def main (arguments : List String) : IO UInt32 :=
  ServerPages.CommandLine.run (arguments.map String.toList)
