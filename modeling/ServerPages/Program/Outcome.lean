import ServerPages.Compile
import ServerPages.Disk.Tree
import ServerPages.Options.Json
import ServerPages.Program.Arguments

/-!
# The program

The program compiles the templates that its arguments name, and writes each module to a file or to
its output. All templates are compiled before the first module is written. A template that fails
does not keep the others from being written.
-/

namespace ServerPages

/-- What a run of the program leaves, apart from files. -/
structure Outcome where
  /-- The exit code. -/
  exitCode : Nat
  /-- What is printed as output. -/
  output : Text
  /-- What is printed as errors. -/
  errors : Text
  deriving DecidableEq, Repr

namespace Outcome

/-- Nothing printed yet. -/
def start : Outcome := ⟨0, [], []⟩

/-- Print output. -/
def print (o : Outcome) (t : Text) : Outcome := { o with output := o.output ++ t }

/-- Print a line of errors. -/
def complain (o : Outcome) (t : Text) : Outcome := { o with errors := o.errors ++ t ++ ['\n'] }

/-- Print the records that a limit lets through. -/
def log (o : Outcome) (limit : Nat) (records : List LogRecord) : Outcome :=
  o.print ((records.filter fun r => r.level.rank ≤ limit).flatMap LogRecord.shown)

end Outcome

namespace UsageProblem

/-- What is printed when arguments are not followed. -/
def message : UsageProblem → Text
  | missingFiles => "error: a template is required"
  | unsuitableValue => "error: a value does not suit its option"
  | emptyValue => "error: a value is required"
  | unknownArgument => "error: unexpected argument"
  | conflict => "error: arguments cannot be used together"
  | unneededValue => "error: an option takes no value"
  | helpWanted =>
    Text.join ['\n'] (["Compile PSP templates into Python servlet modules", "",
      "Usage: pspc [OPTIONS] [FILES]...", "", "Options:",
      "  -o, --out-dir <OUT_DIR>", "      --class-name <CLASS_NAME>", "      --stdout",
      "      --base-dir <BASE_DIR>", "      --compat-delimiters",
      "      --indent-type <INDENT_TYPE>", "      --indent-spaces <INDENT_SPACES>",
      "      --no-gobble", "      --print-config", "  -v, --verbose...", "  -q, --quiet...",
      "  -h, --help", "  -V, --version"] : List Text)
  | versionWanted => "pspc 0.1.0"

/-- Help and version are output, all other problems are errors. -/
def outcome (problem : UsageProblem) : Outcome :=
  match problem with
  | helpWanted | versionWanted => ⟨0, problem.message ++ ['\n'], []⟩
  | _ => ⟨2, [], problem.message ++ ['\n']⟩

end UsageProblem

namespace Program

/-- Where the module of a template is written. -/
def target (a : Arguments) (file : Text) (compiled : CompiledModule) : Text :=
  Path.join (a.outDir?.getD ((Path.parent? file).getD [])) compiled.fileName

/-- Bring out the module of one template. The result tells whether this worked. -/
def bringOut {m : Type → Type} [Monad m] (write : Text → Text → m (Except OsError Unit))
    (a : Arguments) (o : Outcome) (file : Text) (c : Compilation) : m (Bool × Outcome) := do
  match c.result with
  | .error failure =>
    return (false, o.complain ("Could not compile " ++ file ++ ": " ++ failure.message))
  | .ok compiled =>
    let o := compiled.notices.foldl (fun o notice => o.complain notice.message) o
    if a.stdout then return (true, o.print compiled.source)
    else
      let path := target a file compiled
      match ← write path compiled.source with
      | .error error =>
        return (false, o.complain ("Could not write " ++ path ++ ": " ++ error.message))
      | .ok () =>
        return (true, o.log a.logLimit [⟨.info, "Compiled " ++ file ++ " to " ++ path⟩])

/-- Bring out the modules of all templates, counting those that fail. -/
def bringOutAll {m : Type → Type} [Monad m] (write : Text → Text → m (Except OsError Unit))
    (a : Arguments) (o : Outcome) : List (Text × Compilation) → m (Nat × Outcome)
  | [] => return (0, o)
  | (file, c) :: rest => do
    let (worked, o) ← bringOut write a o file c
    let (failed, o) ← bringOutAll write a o rest
    return (if worked then failed else failed + 1, o)

/-- Compile every template that the arguments name. -/
def compileAll (disk : Disk) (a : Arguments) : List (Text × Compilation) :=
  a.files.map fun file => (file, compileFile disk a.options file)

/-- Run the program on arguments that can be followed. -/
def follow {m : Type → Type} [Monad m] (write : Text → Text → m (Except OsError Unit))
    (disk : Disk) (a : Arguments) : m Outcome := do
  if a.printConfig then return Outcome.start.print (a.options.pretty ++ ['\n'])
  else if a.className?.isSome ∧ 1 < a.files.length then
    return { Outcome.start.complain
      "Error: --class-name can only be used with a single template" with exitCode := 1 }
  else
    let compilations := compileAll disk a
    let o := Outcome.start.log a.logLimit (compilations.flatMap fun (_, c) => c.log)
    let (failed, o) ← bringOutAll write a o compilations
    if failed = 0 then return o
    else
      return { o.complain (.ofNat failed ++ " of " ++ .ofNat a.files.length ++
        " templates failed to compile") with exitCode := 1 }

/-- Run the program. -/
def run {m : Type → Type} [Monad m] (write : Text → Text → m (Except OsError Unit))
    (disk : Disk) (arguments : List Text) : m Outcome :=
  match Arguments.parse arguments with
  | .error problem => return problem.outcome
  | .ok a => follow write disk a

/-- Run the program in a file tree. -/
def runIn (tree : FileTree) (arguments : List Text) : Outcome × FileTree :=
  let write (path contents : Text) : StateM FileTree (Except OsError Unit) := fun tree =>
    match tree.replace path (Encoding.encode contents) with
    | .ok tree => (.ok (), tree)
    | .error error => (.error error, tree)
  run write tree.disk arguments tree

end Program

end ServerPages
