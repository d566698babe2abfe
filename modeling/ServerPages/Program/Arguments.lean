import ServerPages.Log
import ServerPages.Options.Basic

/-!
# The arguments of the program

Arguments are read from left to right. An option takes the next argument as its value, unless the
value is attached to it; such a value, and the names of files, are judged only when the next option
or the end is reached. What every argument is on its own is found first, so an argument that is not
known is reported even if an earlier value is bad.
-/

namespace ServerPages

/-- Options of the program that take a value. -/
inductive ValueOption where
  | outDir
  | className
  | baseDir
  | indentType
  | indentSpaces
  deriving DecidableEq, Repr

/-- Options of the program that stand alone. -/
inductive Flag where
  | stdout
  | compatDelimiters
  | noGobble
  | printConfig
  | verbose
  | quiet
  | help
  | version
  deriving DecidableEq, Repr

/-- Why arguments are not followed. -/
inductive UsageProblem where
  /-- No template is named. -/
  | missingFiles
  /-- A value does not suit its option. -/
  | unsuitableValue
  /-- A value is missing or empty. -/
  | emptyValue
  /-- No option has this name. -/
  | unknownArgument
  /-- Options exclude each other, or one is given twice. -/
  | conflict
  /-- A value is attached to an option that takes none. -/
  | unneededValue
  /-- Help is asked for. -/
  | helpWanted
  /-- The version is asked for. -/
  | versionWanted
  deriving DecidableEq, Repr

/-- What the arguments say. -/
structure Arguments where
  /-- The templates, in order. -/
  files : List Text := []
  /-- Where the modules go; otherwise beside the templates. -/
  outDir? : Option Text := none
  /-- The class to generate. -/
  className? : Option Text := none
  /-- Whether modules are printed and not written to files. -/
  stdout : Bool := false
  /-- The base directory of the templates. -/
  baseDir? : Option Text := none
  /-- Whether elements may cross the ends of files. -/
  compatDelimiters : Bool := false
  /-- The block style. -/
  indentType? : Option BlockStyle := none
  /-- The indentation width. -/
  indentSpaces? : Option Nat := none
  /-- Whether blank text between scripts is kept. -/
  noGobble : Bool := false
  /-- Whether the options are printed and nothing is compiled. -/
  printConfig : Bool := false
  /-- How often more records are asked for. -/
  verbose : Nat := 0
  /-- How often fewer records are asked for. -/
  quiet : Nat := 0
  deriving DecidableEq, Repr

namespace Arguments

/-- The options for compiling. -/
def options (a : Arguments) : Options where
  className? := a.className?
  baseDir? := a.baseDir?
  crossing := a.compatDelimiters
  style := a.indentType?.getD .tabs
  spaces := a.indentSpaces?.getD 4
  gobble := !a.noGobble

/-- The rank up to which records are shown: `info` unless more or fewer are asked for. -/
def logLimit (a : Arguments) : Nat :=
  Nat.min (LogLevel.info.rank + a.verbose - a.quiet) LogLevel.trace.rank

/-- Values that have been read and not yet been judged. -/
inductive Pending where
  | nothing
  | value (option : ValueOption) (value? : Option Text)
  | files (paths : List Text)
  deriving DecidableEq, Repr

/-- What has been read so far. -/
structure Draft where
  /-- What has been judged. -/
  found : Arguments := {}
  /-- What has not. -/
  pending : Pending := .nothing
  deriving DecidableEq, Repr

/-- A path must not be empty. -/
def path (value : Text) : Except UsageProblem Text :=
  if value = [] then .error .emptyValue else .ok value

/-- An indentation width, from 1 to 65535. -/
def width (value : Text) : Except UsageProblem Nat :=
  match value.toNat? with
  | some n => if 1 ≤ n ∧ n ≤ 65535 then .ok n else .error .unsuitableValue
  | none => .error .unsuitableValue

/-- Set an option that must not have been set. -/
def once {α : Type} (old : Option α) (new : Except UsageProblem α) (store : α → Arguments) :
    Except UsageProblem Arguments :=
  if old.isSome then .error .conflict else new.map store

/-- Judge the value of an option. -/
def setValue (a : Arguments) (option : ValueOption) (value : Text) :
    Except UsageProblem Arguments :=
  match option with
  | .outDir => once a.outDir? (path value) fun v => { a with outDir? := some v }
  | .className => once a.className? (.ok value) fun v => { a with className? := some v }
  | .baseDir => once a.baseDir? (path value) fun v => { a with baseDir? := some v }
  | .indentType =>
    once a.indentType? ((BlockStyle.ofName? value).elim (.error .unsuitableValue) .ok) fun v =>
      { a with indentType? := some v }
  | .indentSpaces => once a.indentSpaces? (width value) fun v => { a with indentSpaces? := some v }

/-- Set a flag. Only the two that concern the log may be given more than once. -/
def setFlag (a : Arguments) (flag : Flag) : Except UsageProblem Arguments :=
  match flag with
  | .stdout => if a.stdout then .error .conflict else .ok { a with stdout := true }
  | .compatDelimiters =>
    if a.compatDelimiters then .error .conflict else .ok { a with compatDelimiters := true }
  | .noGobble => if a.noGobble then .error .conflict else .ok { a with noGobble := true }
  | .printConfig => if a.printConfig then .error .conflict else .ok { a with printConfig := true }
  | .verbose => .ok { a with verbose := a.verbose + 1 }
  | .quiet => .ok { a with quiet := a.quiet + 1 }
  | .help => .error .helpWanted
  | .version => .error .versionWanted

namespace Draft

/-- Judge what is pending. -/
def resolve (d : Draft) : Except UsageProblem Draft :=
  match d.pending with
  | .nothing => .ok d
  | .value _ none => .error .emptyValue
  | .value option (some value) => (d.found.setValue option value).map fun found => { found }
  | .files paths =>
    (paths.mapM path).map fun paths =>
      { found := { d.found with files := d.found.files ++ paths } }

/-- A flag. -/
def flag (d : Draft) (flag : Flag) : Except UsageProblem Draft := do
  let d ← d.resolve
  return { d with found := ← d.found.setFlag flag }

/-- An option with an attached value, which is judged at once. -/
def attached (d : Draft) (option : ValueOption) (value : Text) : Except UsageProblem Draft := do
  let d ← d.resolve
  return { d with found := ← d.found.setValue option value }

/-- An option whose value is the next argument. -/
def awaitValue (d : Draft) (option : ValueOption) : Except UsageProblem Draft := do
  let d ← d.resolve
  return { d with pending := .value option none }

/-- The name of a template. -/
def file (d : Draft) (value : Text) : Except UsageProblem Draft :=
  match d.pending with
  | .files paths => .ok { d with pending := .files (paths ++ [value]) }
  | _ => d.resolve.map fun d => { d with pending := .files [value] }

/-- The long names of the options that take a value. -/
def valueNames : List (Text × ValueOption) :=
  [("out-dir", .outDir), ("class-name", .className), ("base-dir", .baseDir),
    ("indent-type", .indentType), ("indent-spaces", .indentSpaces)]

/-- The long names of the flags. -/
def flagNames : List (Text × Flag) :=
  [("stdout", .stdout), ("compat-delimiters", .compatDelimiters), ("no-gobble", .noGobble),
    ("print-config", .printConfig), ("verbose", .verbose), ("quiet", .quiet), ("help", .help),
    ("version", .version)]

/-- The short names of the flags. -/
def shortFlags : List (Char × Flag) :=
  [('v', .verbose), ('q', .quiet), ('h', .help), ('V', .version)]

/-- An argument after its two hyphens. -/
def long (d : Draft) (argument : Text) : Except UsageProblem Draft :=
  let name := argument.takeWhile (· ≠ '=')
  let value? := (argument.dropWhile (· ≠ '=')).tail?
  match valueNames.lookup name, flagNames.lookup name, value? with
  | some option, _, some value => d.attached option value
  | some option, _, none => d.awaitValue option
  | none, some _, some _ => .error .unneededValue
  | none, some flag, none => d.flag flag
  | none, none, _ => .error .unknownArgument

/-- An argument after its one hyphen: flags, and at the end perhaps an option with its value. -/
def short (d : Draft) : Text → Except UsageProblem Draft
  | [] => .ok d
  | ['o'] => d.awaitValue .outDir
  | 'o' :: '=' :: value => d.attached .outDir value
  | 'o' :: value => d.attached .outDir value
  | c :: rest =>
    match shortFlags.lookup c with
    | some flag =>
      match d.flag flag with
      | .ok d => d.short rest
      | .error problem => .error problem
    | none => .error .unknownArgument

/-- An argument before a double hyphen. -/
def argument (d : Draft) (argument : Text) : Except UsageProblem Draft :=
  match argument, d.pending with
  | '-' :: '-' :: name, _ => d.long name
  | '-' :: c :: names, _ => d.short (c :: names)
  | value, .value option none => .ok { d with pending := .value option (some value) }
  | value, _ => d.file value

/-- Read arguments. After a double hyphen only files follow. -/
def arguments (d : Draft) : List Text → Except UsageProblem Draft
  | [] => d.resolve
  | ['-', '-'] :: rest => do (← rest.foldlM file d).resolve
  | first :: rest => do (← d.argument first).arguments rest

end Draft

/-- Read the arguments of the program. -/
def parse (arguments : List Text) : Except UsageProblem Arguments := do
  let a := (← ({} : Draft).arguments arguments).found
  if 0 < a.verbose ∧ 0 < a.quiet then throw .conflict
  if a.files = [] ∧ !a.printConfig then throw .missingFiles
  return a

end Arguments

end ServerPages
