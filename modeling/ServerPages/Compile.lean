import ServerPages.Page.Module

/-!
# Compiling a template

Compiling scans a template into a page and generates the module of the page. The result is the
module or the failure that was met, together with the log and the files that were read.
-/

namespace ServerPages

/-- A generated module. -/
structure CompiledModule where
  /-- The name of its class. -/
  className : Text
  /-- Its text. -/
  source : Text
  /-- What the author is warned about. -/
  notices : List Notice
  deriving DecidableEq, Repr

/-- The file of a module is named after its class. -/
def CompiledModule.fileName (m : CompiledModule) : Text := m.className ++ ".py"

/-- What compiling a template gives. -/
structure Compilation where
  /-- The module, or what went wrong. -/
  result : Except Failure CompiledModule
  /-- What was done, in order. -/
  log : List LogRecord
  /-- The files that were read, in order. -/
  sources : List Source

namespace Compilation

/-- A class is named after the file of its template: every character that is no ASCII letter or
digit becomes an underscore, and one is put in front if the name is empty or starts with a digit. -/
def classNameOf (path : Text) : Text :=
  let name := ((Path.fileName? path).getD []).map fun c => if c.isAlphanum then c else '_'
  match name with
  | [] => ['_']
  | c :: _ => if c.isDigit then '_' :: name else name

/-- The class name that the options give, or that of the template. -/
def className (o : Options) (path : Text) : Text := o.className?.getD (classNameOf path)

/-- The first record of a compilation. -/
def startRecord (name : Text) : LogRecord := ⟨.debug, "Compiling " ++ name⟩

/-- Compile the template that an input has open. -/
def ofInput (disk : Disk) (o : Options) (name : Text) (input : Input) (log : List LogRecord) :
    Compilation :=
  let page := Page.start o (className o name) name
  match (Scan.start input page).run Page.visitor disk with
  | .error halt => ⟨.error halt.failure, log ++ halt.scan.log, halt.scan.input.opened⟩
  | .ok scan =>
    let page := scan.state
    { result := page.generate.1.map fun source => ⟨page.className, source, page.notices⟩
      log := log ++ scan.log ++ page.generationRecords
      sources := scan.input.opened }

end Compilation

/-- Compile a template that is given as text. -/
def compileText (disk : Disk) (o : Options) (name source : Text) : Compilation :=
  let input := (Input.empty o.crossing).openText name source (o.baseDir?.getD ['.'])
  .ofInput disk o name input [Compilation.startRecord name]

/-- Compile a template on disk. -/
def compileFile (disk : Disk) (o : Options) (path : Text) : Compilation :=
  match (Input.empty o.crossing).openFile disk ⟨path, none⟩ with
  | .error failure => ⟨.error failure, [Compilation.startRecord path], []⟩
  | .ok opened =>
    let input :=
      match o.baseDir? with
      | some baseDir => opened.setBaseDir baseDir
      | none => opened
    .ofInput disk o path input [Compilation.startRecord path, opened.openingRecord]

end ServerPages
